import PtkGenerator.Model.Connection

/-!
# The replies to the memory requests of a client

`mem_req_lst` has one entry for an address, so the registration of a request takes the place of
an earlier one for the same address.  As long as that earlier call has got its reply, nothing is
lost by it (`NoOverwrite`), and then every request on its way is one of a call that waits, its
channel is empty and the map has it under the address of the request (`Inv`).  From this the
reply of the server goes to the call that has asked for it, and the receive loop never meets a
channel whose receiver is gone.

Two workers that fault on the same page break the condition: the channel of the first call is
dropped with its entry, and the second reply comes to a channel that has had one.
-/

set_option autoImplicit false

namespace PtkGenerator

namespace Conn

variable {n : ℕ}

/-- `r` is what the server has answered the request of the call with. -/
def Answered (s : Conn n) (c : Call) (r : Option Reply) : Prop :=
  ∃ data, r = some ⟨data, some c⟩ ∧ (c, data) ∈ s.answered

/-- What holds between the requests, the map, the channels and the calls. -/
structure Inv (s : Conn n) : Prop where
  nodup : s.pending.Nodup
  owned : ∀ c ∈ s.pending, s.slots c.chan = none ∧ ∃ w, s.workers w = .waiting c
  registered : ∀ c ∈ s.inFlight, s.memReqLst.lookup c.addr = some c.chan
  waiting : ∀ w c, s.workers w = .waiting c → c ∈ s.pending ∨ s.Answered c (s.slots c.chan)
  received : ∀ w c r, s.workers w = .received c r → s.Answered c r
  returned : ∀ e ∈ s.returned, s.Answered e.1 e.2
  replies : ∀ c data, .memRsp c data ∈ s.wireIn → (c, data) ∈ s.answered
  fresh : ∀ w c, (s.workers w).call = some c → c.chan < s.nextChan
  distinct : ∀ w w' c c', (s.workers w).call = some c → (s.workers w').call = some c' →
    c.chan = c'.chan → w = w'
  empty : ∀ ch, s.nextChan ≤ ch → s.slots ch = none
  listening : s.listening = true

/-- In the beginning no call is made. -/
theorem Inv.init : (connMachine n).init.Inv where
  nodup := List.nodup_nil
  owned := fun c hc => (by cases hc)
  registered := fun c hc => (by cases hc)
  waiting := fun w c hc => (by cases hc)
  received := fun w c r hr => (by cases hr)
  returned := fun e he => (by cases he)
  replies := fun c data hc => (by cases hc)
  fresh := fun w c hc => (by cases hc)
  distinct := fun w w' c c' hc => (by cases hc)
  empty := fun _ _ => rfl
  listening := rfl

/-- A call that is answered stays so. -/
theorem Answered.mono {s t : Conn n} (h : ∀ e ∈ s.answered, e ∈ t.answered) {c : Call}
    {r : Option Reply} (ha : s.Answered c r) : t.Answered c r := by
  obtain ⟨data, hr, hm⟩ := ha
  exact ⟨data, hr, h _ hm⟩

/-- The worker has its new phase. -/
@[simp] theorem setWorker_workers_self (s : Conn n) (w : Fin n) (p : WorkerPhase) :
    (s.setWorker w p).workers w = p := Function.update_self ..

/-- The other workers have their phases. -/
theorem setWorker_workers_of_ne (s : Conn n) {w w' : Fin n} (h : w' ≠ w) (p : WorkerPhase) :
    (s.setWorker w p).workers w' = s.workers w' := Function.update_of_ne h ..

/-- A phase behind a change is the new one of that worker or the old one of another. -/
theorem eq_or_of_setWorker {s : Conn n} {w w' : Fin n} {p q : WorkerPhase}
    (h : (s.setWorker w p).workers w' = q) : (w' = w ∧ p = q) ∨ (w' ≠ w ∧ s.workers w' = q) := by
  by_cases e : w' = w
  · subst e
    rw [setWorker_workers_self] at h
    exact .inl ⟨rfl, h⟩
  · rw [setWorker_workers_of_ne s e] at h
    exact .inr ⟨e, h⟩

/-- A call behind a change is that of the changed worker or of another. -/
theorem call_of_setWorker {s : Conn n} {w w' : Fin n} {p : WorkerPhase} {c : Call}
    (h : ((s.setWorker w p).workers w').call = some c) :
    (w' = w ∧ p.call = some c) ∨ (w' ≠ w ∧ (s.workers w').call = some c) := by
  rcases eq_or_of_setWorker (s := s) (p := p) (w := w) rfl with ⟨e, hq⟩ | ⟨e, hq⟩
  · exact .inl ⟨e, hq ▸ h⟩
  · exact .inr ⟨e, hq ▸ h⟩

/-- The channel of a registered call has a sender. -/
theorem senderAlive_of_lookup {s : Conn n} {addr : Usize} {ch : ℕ}
    (h : s.memReqLst.lookup addr = some ch) : s.SenderAlive ch := by
  refine .inr ⟨addr, ?_, h⟩
  rw [Finmap.mem_keys, ← Finmap.lookup_isSome, h]
  rfl

/-- Two waiting calls with one channel are one call. -/
theorem Inv.eq_of_chan_eq {s : Conn n} (h : s.Inv) {w w' : Fin n} {c c' : Call}
    (hw : s.workers w = .waiting c) (hw' : s.workers w' = .waiting c')
    (hch : c.chan = c'.chan) : c = c' := by
  have hww : w = w' := h.distinct w w' c c' (by rw [hw]; rfl) (by rw [hw']; rfl) hch
  subst hww
  rw [hw] at hw'
  exact WorkerPhase.waiting.inj hw'

/-! ## The workers -/

/-- A worker that does not wait may go to a phase without a call. -/
theorem Inv.setWorker {s : Conn n} (h : s.Inv) {w : Fin n} {p : WorkerPhase}
    (hw : ∀ c, s.workers w ≠ .waiting c) (hp : p.call = none) : (s.setWorker w p).Inv := by
  have hback : ∀ w' c, ((s.setWorker w p).workers w').call = some c →
      (s.workers w').call = some c := by
    intro w' c hc
    rcases call_of_setWorker hc with ⟨-, e⟩ | ⟨-, hc⟩
    · rw [hp] at e
      cases e
    · exact hc
  refine ⟨h.nodup, ?_, h.registered, ?_, ?_, h.returned, h.replies, ?_, ?_, h.empty, h.listening⟩
  · intro c hc
    obtain ⟨hslot, w', hw'⟩ := h.owned c hc
    have hne : w' ≠ w := by
      rintro rfl
      exact hw c hw'
    exact ⟨hslot, w', (setWorker_workers_of_ne s hne p).trans hw'⟩
  · intro w' c hc
    rcases eq_or_of_setWorker hc with ⟨-, rfl⟩ | ⟨-, hc⟩
    · cases hp
    · exact h.waiting w' c hc
  · intro w' c r hc
    rcases eq_or_of_setWorker hc with ⟨-, rfl⟩ | ⟨-, hc⟩
    · cases hp
    · exact h.received w' c r hc
  · exact fun w' c hc => h.fresh w' c (hback w' c hc)
  · exact fun w₁ w₂ c₁ c₂ h₁ h₂ => h.distinct w₁ w₂ c₁ c₂ (hback w₁ c₁ h₁) (hback w₂ c₂ h₂)

/-- The calls do not depend on the channel of the workers. -/
theorem Inv.setCtrl {s : Conn n} (h : s.Inv) (ctrl : List ProcCtrl) :
    ({ s with ctrl } : Conn n).Inv :=
  ⟨h.nodup, h.owned, h.registered, h.waiting, h.received, h.returned, h.replies, h.fresh,
    h.distinct, h.empty, h.listening⟩

/-- A worker takes a message, and no call changes. -/
theorem Inv.takeCtrl {s t : Conn n} {w : Fin n} (h : s.Inv) (ht : s.takeCtrl w = some t) :
    t.Inv := by
  obtain ⟨hw, ⟨ctrl, -, rfl⟩ | ⟨data, ctrl, -, rfl⟩ | ⟨-, hover, -⟩⟩ := takeCtrl_cases ht
  · exact h.setCtrl _
  · exact (h.setWorker (by simp [hw]) (WorkerPhase.call_ofChunk _)).setCtrl _
  · rw [h.listening] at hover
    cases hover

/-- INTERNAL: **a call begins**: its request is in the queue, its channel is new.
SRC: client_proc.rs:32-38 -/
theorem Inv.readMem {s t : Conn n} {w : Fin n} {addr len : Usize} (h : s.Inv)
    (ht : s.readMem w addr len = some t) : t.Inv := by
  obtain ⟨hw, rfl⟩ := readMem_cases ht
  set c : Call := ⟨s.nextChan, addr, len⟩ with hc
  have hpending : (pending { s.setWorker w (.waiting c) with
      nextChan := s.nextChan + 1
      memReq := s.memReq ++ [c] }).Perm (c :: s.pending) := by
    simp only [pending, List.append_assoc]
    exact List.perm_middle
  have hback : ∀ w' d, ((s.setWorker w (.waiting c)).workers w').call = some d →
      (w' = w ∧ c = d) ∨ (s.workers w').call = some d :=
    fun w' d hd => (call_of_setWorker hd).imp (And.imp_right Option.some.inj) And.right
  refine ⟨?_, ?_, h.registered, ?_, ?_, h.returned, h.replies, ?_, ?_, ?_, h.listening⟩
  · rw [hpending.nodup_iff, List.nodup_cons]
    refine ⟨fun hmem => ?_, h.nodup⟩
    obtain ⟨-, w', hw'⟩ := h.owned c hmem
    have hlt : c.chan < s.nextChan := h.fresh w' c (by rw [hw']; rfl)
    exact absurd hlt (lt_irrefl _)
  · intro d hd
    rw [hpending.mem_iff, List.mem_cons] at hd
    rcases hd with rfl | hd
    · exact ⟨h.empty s.nextChan (le_refl _), w, setWorker_workers_self s w _⟩
    · obtain ⟨hslot, w', hw'⟩ := h.owned d hd
      have hne : w' ≠ w := by
        rintro rfl
        rw [hw] at hw'
        cases hw'
      exact ⟨hslot, w', (setWorker_workers_of_ne s hne _).trans hw'⟩
  · intro w' d hd
    rw [hpending.mem_iff, List.mem_cons]
    rcases eq_or_of_setWorker hd with ⟨-, e⟩ | ⟨-, hd⟩
    · exact .inl (.inl (WorkerPhase.waiting.inj e).symm)
    · exact (h.waiting w' d hd).imp_left .inr
  · intro w' d r hd
    rcases eq_or_of_setWorker hd with ⟨-, e⟩ | ⟨-, hd⟩
    · cases e
    · exact h.received w' d r hd
  · intro w' d hd
    rcases hback w' d hd with ⟨-, rfl⟩ | hd
    · exact Nat.lt_succ_self _
    · exact Nat.lt_succ_of_lt (h.fresh w' d hd)
  · intro w₁ w₂ c₁ c₂ h₁ h₂ hch
    rcases hback w₁ c₁ h₁ with ⟨rfl, rfl⟩ | hold₁ <;>
      rcases hback w₂ c₂ h₂ with ⟨rfl, rfl⟩ | hold₂
    · rfl
    · exact absurd hch.symm (h.fresh w₂ c₂ hold₂).ne
    · exact absurd hch (h.fresh w₁ c₁ hold₁).ne
    · exact h.distinct w₁ w₂ c₁ c₂ hold₁ hold₂ hch
  · intro ch hch
    exact h.empty ch (Nat.le_of_succ_le hch)

/-- What is in the channel of a waiting call answers it. -/
theorem Inv.answered_of_slot {s : Conn n} (h : s.Inv) {w : Fin n} {c : Call} {r : Reply}
    (hw : s.workers w = .waiting c) (hslot : s.slots c.chan = some r) : s.Answered c (some r) := by
  rcases h.waiting w c hw with hmem | ha
  · rw [(h.owned c hmem).1] at hslot
    cases hslot
  · rwa [hslot] at ha

/-- A waiting call without a reply is on its way, and its channel has a sender. -/
theorem Inv.senderAlive {s : Conn n} (h : s.Inv) {w : Fin n} {c : Call}
    (hw : s.workers w = .waiting c) (hslot : s.slots c.chan = none) :
    c ∈ s.pending ∧ s.SenderAlive c.chan := by
  have hmem : c ∈ s.pending := by
    rcases h.waiting w c hw with hmem | ⟨data, hdata, -⟩
    · exact hmem
    · rw [hslot] at hdata
      cases hdata
  refine ⟨hmem, ?_⟩
  rcases List.mem_append.mp hmem with hq | hf
  · exact .inl ⟨c, hq, rfl⟩
  · exact senderAlive_of_lookup (h.registered c hf)

/-- INTERNAL: **a call receives** what its own request was answered with; it cannot fail.
SRC: client_proc.rs:39 -/
theorem Inv.recv {s t : Conn n} {w : Fin n} (h : s.Inv) (ht : s.recv w = some t) : t.Inv := by
  obtain ⟨c, hw, ⟨r, hslot, rfl⟩ | ⟨hslot, hdead, -⟩⟩ := recv_cases ht
  · -- no other call waits on the channel
    have hne : ∀ w' d, w' ≠ w → s.workers w' = .waiting d → d.chan ≠ c.chan := by
      intro w' d e hd hch
      exact e (h.distinct w' w d c (by rw [hd]; rfl) (by rw [hw]; rfl) hch)
    have hback : ∀ w' d, ((s.setWorker w (.received c (some r))).workers w').call = some d →
        (s.workers w').call = some d := by
      intro w' d hd
      rcases call_of_setWorker hd with ⟨rfl, e⟩ | ⟨-, hd⟩
      · rw [hw]
        exact e
      · exact hd
    refine ⟨h.nodup, ?_, h.registered, ?_, ?_, h.returned, h.replies, ?_, ?_, ?_, h.listening⟩
    · intro d hd
      obtain ⟨hdslot, w', hw'⟩ := h.owned d hd
      have e : w' ≠ w := by
        rintro rfl
        obtain rfl := WorkerPhase.waiting.inj (hw.symm.trans hw')
        rw [hslot] at hdslot
        cases hdslot
      refine ⟨?_, w', (setWorker_workers_of_ne s e _).trans hw'⟩
      change Function.update s.slots c.chan none d.chan = none
      rw [Function.update_of_ne (hne w' d e hw')]
      exact hdslot
    · intro w' d hd
      rcases eq_or_of_setWorker hd with ⟨-, e⟩ | ⟨e, hd⟩
      · cases e
      · change d ∈ s.pending ∨ s.Answered d (Function.update s.slots c.chan none d.chan)
        rw [Function.update_of_ne (hne w' d e hd)]
        exact h.waiting w' d hd
    · intro w' d r' hd
      rcases eq_or_of_setWorker hd with ⟨-, e⟩ | ⟨-, hd⟩
      · obtain ⟨rfl, rfl⟩ := WorkerPhase.received.inj e
        exact h.answered_of_slot hw hslot
      · exact h.received w' d r' hd
    · exact fun w' d hd => h.fresh w' d (hback w' d hd)
    · exact fun w₁ w₂ c₁ c₂ h₁ h₂ =>
        h.distinct w₁ w₂ c₁ c₂ (hback w₁ c₁ h₁) (hback w₂ c₂ h₂)
    · intro ch hch
      change Function.update s.slots c.chan none ch = none
      by_cases e : ch = c.chan
      · rw [e, Function.update_self]
      · rw [Function.update_of_ne e]
        exact h.empty ch hch
  · exact absurd (h.senderAlive hw hslot).2 hdead

/-- INTERNAL: **a call returns** what its request was answered with.
SRC: client_proc.rs:39-43 -/
theorem Inv.retReadMem {s t : Conn n} {w : Fin n} (h : s.Inv) (ht : s.retReadMem w = some t) :
    t.Inv := by
  obtain ⟨c, rst, hw, rfl⟩ := retReadMem_cases ht
  have h' := h.setWorker (w := w) (p := .decoding) (by simp [hw]) rfl
  refine ⟨h'.nodup, h'.owned, h'.registered, h'.waiting, h'.received, ?_, h'.replies, h'.fresh,
    h'.distinct, h'.empty, h'.listening⟩
  intro e he
  rcases List.mem_append.mp he with he | he
  · exact h.returned e he
  · rw [List.mem_singleton.mp he]
    exact h.received w c rst hw

/-! ## The requests on their way -/

/-- Calls may move from one place to the next, and replies with them. -/
theorem Inv.move {s : Conn n} (h : s.Inv) {memReq : List Call} {forward : Option Call}
    {memReqLst : HashMap Usize ℕ} {wireOut : List ClientPacket} {wireIn : List ServerPacket}
    {answered : List (Call × Bytes)}
    (hpending : (pending { s with memReq, forward, memReqLst, wireOut, wireIn, answered }).Perm
      s.pending)
    (hregistered : ∀ c ∈ inFlight { s with memReq, forward, memReqLst, wireOut, wireIn, answered },
      memReqLst.lookup c.addr = some c.chan)
    (hanswered : ∀ e ∈ s.answered, e ∈ answered)
    (hreplies : ∀ c data, .memRsp c data ∈ wireIn → (c, data) ∈ answered) :
    ({ s with memReq, forward, memReqLst, wireOut, wireIn, answered } : Conn n).Inv := by
  refine ⟨?_, ?_, hregistered, ?_, ?_, ?_, hreplies, h.fresh, h.distinct, h.empty, h.listening⟩
  · rw [hpending.nodup_iff]
    exact h.nodup
  · intro c hc
    exact h.owned c (hpending.mem_iff.mp hc)
  · intro w c hc
    rw [hpending.mem_iff]
    exact (h.waiting w c hc).imp_right (Answered.mono hanswered)
  · exact fun w c r hr => (h.received w c r hr).mono hanswered
  · exact fun e he => (h.returned e he).mono hanswered

/-- INTERNAL: **a registration** that takes no waiting call's place puts the request on its way.
SRC: client_proc.rs:113-117 -/
theorem Inv.register {s t : Conn n} (h : s.Inv) (hover : s.NoOverwrite .register)
    (ht : s.register = some t) : t.Inv := by
  obtain ⟨c, memReq, hq, hf, rfl⟩ := register_cases ht
  refine h.move ?_ ?_ (fun e he => he) h.replies
  · rw [List.perm_iff_count]
    intro x
    simp only [pending, inFlight, hq, hf, List.count_append, Option.toList_some,
      Option.toList_none, List.count_cons, List.count_nil]
    omega
  · intro d hd
    have hmem : c ∈ s.pending := by
      unfold pending
      rw [hq]
      exact List.mem_append_left _ List.mem_cons_self
    rcases List.mem_append.mp hd with hd | hd
    · rw [List.mem_singleton.mp hd, Finmap.lookup_insert]
    · -- a request that is already on its way is one for another address
      have hfl : d ∈ s.inFlight := by
        unfold inFlight
        exact List.mem_append_right _ hd
      have hreg := h.registered d hfl
      have hne : d.addr ≠ c.addr := by
        intro e
        obtain ⟨hslot, w, hw⟩ := h.owned d (List.mem_append_right _ hfl)
        rw [e] at hreg
        exact hover c (by rw [hq]; rfl) d.chan hreg ⟨hslot, w, d, hw, rfl⟩
      rw [Finmap.lookup_insert_of_ne _ hne]
      exact hreg

/-- Packets may move on the wires when no call gets lost or is doubled. -/
theorem Inv.wire {s : Conn n} (h : s.Inv) {forward : Option Call} {wireOut : List ClientPacket}
    {wireIn : List ServerPacket} {answered : List (Call × Bytes)}
    (hflight : (inFlight { s with forward, wireOut, wireIn, answered }).Perm s.inFlight)
    (hanswered : ∀ e ∈ s.answered, e ∈ answered)
    (hreplies : ∀ c data, .memRsp c data ∈ wireIn → (c, data) ∈ answered) :
    ({ s with forward, wireOut, wireIn, answered } : Conn n).Inv :=
  h.move (hflight.append_left s.memReq)
    (fun d hd => h.registered d (hflight.mem_iff.mp hd)) hanswered hreplies

/-- The forwarding task sends the request, and the call goes on the wire. -/
theorem Inv.sendMemReq {s t : Conn n} (h : s.Inv) (ht : s.sendMemReq = some t) : t.Inv := by
  obtain ⟨c, hf, rfl⟩ := sendMemReq_cases ht
  refine h.wire ?_ (fun e he => he) h.replies
  rw [List.perm_iff_count]
  intro x
  simp only [inFlight, hf, List.count_append, Option.toList_some, Option.toList_none,
    List.filterMap_append, List.filterMap_cons, List.filterMap_nil, ClientPacket.call,
    List.count_cons, List.count_nil]
  omega

/-- An answer goes on the wire, and no call with it. -/
theorem Inv.sendDataRsp {s t : Conn n} {w : Fin n} {data : SparseMap} (h : s.Inv)
    (ht : s.sendDataRsp w data = some t) : t.Inv := by
  obtain ⟨hw, rfl⟩ := sendDataRsp_cases ht
  have h' := h.setWorker (w := w) (p := .idle) (by simp [hw]) rfl
  refine h'.wire (.of_eq ?_) (fun e he => he) h'.replies
  simp [inFlight, Conn.setWorker, List.filterMap_cons, ClientPacket.call]

/-- An answer that cannot be sent changes no call. -/
theorem Inv.dropDataRsp {s t : Conn n} {w : Fin n} (h : s.Inv)
    (ht : s.dropDataRsp w = some t) : t.Inv := by
  obtain ⟨hw, rfl⟩ := dropDataRsp_cases ht
  exact h.setWorker (by simp [hw]) rfl

/-- A packet that replies to no call goes on the wire to the client. -/
theorem Inv.push {s : Conn n} (h : s.Inv) {wireOut : List ClientPacket} {p : ServerPacket}
    (hout : wireOut.filterMap ClientPacket.call = s.wireOut.filterMap ClientPacket.call)
    (hp : p.call = none) : ({ s with wireOut, wireIn := s.wireIn ++ [p] } : Conn n).Inv := by
  refine h.wire (.of_eq ?_) (fun e he => he) ?_
  · simp [inFlight, hout, hp]
  · intro c data hc
    rcases List.mem_append.mp hc with hc | hc
    · exact h.replies c data hc
    · rw [← List.mem_singleton.mp hc] at hp
      cases hp

/-- A message for the workers goes on the wire. -/
theorem Inv.serverSend {s : Conn n} (h : s.Inv) (ctrl : ProcCtrl) : (s.serverSend ctrl).Inv := by
  cases ctrl with
  | init => exact h.push rfl rfl
  | proc data => exact h.push rfl rfl

/-- INTERNAL: **the server answers** the request it takes.
SRC: client_agent.rs:126-138 -/
theorem Inv.serverReply {s t : Conn n} {data : Bytes} (h : s.Inv)
    (ht : s.serverReply data = some t) : t.Inv := by
  obtain ⟨id, wireOut, ho, rfl⟩ | ⟨msg, wireOut, ho, rfl⟩ | ⟨c, wireOut, ho, rfl⟩ :=
    serverReply_cases ht
  · exact h.push (by rw [ho]; rfl) rfl
  · refine h.wire (.of_eq ?_) (fun e he => he) h.replies
    simp [inFlight, ho, List.filterMap_cons, ClientPacket.call]
  · refine h.wire ?_ (fun e he => List.mem_append_left _ he) ?_
    · rw [List.perm_iff_count]
      intro x
      simp only [inFlight, ho, List.count_append, List.filterMap_append, List.filterMap_cons,
        List.filterMap_nil, ClientPacket.call, ServerPacket.call, List.count_cons, List.count_nil]
      omega
    · intro d data' hd
      rcases List.mem_append.mp hd with hd | hd
      · exact List.mem_append_left _ (h.replies d data' hd)
      · obtain ⟨rfl, rfl⟩ := ServerPacket.memRsp.inj (List.mem_singleton.mp hd)
        exact List.mem_append_right _ (List.mem_singleton_self _)

/-! ## The receive loop -/

/-- The receive loop takes the first packet that has arrived. -/
theorem recvMsg_cons {s : Conn n} {p : ServerPacket} {wireIn : List ServerPacket}
    (hlist : s.listening = true) (hin : s.wireIn = p :: wireIn) :
    s.recvMsg = handleMsg { s with wireIn } p.msg p.call := by
  unfold Conn.recvMsg
  rw [hin]
  exact if_pos hlist

/-- INTERNAL: **a reply at the head of the wire finds the call it is for**: the map has the
channel of the call, whose receiver lives and which is empty.
SRC: client_proc.rs:158-166 -/
theorem Inv.recvMsg_memRsp {s : Conn n} (h : s.Inv) {c : Call} {data : Bytes}
    {wireIn : List ServerPacket} (hin : s.wireIn = .memRsp c data :: wireIn) :
    s.recvMsg = some { s with
      wireIn, slots := Function.update s.slots c.chan (some ⟨data, some c⟩) } := by
  have hfl : c ∈ s.inFlight := by
    unfold inFlight
    rw [hin]
    exact List.mem_append_right _ (List.mem_append_right _ List.mem_cons_self)
  obtain ⟨hslot, w, hw⟩ := h.owned c (List.mem_append_right _ hfl)
  have halive : ReceiverAlive { s with wireIn } c.chan := ⟨w, by rw [hw]; rfl⟩
  rw [recvMsg_cons h.listening hin]
  simp only [handleMsg, ServerPacket.msg, ServerPacket.call, h.registered c hfl]
  unfold Conn.deliver
  rw [if_pos halive]
  simp only [hslot]

/-- INTERNAL: **the reply is delivered** and its request is pending no more. -/
theorem Inv.deliver {s : Conn n} (h : s.Inv) {c : Call} {data : Bytes}
    {wireIn : List ServerPacket} (hin : s.wireIn = .memRsp c data :: wireIn) :
    ({ s with wireIn, slots := Function.update s.slots c.chan (some ⟨data, some c⟩) } :
      Conn n).Inv := by
  have hperm : s.pending.Perm (c :: pending { s with
      wireIn, slots := Function.update s.slots c.chan (some ⟨data, some c⟩) }) := by
    rw [List.perm_iff_count]
    intro x
    simp only [pending, inFlight, hin, List.count_append, List.filterMap_cons, ServerPacket.call,
      List.count_cons]
    omega
  have hnodup := hperm.nodup_iff.mp h.nodup
  rw [List.nodup_cons] at hnodup
  obtain ⟨hslot, w, hw⟩ := h.owned c (hperm.mem_iff.mpr List.mem_cons_self)
  have hanswered : (c, data) ∈ s.answered := by
    apply h.replies
    rw [hin]
    exact List.mem_cons_self
  have hne : ∀ w' d, s.workers w' = .waiting d → d ≠ c → d.chan ≠ c.chan :=
    fun w' d hd hdc hch => hdc (h.eq_of_chan_eq hd hw hch)
  refine ⟨hnodup.2, ?_, ?_, ?_, h.received, h.returned, ?_, h.fresh, h.distinct, ?_,
    h.listening⟩
  · intro d hd
    obtain ⟨hdslot, w', hw'⟩ := h.owned d (hperm.mem_iff.mpr (List.mem_cons_of_mem _ hd))
    refine ⟨?_, w', hw'⟩
    change Function.update s.slots c.chan _ d.chan = none
    rw [Function.update_of_ne (hne w' d hw' (fun e => hnodup.1 (e ▸ hd)))]
    exact hdslot
  · intro d hd
    apply h.registered
    unfold inFlight at hd ⊢
    rw [hin]
    rcases List.mem_append.mp hd with hd | hd
    · exact List.mem_append_left _ hd
    · refine List.mem_append_right _ ?_
      rcases List.mem_append.mp hd with hd | hd
      · exact List.mem_append_left _ hd
      · exact List.mem_append_right _ (List.mem_cons_of_mem _ hd)
  · intro w' d hd
    change d ∈ pending _ ∨ s.Answered d (Function.update s.slots c.chan _ d.chan)
    by_cases e : d = c
    · subst e
      rw [Function.update_self]
      exact .inr ⟨data, rfl, hanswered⟩
    · rw [Function.update_of_ne (hne w' d hd e)]
      refine (h.waiting w' d hd).imp_left fun hmem => ?_
      exact (List.mem_cons.mp (hperm.mem_iff.mp hmem)).resolve_left e
  · intro d data' hd
    apply h.replies
    rw [hin]
    exact List.mem_cons_of_mem _ hd
  · intro ch hch
    change Function.update s.slots c.chan _ ch = none
    have hlt := h.fresh w c (by rw [hw]; rfl)
    rw [Function.update_of_ne (by change s.nextChan ≤ ch at hch; omega)]
    exact h.empty ch hch

/-- The receive loop keeps the calls in order. -/
theorem Inv.recvMsg {s t : Conn n} (h : s.Inv) (ht : s.recvMsg = some t) : t.Inv := by
  obtain ⟨p, wireIn, hin, -, hmsg⟩ := recvMsg_uncons ht
  have hpop : p.call = none → ({ s with wireIn } : Conn n).Inv := by
    intro hp
    refine h.wire (.of_eq ?_) (fun e he => he) ?_
    · simp [inFlight, hin, hp]
    · intro c data hc
      apply h.replies
      rw [hin]
      exact List.mem_cons_of_mem _ hc
  cases p with
  | memRsp c data =>
    rw [h.recvMsg_memRsp hin] at ht
    obtain rfl := Option.some.inj ht
    exact h.deliver hin
  | regRsp id =>
    obtain rfl := Option.some.inj hmsg
    exact hpop rfl
  | init =>
    obtain rfl := Option.some.inj hmsg
    exact (hpop rfl).setCtrl _
  | dataReq data =>
    obtain rfl := Option.some.inj hmsg
    exact (hpop rfl).setCtrl _

/-- INTERNAL: **one step** that takes no waiting call's place keeps the invariant. -/
theorem Inv.step {s t : Conn n} {op : ConnOp n} (h : s.Inv) (hover : s.NoOverwrite op)
    (ht : (connMachine n).step s op = some t) : t.Inv := by
  cases op with
  | takeCtrl w => exact h.takeCtrl ht
  | readMem w addr len => exact h.readMem ht
  | recv w => exact h.recv ht
  | retReadMem w => exact h.retReadMem ht
  | sendDataRsp w data => exact h.sendDataRsp ht
  | dropDataRsp w => exact h.dropDataRsp ht
  | register => exact h.register hover ht
  | sendMemReq => exact h.sendMemReq ht
  | recvMsg => exact h.recvMsg ht
  | serverReply data => exact h.serverReply ht
  | serverSend ctrl =>
    obtain rfl := Option.some.inj ht
    exact h.serverSend ctrl

/-- Without an overwrite the calls of every run are in order. -/
theorem inv_of_exec {ops : List (ConnOp n)} {s : Conn n}
    (hmeets : (connMachine n).Meets NoOverwrite (connMachine n).init ops)
    (hrun : (connMachine n).exec (connMachine n).init ops = some s) : s.Inv :=
  Machine.exec_induct _ (P := Inv) (fun _ _ _ h hover ht => h.step hover ht) Inv.init hmeets hrun

/-! ## The senders of a channel -/

/-- A channel has one sender: in the queue of requests, or under one address of the map. -/
structure OneSender (s : Conn n) : Prop where
  fresh : ∀ ch, s.SenderAlive ch → ch < s.nextChan
  queue : (s.memReq.map Call.chan).Nodup
  apart : ∀ c ∈ s.memReq, ∀ addr, s.memReqLst.lookup addr ≠ some c.chan
  inj : ∀ addr addr' ch, s.memReqLst.lookup addr = some ch → s.memReqLst.lookup addr' = some ch →
    addr = addr'

/-- The queue, the map and the number of channels are what they were. -/
def SameSenders (s t : Conn n) : Prop :=
  t.memReq = s.memReq ∧ t.memReqLst = s.memReqLst ∧ t.nextChan = s.nextChan

/-- A step without a read and a registration keeps the senders. -/
theorem sameSenders_of_step {s t : Conn n} {op : ConnOp n}
    (hread : ∀ w addr len, op ≠ .readMem w addr len) (hreg : op ≠ .register)
    (ht : (connMachine n).step s op = some t) : SameSenders s t := by
  cases op with
  | readMem w addr len => exact absurd rfl (hread w addr len)
  | register => exact absurd rfl hreg
  | takeCtrl w =>
    obtain ⟨-, ⟨ctrl, -, rfl⟩ | ⟨data, ctrl, -, rfl⟩ | ⟨-, -, rfl⟩⟩ := takeCtrl_cases ht
    · exact ⟨rfl, rfl, rfl⟩
    · exact ⟨rfl, rfl, rfl⟩
    · exact ⟨rfl, rfl, rfl⟩
  | recv w =>
    obtain ⟨c, -, ⟨r, -, rfl⟩ | ⟨-, -, rfl⟩⟩ := recv_cases ht
    · exact ⟨rfl, rfl, rfl⟩
    · exact ⟨rfl, rfl, rfl⟩
  | retReadMem w =>
    obtain ⟨c, rst, -, rfl⟩ := retReadMem_cases ht
    exact ⟨rfl, rfl, rfl⟩
  | sendDataRsp w data =>
    obtain ⟨-, rfl⟩ := sendDataRsp_cases ht
    exact ⟨rfl, rfl, rfl⟩
  | dropDataRsp w =>
    obtain ⟨-, rfl⟩ := dropDataRsp_cases ht
    exact ⟨rfl, rfl, rfl⟩
  | sendMemReq =>
    obtain ⟨c, -, rfl⟩ := sendMemReq_cases ht
    exact ⟨rfl, rfl, rfl⟩
  | recvMsg =>
    obtain ⟨p, wireIn, -, ⟨ctrl, listening, rfl⟩ | ⟨c, data, ch, -, -, rfl⟩⟩ := recvMsg_cases ht
    · exact ⟨rfl, rfl, rfl⟩
    · exact ⟨rfl, rfl, rfl⟩
  | serverReply data =>
    obtain ⟨id, wireOut, -, rfl⟩ | ⟨msg, wireOut, -, rfl⟩ | ⟨c, wireOut, -, rfl⟩ :=
      serverReply_cases ht
    · exact ⟨rfl, rfl, rfl⟩
    · exact ⟨rfl, rfl, rfl⟩
    · exact ⟨rfl, rfl, rfl⟩
  | serverSend ctrl =>
    obtain rfl := Option.some.inj ht
    cases ctrl <;> exact ⟨rfl, rfl, rfl⟩

/-- A new call has the only sender of its channel. -/
theorem OneSender.readMem {s t : Conn n} {w : Fin n} {addr len : Usize} (h : s.OneSender)
    (ht : s.readMem w addr len = some t) : t.OneSender := by
  obtain ⟨-, rfl⟩ := readMem_cases ht
  have hnew : ∀ c ∈ s.memReq, c.chan ≠ s.nextChan :=
    fun c hc => (h.fresh c.chan (.inl ⟨c, hc, rfl⟩)).ne
  refine ⟨?_, ?_, ?_, h.inj⟩
  · intro ch hch
    rcases hch with ⟨c, hc, rfl⟩ | hmap
    · rcases List.mem_append.mp hc with hc | hc
      · exact Nat.lt_succ_of_lt (h.fresh c.chan (.inl ⟨c, hc, rfl⟩))
      · rw [List.mem_singleton.mp hc]
        exact Nat.lt_succ_self _
    · exact Nat.lt_succ_of_lt (h.fresh ch (.inr hmap))
  · change ((s.memReq ++ [_]).map Call.chan).Nodup
    rw [List.map_append, List.nodup_append]
    refine ⟨h.queue, List.nodup_singleton _, ?_⟩
    intro ch hch ch' hch'
    obtain ⟨c, hc, rfl⟩ := List.mem_map.mp hch
    rw [List.mem_singleton.mp hch']
    exact hnew c hc
  · intro c hc a
    rcases List.mem_append.mp hc with hc | hc
    · exact h.apart c hc a
    · rw [List.mem_singleton.mp hc]
      exact fun hl => absurd (h.fresh _ (senderAlive_of_lookup hl)) (lt_irrefl _)

/-- A registration moves the sender of its call. -/
theorem OneSender.register {s t : Conn n} (h : s.OneSender) (ht : s.register = some t) :
    t.OneSender := by
  obtain ⟨c, memReq, hq, -, rfl⟩ := register_cases ht
  have hmem : ∀ d ∈ memReq, d ∈ s.memReq := by
    intro d hd
    rw [hq]
    exact List.mem_cons_of_mem _ hd
  have hc : c ∈ s.memReq := by
    rw [hq]
    exact List.mem_cons_self
  have hnodup := h.queue
  rw [hq, List.map_cons, List.nodup_cons] at hnodup
  -- what an entry of the new map is
  have hlookup : ∀ a ch, (s.memReqLst.insert c.addr c.chan).lookup a = some ch →
      (a = c.addr ∧ ch = c.chan) ∨ s.memReqLst.lookup a = some ch := by
    intro a ch hl
    by_cases e : a = c.addr
    · rw [e, Finmap.lookup_insert] at hl
      exact .inl ⟨e, (Option.some.inj hl).symm⟩
    · rw [Finmap.lookup_insert_of_ne _ e] at hl
      exact .inr hl
  refine ⟨?_, hnodup.2, ?_, ?_⟩
  · intro ch hch
    rcases hch with ⟨d, hd, rfl⟩ | ⟨a, -, hl⟩
    · exact h.fresh d.chan (.inl ⟨d, hmem d hd, rfl⟩)
    · rcases hlookup a ch hl with ⟨-, rfl⟩ | hl
      · exact h.fresh c.chan (.inl ⟨c, hc, rfl⟩)
      · exact h.fresh ch (senderAlive_of_lookup hl)
  · intro d hd a hl
    rcases hlookup a d.chan hl with ⟨-, e⟩ | hl
    · exact hnodup.1 (e ▸ List.mem_map_of_mem hd)
    · exact h.apart d (hmem d hd) a hl
  · intro a b ch ha hb
    rcases hlookup a ch ha with ⟨rfl, rfl⟩ | ha <;> rcases hlookup b _ hb with ⟨rfl, e⟩ | hb
    · rfl
    · exact absurd hb (h.apart c hc b)
    · exact absurd (e ▸ ha) (h.apart c hc a)
    · exact h.inj a b ch ha hb

/-- No channel has two senders, in any reachable client. -/
theorem oneSender_of_reachable {s : Conn n} (hs : (connMachine n).Reachable s) : s.OneSender := by
  refine Machine.invariant _ (P := OneSender) ?_ ?_ hs
  · refine ⟨?_, List.nodup_nil, fun c hc => (by cases hc), fun a b ch ha => (by cases ha)⟩
    rintro ch (⟨c, hc, -⟩ | ⟨a, ha, -⟩)
    · cases hc
    · cases ha
  · intro s op t h ht
    by_cases hread : ∃ w addr len, op = .readMem w addr len
    · obtain ⟨w, addr, len, rfl⟩ := hread
      exact h.readMem ht
    · by_cases hreg : op = .register
      · subst hreg
        exact h.register ht
      · obtain ⟨hq, hm, hn⟩ := sameSenders_of_step
          (fun w addr len e => hread ⟨w, addr, len, e⟩) hreg ht
        obtain ⟨hfresh, hqueue, hapart, hinj⟩ := h
        unfold SenderAlive at hfresh
        rw [← hq, ← hm, ← hn] at hfresh
        rw [← hq] at hqueue
        rw [← hq, ← hm] at hapart
        rw [← hm] at hinj
        exact ⟨hfresh, hqueue, hapart, hinj⟩

/-- A waiting call whose sender is gone returns `None`. -/
theorem exists_returns_none {s : Conn n} {w : Fin n} {c : Call} (hw : s.workers w = .waiting c)
    (hslot : s.slots c.chan = none) (hdead : ¬ s.SenderAlive c.chan) :
    ∃ t, (connMachine n).exec s [.recv w, .retReadMem w] = some t ∧ (c, none) ∈ t.returned := by
  set u := s.setWorker w (.received c none) with hu
  have hrecv : (connMachine n).step s (.recv w) = some u := by
    simp only [connMachine, Conn.recv, hw, hslot]
    exact if_neg hdead
  have hret : (connMachine n).step u (.retReadMem w) =
      some { u.setWorker w .decoding with returned := s.returned ++ [(c, none)] } := by
    simp only [connMachine, Conn.retReadMem, hu, setWorker_workers_self]
    rfl
  refine ⟨_, (Machine.exec_cons_eq_some _).mpr ⟨u, hrecv, (Machine.exec_cons_eq_some _).mpr
    ⟨_, hret, rfl⟩⟩, ?_⟩
  exact List.mem_append_right _ (List.mem_singleton_self _)

/-- INTERNAL: **a registration in the place of a waiting call** drops the only sender of its
channel.
SRC: client_proc.rs:113-117 -/
theorem register_drops_sender {s t : Conn n} (h : s.OneSender)
    (hover : ¬ s.NoOverwrite .register) (ht : s.register = some t) :
    ∃ w c, t.workers w = .waiting c ∧ t.slots c.chan = none ∧ ¬ t.SenderAlive c.chan := by
  obtain ⟨c, memReq, hq, -, rfl⟩ := register_cases ht
  have hc : c ∈ s.memReq := by
    rw [hq]
    exact List.mem_cons_self
  simp only [NoOverwrite, hq, List.head?_cons, Option.mem_some_iff, forall_eq', not_forall,
    not_not] at hover
  obtain ⟨ch, hl, hslot, w, p, hw, rfl⟩ := hover
  refine ⟨w, p, hw, hslot, ?_⟩
  rintro (⟨d, hd, e⟩ | ⟨a, -, ha⟩)
  · refine h.apart d ?_ c.addr (e ▸ hl)
    rw [hq]
    exact List.mem_cons_of_mem _ hd
  · by_cases e : a = c.addr
    · rw [e, Finmap.lookup_insert] at ha
      exact h.apart c hc c.addr (ha ▸ hl)
    · rw [Finmap.lookup_insert_of_ne _ e] at ha
      exact e (h.inj a c.addr p.chan ha hl)

end Conn

/-! ## The results -/

open Conn

/-- A run in which one worker asks for a page and gets it. -/
def oneRequest (data : Bytes) : List (ConnOp 2) :=
  [.serverReply [], .serverSend (.proc psbPlus), .recvMsg, .recvMsg, .takeCtrl 0,
    .readMem 0 0x1000 0x1000, .register, .sendMemReq, .serverReply data]

/-- A run in which both workers ask for the same page, and the second request is registered while
the first call waits. -/
def samePage : List (ConnOp 2) :=
  [.serverReply [], .serverSend (.proc psbPlus), .serverSend (.proc psbPlus),
    .recvMsg, .recvMsg, .recvMsg, .takeCtrl 0, .takeCtrl 1,
    .readMem 0 0x1000 0x1000, .readMem 1 0x1000 0x1000,
    .register, .sendMemReq, .register]

/-- Only a registration overwrites. -/
theorem noOverwrite_of_ne {n : ℕ} (s : Conn n) {op : ConnOp n} (h : op ≠ .register) :
    s.NoOverwrite op := by
  cases op with
  | register => exact absurd rfl h
  | _ => trivial

/-- A step that overwrites is a registration. -/
theorem eq_register_of_overwrite {n : ℕ} {s : Conn n} {op : ConnOp n} (h : ¬ s.NoOverwrite op) :
    op = .register := by
  by_contra hne
  exact h (noOverwrite_of_ne s hne)

/-- A run without a registration overwrites nothing. -/
theorem meets_of_no_register {n : ℕ} {ops : List (ConnOp n)} (h : .register ∉ ops) (s : Conn n) :
    (connMachine n).Meets NoOverwrite s ops :=
  Machine.meets_of_forall_mem _ (fun s _ hop => noOverwrite_of_ne s (fun e => h (e ▸ hop))) s

/-- A client with one request overwrites nothing. -/
theorem oneRequest_meets (data : Bytes) :
    (connMachine 2).Meets NoOverwrite (connMachine 2).init (oneRequest data) := by
  have hbefore : (connMachine 2).Meets NoOverwrite (connMachine 2).init
      [.serverReply [], .serverSend (.proc psbPlus), .recvMsg, .recvMsg, .takeCtrl 0,
        .readMem 0 0x1000 0x1000] := meets_of_no_register (by simp) _
  have hbehind : ∀ s, (connMachine 2).Meets NoOverwrite s [.sendMemReq, .serverReply data] :=
    meets_of_no_register (by simp)
  refine hbefore.append _ rfl (.cons _ ?_ rfl (hbehind _))
  intro c _ ch hl
  cases hl

/-- MAIN: **every call gets the reply to its own request** in the runs in which no registration
takes the place of a waiting call; and a registration that does makes a call return without a
reply.
SRC: client_proc.rs:32-43, 112-133, 158-166 -/
theorem readMem_gets_own_reply {n : ℕ} {ops : List (ConnOp n)} {s : Conn n}
    (hmeets : (connMachine n).Meets NoOverwrite (connMachine n).init ops)
    (hrun : (connMachine n).exec (connMachine n).init ops = some s) :
    (∀ e ∈ s.returned, s.Answered e.1 e.2) ∧
    (∀ w c r, s.workers w = .waiting c → s.slots c.chan = some r → s.Answered c (some r)) ∧
    (∀ c data, .memRsp c data ∈ s.wireIn →
      (∃ w, s.workers w = .waiting c) ∧ s.memReqLst.lookup c.addr = some c.chan) ∧
    (∀ op t, (connMachine n).step s op = some t → ¬ s.NoOverwrite op →
      ∃ ops' u, (connMachine n).exec t ops' = some u ∧ ∃ e ∈ u.returned, ¬ u.Answered e.1 e.2) := by
  have h := inv_of_exec hmeets hrun
  refine ⟨h.returned, ?_, ?_, ?_⟩
  · exact fun w c r hw hslot => h.answered_of_slot hw hslot
  · intro c data hc
    have hfl : c ∈ s.inFlight := List.mem_append_right _
      (List.mem_append_right _ (List.mem_filterMap.mpr ⟨_, hc, rfl⟩))
    exact ⟨(h.owned c (List.mem_append_right _ hfl)).2, h.registered c hfl⟩
  · intro op t ht hover
    obtain rfl := eq_register_of_overwrite hover
    obtain ⟨w, c, hw, hslot, hdead⟩ :=
      register_drops_sender (oneSender_of_reachable ⟨ops, hrun⟩) hover ht
    obtain ⟨u, hu, hmem⟩ := exists_returns_none hw hslot hdead
    refine ⟨_, u, hu, _, hmem, ?_⟩
    rintro ⟨data, e, -⟩
    cases e

/-- The call of the one request returns the reply. -/
theorem readMem_gets_own_reply_one : ∃ s : Conn 2,
    (connMachine 2).exec (connMachine 2).init
      (oneRequest [7] ++ [.recvMsg, .recv 0, .retReadMem 0]) = some s ∧
      s.returned = [(⟨0, 0x1000, 0x1000⟩, some ⟨[7], some ⟨0, 0x1000, 0x1000⟩⟩)] ∧
      ∀ e ∈ s.returned, s.Answered e.1 e.2 := by
  have hbehind : ∀ s, (connMachine 2).Meets NoOverwrite s [.recvMsg, .recv 0, .retReadMem 0] :=
    meets_of_no_register (by simp)
  exact ⟨_, rfl, rfl,
    (readMem_gets_own_reply ((oneRequest_meets [7]).append _ rfl (hbehind _)) rfl).1⟩

/-- The first call returns without a reply once the second request is registered.
SRC: client_proc.rs:39, 113-117 -/
theorem readMem_returns_without_reply : ¬ ∀ (ops : List (ConnOp 2)) (s : Conn 2),
    (connMachine 2).exec (connMachine 2).init ops = some s →
      ∀ e ∈ s.returned, s.Answered e.1 e.2 := by
  intro h
  obtain ⟨data, e, -⟩ := h (samePage ++ [.recv 0, .retReadMem 0]) _ rfl
    (⟨0, 0x1000, 0x1000⟩, none) (List.mem_singleton_self _)
  cases e

end PtkGenerator

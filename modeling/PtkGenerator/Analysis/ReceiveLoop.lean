import PtkGenerator.Analysis.MemoryReplies

/-!
# The receive loop of a client

A reply that meets a dead channel ends the receive loop.  Where no registration takes the place
of a waiting call the loop is never left (`receive_loop_survives`): the reply at the head of the
wire belongs to a call that waits.

A registration that does take the place of a waiting call puts two requests of one address on
their way, and then the loop can be left: the server answers everything, the loop delivers the
first of the two replies to the second call, that call returns, and the second reply finds its
receiver gone (`exists_loop_ends`).
-/

set_option autoImplicit false

namespace PtkGenerator

namespace Conn

variable {n : ℕ}

/-! ## The server answers everything -/

/-- What the server answers a packet with, when the memory it reads is empty. -/
def reply : ClientPacket → List ServerPacket
  | .regReq id => [.regRsp id]
  | .dataRsp _ => []
  | .memReq c => [.memRsp c []]

/-- Each request on the wire gets the reply to its call. -/
theorem calls_flatMap_reply (wireOut : List ClientPacket) :
    (wireOut.flatMap reply).filterMap ServerPacket.call = wireOut.filterMap ClientPacket.call := by
  induction wireOut with
  | nil => rfl
  | cons p wireOut ih =>
    rw [List.flatMap_cons, List.filterMap_append, ih]
    cases p <;> rfl

/-- The server replies to everything on the wire. -/
theorem exec_serverReply (s : Conn n) : ∃ t,
    (connMachine n).exec s (List.replicate s.wireOut.length (.serverReply [])) = some t ∧
      t.wireIn = s.wireIn ++ s.wireOut.flatMap reply ∧ t.listening = s.listening ∧
      t.workers = s.workers ∧ t.memReqLst = s.memReqLst ∧ t.slots = s.slots := by
  induction hout : s.wireOut generalizing s with
  | nil => exact ⟨s, rfl, by simp, rfl, rfl, rfl, rfl⟩
  | cons p wireOut ih =>
    obtain ⟨u, hstep, hu, hin, hlist, hworkers, hlst, hslots⟩ : ∃ u, s.serverReply [] = some u ∧
        u.wireOut = wireOut ∧ u.wireIn = s.wireIn ++ reply p ∧ u.listening = s.listening ∧
        u.workers = s.workers ∧ u.memReqLst = s.memReqLst ∧ u.slots = s.slots := by
      unfold Conn.serverReply
      rw [hout]
      cases p with
      | regReq id => exact ⟨_, rfl, rfl, rfl, rfl, rfl, rfl, rfl⟩
      | dataRsp data => exact ⟨_, rfl, rfl, (List.append_nil _).symm, rfl, rfl, rfl, rfl⟩
      | memReq c => exact ⟨_, rfl, rfl, rfl, rfl, rfl, rfl, rfl⟩
    obtain ⟨t, hrun, htin, htlist, htworkers, htlst, htslots⟩ := ih u hu
    refine ⟨t, (Machine.exec_cons_eq_some _).mpr ⟨u, hstep, hrun⟩, ?_, htlist.trans hlist,
      htworkers.trans hworkers, htlst.trans hlst, htslots.trans hslots⟩
    rw [htin, hin, List.flatMap_cons, List.append_assoc]

/-! ## The loop takes what it can deliver -/

/-- The channel the receive loop sends a packet to. -/
def target (s : Conn n) : ServerPacket → Option ℕ
  | .memRsp c _ => s.memReqLst.lookup c.addr
  | _ => none

/-- The loop is running, the channels `chs` have a reply each, and the other ones, the map and
the workers are as before. -/
structure Delivers (s t : Conn n) (chs : List ℕ) : Prop where
  listening : t.listening = true
  workers : t.workers = s.workers
  memReqLst : t.memReqLst = s.memReqLst
  filled : ∀ ch ∈ chs, (t.slots ch).isSome
  others : ∀ ch, ch ∉ chs → t.slots ch = s.slots ch

/-- Deliveries one after the other deliver to all the channels. -/
theorem Delivers.trans {s t u : Conn n} {chs chs' : List ℕ} (h : Delivers s t chs)
    (h' : Delivers t u chs') : Delivers s u (chs ++ chs') := by
  refine ⟨h'.listening, h'.workers.trans h.workers, h'.memReqLst.trans h.memReqLst, ?_, ?_⟩
  · intro ch hch
    by_cases hmem : ch ∈ chs'
    · exact h'.filled ch hmem
    · rw [h'.others ch hmem]
      exact h.filled ch ((List.mem_append.mp hch).resolve_right hmem)
  · intro ch hch
    rw [List.mem_append, not_or] at hch
    rw [h'.others ch hch.2, h.others ch hch.1]

/-- The loop receives the first packet when its channel can take the reply. -/
theorem exists_recvMsg {s : Conn n} {p : ServerPacket} {wireIn : List ServerPacket}
    (hlist : s.listening = true) (hin : s.wireIn = p :: wireIn)
    (hready : ∀ ch ∈ s.target p, s.ReceiverAlive ch ∧ s.slots ch = none) :
    ∃ t, s.recvMsg = some t ∧ t.wireIn = wireIn ∧ Delivers s t (s.target p).toList := by
  rw [recvMsg_cons hlist hin]
  cases p with
  | regRsp id =>
    exact ⟨_, rfl, rfl, hlist, rfl, rfl, fun ch hch => (by cases hch), fun _ _ => rfl⟩
  | init =>
    exact ⟨_, rfl, rfl, hlist, rfl, rfl, fun ch hch => (by cases hch), fun _ _ => rfl⟩
  | dataReq data =>
    exact ⟨_, rfl, rfl, hlist, rfl, rfl, fun ch hch => (by cases hch), fun _ _ => rfl⟩
  | memRsp c data =>
    unfold target at hready ⊢
    simp only [handleMsg, ServerPacket.msg, ServerPacket.call]
    cases hl : s.memReqLst.lookup c.addr with
    | none => exact ⟨_, rfl, rfl, hlist, rfl, rfl, fun ch hch => (by cases hch), fun _ _ => rfl⟩
    | some ch =>
      obtain ⟨halive, hslot⟩ := hready ch hl
      have halive' : ReceiverAlive { s with wireIn } ch := halive
      simp only [Conn.deliver, if_pos halive', hslot]
      refine ⟨_, rfl, rfl, hlist, rfl, rfl, ?_, ?_⟩
      · intro ch' hch'
        rw [List.mem_singleton.mp hch']
        change (Function.update s.slots ch _ ch).isSome = true
        rw [Function.update_self]
        rfl
      · intro ch' hch'
        exact Function.update_of_ne (fun e => hch' (List.mem_singleton.mpr e)) _ _

/-- The loop receives packets when their channels can take the replies. -/
theorem exec_recvMsg {s : Conn n} {packets wireIn : List ServerPacket} (hlist : s.listening = true)
    (hin : s.wireIn = packets ++ wireIn) (hnodup : (packets.filterMap s.target).Nodup)
    (hready : ∀ ch ∈ packets.filterMap s.target, s.ReceiverAlive ch ∧ s.slots ch = none) :
    ∃ t, (connMachine n).exec s (List.replicate packets.length .recvMsg) = some t ∧
      t.wireIn = wireIn ∧ Delivers s t (packets.filterMap s.target) := by
  induction packets generalizing s with
  | nil => exact ⟨s, rfl, hin, hlist, rfl, rfl, fun ch hch => (by cases hch), fun _ _ => rfl⟩
  | cons p packets ih =>
    have hsplit : (p :: packets).filterMap s.target =
        (s.target p).toList ++ packets.filterMap s.target := by
      rw [List.filterMap_cons]
      cases s.target p <;> rfl
    rw [hsplit] at hnodup hready ⊢
    rw [List.nodup_append] at hnodup
    obtain ⟨u, hstep, huin, hdel⟩ := exists_recvMsg hlist hin
      (fun ch hch => hready ch (List.mem_append_left _ (Option.mem_toList.mpr hch)))
    have htarget : u.target = s.target := by
      funext q
      unfold target
      rw [hdel.memReqLst]
    have hready' : ∀ ch ∈ packets.filterMap u.target, u.ReceiverAlive ch ∧ u.slots ch = none := by
      intro ch hch
      rw [htarget] at hch
      obtain ⟨halive, hslot⟩ := hready ch (List.mem_append_right _ hch)
      unfold ReceiverAlive at halive ⊢
      rw [hdel.workers]
      refine ⟨halive, ?_⟩
      rw [hdel.others ch (fun hmem => hnodup.2.2 ch hmem ch hch rfl)]
      exact hslot
    obtain ⟨t, hrun, htin, hdel'⟩ := ih hdel.listening huin (htarget ▸ hnodup.2.1) hready'
    rw [htarget] at hdel'
    exact ⟨t, (Machine.exec_cons_eq_some _).mpr ⟨u, hstep, hrun⟩, htin, hdel.trans hdel'⟩

/-! ## The second reply -/

/-- A worker whose reply has come receives it and returns. -/
theorem exec_recv_retReadMem {s : Conn n} {w : Fin n} {c : Call} (hw : s.workers w = .waiting c)
    (hslot : (s.slots c.chan).isSome) : ∃ t,
      (connMachine n).exec s [.recv w, .retReadMem w] = some t ∧ t.wireIn = s.wireIn ∧
      t.listening = s.listening ∧ t.memReqLst = s.memReqLst ∧ (t.workers w).call = none ∧
      ∀ w', w' ≠ w → t.workers w' = s.workers w' := by
  obtain ⟨r, hr⟩ := Option.isSome_iff_exists.mp hslot
  set u : Conn n := { s.setWorker w (.received c (some r)) with
    slots := Function.update s.slots c.chan none } with hu
  have hrecv : (connMachine n).step s (.recv w) = some u := by
    simp only [connMachine, Conn.recv, hw, hr, hu]
  have huw : u.workers w = .received c (some r) := setWorker_workers_self s w _
  have hret : (connMachine n).step u (.retReadMem w) =
      some { u.setWorker w .decoding with returned := s.returned ++ [(c, some r)] } := by
    simp only [connMachine, Conn.retReadMem, huw]
    rfl
  refine ⟨_, (Machine.exec_cons_eq_some _).mpr ⟨u, hrecv, (Machine.exec_cons_eq_some _).mpr
    ⟨_, hret, rfl⟩⟩, rfl, rfl, rfl, ?_, ?_⟩
  · change ((u.setWorker w .decoding).workers w).call = none
    rw [setWorker_workers_self]
    rfl
  · intro w' hne
    exact (setWorker_workers_of_ne u hne _).trans (setWorker_workers_of_ne s hne _)

/-- A reply to a channel without a receiver ends the loop. -/
theorem recvMsg_dead {s : Conn n} {c : Call} {data : Bytes} {wireIn : List ServerPacket}
    (hlist : s.listening = true) (hin : s.wireIn = .memRsp c data :: wireIn)
    (hl : s.memReqLst.lookup c.addr = some c.chan) (hdead : ¬ s.ReceiverAlive c.chan) :
    ∃ t, (connMachine n).step s .recvMsg = some t ∧ t.listening = false := by
  have hdead' : ¬ ReceiverAlive { s with wireIn } c.chan := hdead
  refine ⟨{ s with wireIn, listening := false }, ?_, rfl⟩
  change s.recvMsg = _
  rw [recvMsg_cons hlist hin]
  simp only [handleMsg, ServerPacket.msg, ServerPacket.call, hl, Conn.deliver, if_neg hdead']

/-- The packets go to the channels that are registered for their calls. -/
theorem filterMap_target {s : Conn n} {packets : List ServerPacket} {f : Call → ℕ}
    (h : ∀ c ∈ packets.filterMap ServerPacket.call, s.memReqLst.lookup c.addr = some (f c)) :
    packets.filterMap s.target = (packets.filterMap ServerPacket.call).map f := by
  rw [List.map_filterMap]
  refine List.filterMap_congr fun p hp => ?_
  cases p with
  | memRsp c data => exact h c (List.mem_filterMap.mpr ⟨_, hp, rfl⟩)
  | _ => rfl

/-! ## Two requests of one address -/

/-- The request of `c` is registered next, while the one of `p` for the same address is on its
way. -/
structure Overwrites (s : Conn n) (c p : Call) : Prop where
  queued : c ∈ s.memReq
  notInFlight : c ∉ s.inFlight
  inFlight : p ∈ s.inFlight
  addr : p.addr = c.addr

/-- A registration that overwrites takes the channel of a call that is in flight. -/
theorem overwrites_of_register {s t : Conn n} (h : s.Inv) (hone : s.OneSender)
    (hover : ¬ s.NoOverwrite .register) (ht : s.register = some t) :
    ∃ c memReq p, s.Overwrites c p ∧ s.forward = none ∧ t = { s with
      memReq, forward := some c, memReqLst := s.memReqLst.insert c.addr c.chan } := by
  obtain ⟨c, memReq, hq, hf, ht⟩ := register_cases ht
  simp only [NoOverwrite, hq, List.head?_cons, Option.mem_some_iff, forall_eq', not_forall,
    not_not] at hover
  obtain ⟨ch, hl, hslot, w, p, hw, rfl⟩ := hover
  have hc : c ∈ s.memReq := by
    rw [hq]
    exact List.mem_cons_self
  have hp : p ∈ s.inFlight := by
    refine (List.mem_append.mp (h.senderAlive hw hslot).1).resolve_left fun hmem => ?_
    exact hone.apart p hmem c.addr hl
  refine ⟨c, memReq, p, ⟨hc, ?_, hp, hone.inj _ _ _ (h.registered p hp) hl⟩, hf, ht⟩
  exact fun hmem => (List.nodup_append.mp h.nodup).2.2 c hc c hmem rfl

/-- Where the reply for a request goes once `c` is registered. -/
def replyChan (c p d : Call) : ℕ := if d = p then c.chan else d.chan

namespace Overwrites

variable {s : Conn n} {c p d : Call}

/-- Behind the registration each call in flight has the channel of its address. -/
theorem lookup (ho : s.Overwrites c p) (h : s.Inv) (hd : d ∈ s.inFlight) :
    (s.memReqLst.insert c.addr c.chan).lookup d.addr = some (replyChan c p d) := by
  have hdl := h.registered d hd
  unfold replyChan
  by_cases e : d = p
  · rw [if_pos e, e, ho.addr, Finmap.lookup_insert]
  · have hne : d.addr ≠ c.addr := by
      intro ea
      have hpl := h.registered p ho.inFlight
      rw [ho.addr, ← ea, hdl] at hpl
      obtain ⟨-, w, hw⟩ := h.owned d (List.mem_append_right _ hd)
      obtain ⟨-, w', hw'⟩ := h.owned p (List.mem_append_right _ ho.inFlight)
      exact e (h.eq_of_chan_eq hw hw' (Option.some.inj hpl))
    rw [if_neg e, Finmap.lookup_insert_of_ne _ hne, hdl]

/-- The channel for each call in flight is that of a call that waits. -/
theorem pending (ho : s.Overwrites c p) (hd : d ∈ s.inFlight) :
    ∃ e ∈ s.pending, replyChan c p d = e.chan ∧ (e = c ↔ d = p) := by
  unfold replyChan
  by_cases e : d = p
  · exact ⟨c, List.mem_append_left _ ho.queued, if_pos e, iff_of_true rfl e⟩
  · refine ⟨d, List.mem_append_right _ hd, if_neg e, iff_of_false ?_ e⟩
    rintro rfl
    exact ho.notInFlight hd

/-- The channel for each call in flight can take a reply. -/
theorem ready (ho : s.Overwrites c p) (h : s.Inv) (hd : d ∈ s.inFlight) :
    s.ReceiverAlive (replyChan c p d) ∧ s.slots (replyChan c p d) = none := by
  obtain ⟨e, he, hch, -⟩ := ho.pending hd
  obtain ⟨hslot, w, hw⟩ := h.owned e he
  rw [hch]
  exact ⟨⟨w, by rw [hw]; rfl⟩, hslot⟩

/-- Two calls in flight are replied to on two channels. -/
theorem replyChan_inj (ho : s.Overwrites c p) (h : s.Inv) {d' : Call} (hd : d ∈ s.inFlight)
    (hd' : d' ∈ s.inFlight) (heq : replyChan c p d = replyChan c p d') : d = d' := by
  have hchan : ∀ e e', e ∈ s.pending → e' ∈ s.pending → e.chan = e'.chan → e = e' := by
    intro e e' he he' hch
    obtain ⟨-, w, hw⟩ := h.owned e he
    obtain ⟨-, w', hw'⟩ := h.owned e' he'
    exact h.eq_of_chan_eq hw hw' hch
  unfold replyChan at heq
  by_cases e : d = p <;> by_cases e' : d' = p
  · rw [e, e']
  · rw [if_pos e, if_neg e'] at heq
    have := hchan c d' (List.mem_append_left _ ho.queued) (List.mem_append_right _ hd') heq
    exact absurd (this ▸ hd') ho.notInFlight
  · rw [if_neg e, if_pos e'] at heq
    have := hchan d c (List.mem_append_right _ hd) (List.mem_append_left _ ho.queued) heq
    exact absurd (this ▸ hd) ho.notInFlight
  · rw [if_neg e, if_neg e'] at heq
    exact hchan d d' (List.mem_append_right _ hd) (List.mem_append_right _ hd') heq

end Overwrites

/-- INTERNAL: **a registration in the place of a waiting call** can end the receive loop: all
replies on their way are delivered, the earlier reply for the address to the second call, and the
second reply comes when that call has returned.
SRC: client_proc.rs:112-133, 158-166 -/
theorem exists_loop_ends {s t : Conn n} (h : s.Inv) (hone : s.OneSender)
    (hover : ¬ s.NoOverwrite .register) (ht : s.register = some t) :
    ∃ ops u, (connMachine n).exec t ops = some u ∧ u.listening = false := by
  obtain ⟨c, memReq, p, ho, hf, ht⟩ := overwrites_of_register h hone hover ht
  obtain ⟨-, w, hw⟩ := h.owned c (List.mem_append_left _ ho.queued)
  -- the request is sent, and the server answers everything
  set t₁ : Conn n := { t with forward := none, wireOut := t.wireOut ++ [.memReq c] } with ht₁
  have hsend : (connMachine n).step t .sendMemReq = some t₁ := by
    rw [ht₁, ht]
    rfl
  obtain ⟨t₂, hrun₂, hin₂, hlist₂, hworkers₂, hlst₂, hslots₂⟩ := exec_serverReply t₁
  rw [ht₁, ht] at hin₂ hlist₂ hworkers₂ hlst₂ hslots₂
  dsimp only at hin₂ hlist₂ hworkers₂ hlst₂ hslots₂
  set packets := s.wireIn ++ s.wireOut.flatMap reply with hpackets
  rw [List.flatMap_append, ← List.append_assoc, ← hpackets] at hin₂
  have hcalls : (packets.filterMap ServerPacket.call).Perm s.inFlight := by
    rw [hpackets, List.filterMap_append, calls_flatMap_reply]
    unfold inFlight
    rw [hf]
    exact List.perm_append_comm
  have htarget : packets.filterMap t₂.target =
      (packets.filterMap ServerPacket.call).map (replyChan c p) := by
    refine filterMap_target fun d hd => ?_
    rw [hlst₂]
    exact ho.lookup h (hcalls.mem_iff.mp hd)
  -- the loop takes all replies but the last
  have hnodup : (packets.filterMap t₂.target).Nodup := by
    rw [htarget]
    refine List.Nodup.map_on (fun d hd d' hd' => ?_) (hcalls.nodup_iff.mpr ?_)
    · exact ho.replyChan_inj h (hcalls.mem_iff.mp hd) (hcalls.mem_iff.mp hd')
    · exact (List.nodup_append.mp h.nodup).2.1
  have hready : ∀ ch ∈ packets.filterMap t₂.target,
      t₂.ReceiverAlive ch ∧ t₂.slots ch = none := by
    intro ch hch
    rw [htarget] at hch
    obtain ⟨d, hd, rfl⟩ := List.mem_map.mp hch
    unfold ReceiverAlive
    rw [hworkers₂, hslots₂]
    exact ho.ready h (hcalls.mem_iff.mp hd)
  obtain ⟨t₃, hrun₃, hin₃, hdel⟩ := exec_recvMsg (hlist₂.trans h.listening) hin₂ hnodup hready
  -- the second call receives the reply to the first one and returns
  have hw₃ : t₃.workers w = .waiting c := by rw [hdel.workers, hworkers₂, hw]
  have hslot₃ : (t₃.slots c.chan).isSome := by
    refine hdel.filled _ ?_
    rw [htarget]
    refine List.mem_map.mpr ⟨p, hcalls.mem_iff.mpr ho.inFlight, if_pos rfl⟩
  obtain ⟨t₄, hrun₄, hin₄, hlist₄, hlst₄, hcall₄, hothers₄⟩ := exec_recv_retReadMem hw₃ hslot₃
  have hdead : ¬ t₄.ReceiverAlive c.chan := by
    rintro ⟨w', hw'⟩
    obtain ⟨d, hd, hch⟩ := Option.map_eq_some_iff.mp hw'
    have hne : w' ≠ w := by
      rintro rfl
      rw [hcall₄] at hd
      cases hd
    rw [hothers₄ w' hne, hdel.workers, hworkers₂] at hd
    exact hne (h.distinct w' w d c hd (by rw [hw]; rfl) hch)
  have hlookup₄ : t₄.memReqLst.lookup c.addr = some c.chan := by
    rw [hlst₄, hdel.memReqLst, hlst₂, Finmap.lookup_insert]
  obtain ⟨u, hstep, hu⟩ := recvMsg_dead (hlist₄.trans hdel.listening) (hin₄.trans hin₃)
    hlookup₄ hdead
  have hrun : (connMachine n).exec t (.sendMemReq :: (_ ++ (_ ++ (_ ++ [.recvMsg])))) = some u :=
    (Machine.exec_cons_eq_some _).mpr ⟨t₁, hsend, (Machine.exec_append _).mpr
      ⟨t₂, hrun₂, (Machine.exec_append _).mpr ⟨t₃, hrun₃, (Machine.exec_append _).mpr
        ⟨t₄, hrun₄, (Machine.exec_cons_eq_some _).mpr ⟨u, hstep, rfl⟩⟩⟩⟩⟩
  exact ⟨_, u, hrun, hu⟩

end Conn

/-! ## The results -/

open Conn

/-- MAIN: **the receive loop survives the replies** in the runs in which no registration takes the
place of a waiting call: it is running, and the next reply is taken from the wire with the loop
still running.  A registration that does can end it.
SRC: client_proc.rs:143-171 -/
theorem receive_loop_survives {n : ℕ} {ops : List (ConnOp n)} {s : Conn n}
    (hmeets : (connMachine n).Meets NoOverwrite (connMachine n).init ops)
    (hrun : (connMachine n).exec (connMachine n).init ops = some s) :
    s.listening = true ∧
    (∀ c data wireIn, s.wireIn = .memRsp c data :: wireIn →
      ∃ t, (connMachine n).step s .recvMsg = some t ∧ t.listening = true ∧ t.wireIn = wireIn) ∧
    (∀ op t, (connMachine n).step s op = some t → ¬ s.NoOverwrite op →
      ∃ ops' u, (connMachine n).exec t ops' = some u ∧ u.listening = false) := by
  have h := inv_of_exec hmeets hrun
  refine ⟨h.listening, fun c data wireIn hin => ⟨_, h.recvMsg_memRsp hin, h.listening, rfl⟩, ?_⟩
  intro op t ht hover
  obtain rfl := eq_register_of_overwrite hover
  exact exists_loop_ends h (oneSender_of_reachable ⟨ops, hrun⟩) hover ht

/-- The loop takes the reply of the one request and is still running. -/
theorem receive_loop_survives_one : ∃ s t : Conn 2,
    (connMachine 2).exec (connMachine 2).init (oneRequest [7]) = some s ∧
      (connMachine 2).step s .recvMsg = some t ∧ t.listening = true := by
  obtain ⟨-, h, -⟩ := receive_loop_survives (oneRequest_meets [7]) rfl
  obtain ⟨t, ht, hlist, -⟩ := h ⟨0, 0x1000, 0x1000⟩ [7] [] rfl
  exact ⟨_, t, rfl, ht, hlist⟩

/-- Both requests of one page are answered; the first reply goes to the second call, and the second
reply meets a channel whose receiver is gone. -/
def lateReply (data : Bytes) : List (ConnOp 2) :=
  samePage ++ [.sendMemReq, .serverReply data, .serverReply data, .recvMsg, .recv 1,
    .retReadMem 1, .recvMsg]

/-- The receive loop ends by a reply to a request of this client.
SRC: client_proc.rs:158-166 -/
theorem receive_loop_ends : ¬ ∀ (ops : List (ConnOp 2)) (s : Conn 2),
    (connMachine 2).exec (connMachine 2).init ops = some s → s.listening = true := by
  intro h
  have hend := h (lateReply (List.replicate 8192 0)) _ rfl
  cases hend

end PtkGenerator

import PtkGenerator.Analysis.MemoryReplies
import PtkGenerator.Analysis.RemoteDecode

/-!
# The calls over the connection

The reader of `async_decode` is modelled as one step, with the reply of the agent at hand.  Over the
connection a call of `read_mem` is a request that is queued, registered, sent, answered, received
and delivered, with the calls of the other workers in between.  A registration can take the place of
a waiting call of the same address; it never brings the reply for one address to a call for another
(`Routed`).  As the cacher asks for whole pages only, a call then either returns without a reply and
leaves its buffer as it was, or gets what the agent has read at its address, and does with its
buffer what the reader does: it gives the memory back.
-/

set_option autoImplicit false

namespace PtkGenerator

variable {n : ℕ} {T : Target} {len : Usize}

namespace Conn

/-- The workers ask for `len` bytes at a time, which the buffer of the agent has room for, and the
server answers a request as its agent does. -/
def Serves (T : Target) (len : Usize) (s : Conn n) : ConnOp n → Prop
  | .readMem _ _ size => size = len ∧ size.toNat ≤ 8192
  | .serverReply data =>
    ∀ c, s.wireOut.head? = some (.memReq c) → data = memReqArm T c.addr c.len.toNat
  | _ => True

/-- Every request is one for `len` bytes, and was answered with what the agent has read. -/
structure Served (T : Target) (len : Usize) (s : Conn n) : Prop where
  asked : ∀ c ∈ s.pending, c.len = len
  answered : ∀ e ∈ s.answered, e.2 = memReqArm T e.1.addr len.toNat

/-- No step but the one of a call makes a request. -/
theorem pending_of_step {s t : Conn n} {op : ConnOp n}
    (hop : ∀ w addr size, op ≠ .readMem w addr size) (ht : (connMachine n).step s op = some t) :
    ∀ c ∈ t.pending, c ∈ s.pending := by
  intro c hc
  cases op with
  | readMem w addr size => exact absurd rfl (hop w addr size)
  | takeCtrl w =>
    obtain ⟨-, ⟨ctrl, -, rfl⟩ | ⟨data, ctrl, -, rfl⟩ | ⟨-, -, rfl⟩⟩ := takeCtrl_cases ht
    · exact hc
    · exact hc
    · exact hc
  | recv w =>
    obtain ⟨d, -, ⟨r, -, rfl⟩ | ⟨-, -, rfl⟩⟩ := recv_cases ht
    · exact hc
    · exact hc
  | retReadMem w =>
    obtain ⟨d, rst, -, rfl⟩ := retReadMem_cases ht
    exact hc
  | sendDataRsp w data =>
    obtain ⟨-, rfl⟩ := sendDataRsp_cases ht
    simpa [pending, inFlight, Conn.setWorker, List.filterMap_cons, ClientPacket.call] using hc
  | dropDataRsp w =>
    obtain ⟨-, rfl⟩ := dropDataRsp_cases ht
    exact hc
  | register =>
    obtain ⟨d, memReq, hreq, hforward, rfl⟩ := register_cases ht
    simp only [pending, inFlight, hreq, hforward, Option.toList_some, Option.toList_none,
      List.mem_append, List.mem_cons] at hc ⊢
    tauto
  | sendMemReq =>
    obtain ⟨d, hforward, rfl⟩ := sendMemReq_cases ht
    simp only [pending, inFlight, hforward, Option.toList_some, Option.toList_none,
      List.filterMap_append, List.filterMap_cons, List.filterMap_nil, ClientPacket.call,
      List.mem_append, List.mem_cons] at hc ⊢
    tauto
  | recvMsg =>
    obtain ⟨p, wireIn, hwire, ⟨ctrl, listening, rfl⟩ | ⟨d, data, ch, rfl, -, rfl⟩⟩ :=
      recvMsg_cases ht
    all_goals
      simp only [pending, inFlight, hwire, List.mem_append, List.mem_filterMap] at hc ⊢
      grind
  | serverReply data =>
    obtain ⟨id, wireOut, hout, rfl⟩ | ⟨msg, wireOut, hout, rfl⟩ | ⟨d, wireOut, hout, rfl⟩ :=
      serverReply_cases ht
    all_goals
      simp only [pending, inFlight, hout, List.filterMap_append, List.filterMap_cons,
        List.filterMap_nil, ClientPacket.call, ServerPacket.call, List.mem_append,
        List.mem_cons] at hc ⊢
      tauto
  | serverSend ctrl =>
    obtain rfl := Option.some.inj ht
    cases ctrl <;>
      simpa [pending, inFlight, Conn.serverSend, List.filterMap_cons, ServerPacket.call] using hc

/-- The server answers, and nobody else. -/
theorem answered_of_step {s t : Conn n} {op : ConnOp n} (hop : ∀ data, op ≠ .serverReply data)
    (ht : (connMachine n).step s op = some t) : t.answered = s.answered := by
  cases op with
  | serverReply data => exact absurd rfl (hop data)
  | takeCtrl w =>
    obtain ⟨-, ⟨ctrl, -, rfl⟩ | ⟨data, ctrl, -, rfl⟩ | ⟨-, -, rfl⟩⟩ := takeCtrl_cases ht
    · rfl
    · rfl
    · rfl
  | readMem w addr size =>
    obtain ⟨-, rfl⟩ := readMem_cases ht
    rfl
  | recv w =>
    obtain ⟨c, -, ⟨r, -, rfl⟩ | ⟨-, -, rfl⟩⟩ := recv_cases ht
    · rfl
    · rfl
  | retReadMem w =>
    obtain ⟨c, rst, -, rfl⟩ := retReadMem_cases ht
    rfl
  | sendDataRsp w data =>
    obtain ⟨-, rfl⟩ := sendDataRsp_cases ht
    rfl
  | dropDataRsp w =>
    obtain ⟨-, rfl⟩ := dropDataRsp_cases ht
    rfl
  | register =>
    obtain ⟨c, memReq, -, -, rfl⟩ := register_cases ht
    rfl
  | sendMemReq =>
    obtain ⟨c, -, rfl⟩ := sendMemReq_cases ht
    rfl
  | recvMsg =>
    obtain ⟨p, wireIn, -, ⟨ctrl, listening, rfl⟩ | ⟨c, data, ch, -, -, rfl⟩⟩ := recvMsg_cases ht
    · rfl
    · rfl
  | serverSend ctrl =>
    obtain rfl := Option.some.inj ht
    cases ctrl <;> rfl

/-- INTERNAL: a request is for `len` bytes, and an answer is one more reading of the target.
SRC: client_agent.rs:125-138 -/
theorem Served.step {s t : Conn n} {op : ConnOp n} (h : s.Served T len) (hop : s.Serves T len op)
    (ht : (connMachine n).step s op = some t) : t.Served T len := by
  cases op with
  | readMem w addr size =>
    obtain ⟨-, rfl⟩ := readMem_cases ht
    refine ⟨fun c hc => ?_, h.answered⟩
    rw [pending, List.append_assoc, List.mem_append, List.mem_append, List.mem_singleton] at hc
    rcases hc with hold | rfl | hold
    · exact h.asked c (List.mem_append_left _ hold)
    · exact hop.1
    · exact h.asked c (List.mem_append_right _ hold)
  | serverReply data =>
    have hasked := pending_of_step (by simp) ht
    refine ⟨fun c hc => h.asked c (hasked c hc), ?_⟩
    obtain ⟨id, wireOut, -, rfl⟩ | ⟨msg, wireOut, -, rfl⟩ | ⟨c, wireOut, hwire, rfl⟩ :=
      serverReply_cases ht
    · exact h.answered
    · exact h.answered
    · have hlen : c.len = len := by
        apply h.asked
        simp [pending, inFlight, hwire, ClientPacket.call]
      intro e he
      rcases List.mem_append.mp he with hold | hnew
      · exact h.answered e hold
      · rw [List.mem_singleton.mp hnew, ← hlen]
        exact hop c (by rw [hwire]; rfl)
  | _ =>
    refine ⟨fun c hc => h.asked c (pending_of_step (by simp) ht c hc), ?_⟩
    rw [answered_of_step (by simp) ht]
    exact h.answered

/-! ## The address of a channel -/

/-- The reply answers a request for the address. -/
def AnswersAt (s : Conn n) (addr : Usize) (r : Reply) : Prop :=
  ∃ c data, r = ⟨data, some c⟩ ∧ c.addr = addr ∧ (c, data) ∈ s.answered

/-- Every channel is one of the calls for an address, `addrOf`: the requests and the entries of the
map keep to it, and what is delivered to a channel answers a request for its address. -/
structure Routed (addrOf : ℕ → Usize) (s : Conn n) : Prop where
  queued : ∀ c ∈ s.memReq, c.chan < s.nextChan ∧ addrOf c.chan = c.addr
  called : ∀ w c, (s.workers w).call = some c → c.chan < s.nextChan ∧ addrOf c.chan = c.addr
  registered : ∀ addr ch, s.memReqLst.lookup addr = some ch → ch < s.nextChan ∧ addrOf ch = addr
  delivered : ∀ ch r, s.slots ch = some r → ch < s.nextChan ∧ s.AnswersAt (addrOf ch) r
  received : ∀ w c r, s.workers w = .received c (some r) → s.AnswersAt c.addr r
  returned : ∀ c r, (c, some r) ∈ s.returned → s.AnswersAt c.addr r
  replies : ∀ c data, .memRsp c data ∈ s.wireIn → (c, data) ∈ s.answered

/-- In the beginning no channel has been made. -/
theorem Routed.init : (connMachine n).init.Routed fun _ => 0 where
  queued := fun c hc => (by cases hc)
  called := fun w c hc => (by cases hc)
  registered := fun addr ch hch => (by cases hch)
  delivered := fun ch r hr => (by cases hr)
  received := fun w c r hr => (by cases hr)
  returned := fun c r hr => (by cases hr)
  replies := fun c data hc => (by cases hc)

variable {addrOf : ℕ → Usize}

/-- A reply to an address stays one. -/
theorem AnswersAt.mono {s t : Conn n} (h : ∀ e ∈ s.answered, e ∈ t.answered) {addr : Usize}
    {r : Reply} (ha : s.AnswersAt addr r) : t.AnswersAt addr r := by
  obtain ⟨c, data, hr, hc, hm⟩ := ha
  exact ⟨c, data, hr, hc, h _ hm⟩

/-- A worker goes on in the call it is in, or in none. -/
theorem Routed.setWorker {s : Conn n} (h : s.Routed addrOf) {w : Fin n} {p : WorkerPhase}
    (hcall : ∀ c, p.call = some c → (s.workers w).call = some c)
    (hreceived : ∀ c r, p = .received c (some r) → s.AnswersAt c.addr r) :
    (s.setWorker w p).Routed addrOf := by
  refine ⟨h.queued, ?_, h.registered, h.delivered, ?_, h.returned, h.replies⟩
  · intro w' c hc
    rcases call_of_setWorker hc with ⟨-, hp⟩ | ⟨-, hold⟩
    · exact h.called w c (hcall c hp)
    · exact h.called w' c hold
  · intro w' c r hr
    rcases eq_or_of_setWorker hr with ⟨-, hp⟩ | ⟨-, hold⟩
    · exact hreceived c r hp
    · exact h.received w' c r hold

/-- INTERNAL: **a call begins** and its channel gets its address.
SRC: client_proc.rs:32-38 -/
theorem Routed.readMem {s t : Conn n} {w : Fin n} {addr size : Usize} (h : s.Routed addrOf)
    (ht : s.readMem w addr size = some t) :
    t.Routed (Function.update addrOf s.nextChan addr) := by
  obtain ⟨-, rfl⟩ := readMem_cases ht
  -- the channels in use keep their address
  have hkept : ∀ ch addr', ch < s.nextChan ∧ addrOf ch = addr' →
      ch < s.nextChan + 1 ∧ Function.update addrOf s.nextChan addr ch = addr' := by
    rintro ch addr' ⟨hlt, haddr⟩
    exact ⟨Nat.lt_succ_of_lt hlt, (Function.update_of_ne hlt.ne _ _).trans haddr⟩
  have hnew : s.nextChan < s.nextChan + 1 ∧
      Function.update addrOf s.nextChan addr s.nextChan = addr :=
    ⟨Nat.lt_succ_self _, Function.update_self ..⟩
  refine ⟨?_, ?_, fun a ch hch => hkept ch a (h.registered a ch hch), ?_, ?_, h.returned,
    h.replies⟩
  · intro c hc
    rcases List.mem_append.mp hc with hold | hc
    · exact hkept c.chan c.addr (h.queued c hold)
    · rw [List.mem_singleton.mp hc]
      exact hnew
  · intro w' c hc
    rcases call_of_setWorker hc with ⟨-, hp⟩ | ⟨-, hold⟩
    · obtain rfl := Option.some.inj hp
      exact hnew
    · exact hkept c.chan c.addr (h.called w' c hold)
  · intro ch r hr
    obtain ⟨hlt, hanswers⟩ := h.delivered ch r hr
    obtain ⟨hlt', haddr⟩ := hkept ch _ ⟨hlt, rfl⟩
    rw [haddr]
    exact ⟨hlt', hanswers⟩
  · intro w' c r hr
    rcases eq_or_of_setWorker hr with ⟨-, hp⟩ | ⟨-, hold⟩
    · cases hp
    · exact h.received w' c r hold

/-- INTERNAL: **a call receives** what is in its channel, or nothing.
SRC: client_proc.rs:39 -/
theorem Routed.recv {s t : Conn n} {w : Fin n} (h : s.Routed addrOf) (ht : s.recv w = some t) :
    t.Routed addrOf := by
  obtain ⟨c, hw, hcases⟩ := recv_cases ht
  have hcall : ∀ rst d, (WorkerPhase.received c rst).call = some d →
      (s.workers w).call = some d := by
    intro rst d hd
    rw [hw]
    exact hd
  rcases hcases with ⟨r, hslot, rfl⟩ | ⟨-, -, rfl⟩
  · have hr : s.AnswersAt c.addr r := by
      rw [← (h.called w c (by rw [hw]; rfl)).2]
      exact (h.delivered c.chan r hslot).2
    have h' := h.setWorker (p := .received c (some r)) (hcall _) (by
      rintro d r' ⟨⟩
      exact hr)
    refine ⟨h'.queued, h'.called, h'.registered, ?_, h'.received, h'.returned, h'.replies⟩
    intro ch r' hr'
    change Function.update s.slots c.chan none ch = some r' at hr'
    rcases eq_or_ne ch c.chan with rfl | hne
    · rw [Function.update_self] at hr'
      cases hr'
    · rw [Function.update_of_ne hne] at hr'
      exact h.delivered ch r' hr'
  · exact h.setWorker (hcall _) (by rintro d r ⟨⟩)

/-- The return of a read changes no channel. -/
theorem Routed.retReadMem {s t : Conn n} {w : Fin n} (h : s.Routed addrOf)
    (ht : s.retReadMem w = some t) : t.Routed addrOf := by
  obtain ⟨c, rst, hw, rfl⟩ := retReadMem_cases ht
  have h' := h.setWorker (w := w) (p := .decoding) (by rintro d ⟨⟩) (by rintro d r ⟨⟩)
  refine ⟨h'.queued, h'.called, h'.registered, h'.delivered, h'.received, ?_, h'.replies⟩
  intro d r hd
  rcases List.mem_append.mp hd with hold | hd
  · exact h.returned d r hold
  · obtain ⟨rfl, rfl⟩ := Prod.mk.inj (List.mem_singleton.mp hd)
    exact h.received w d r hw

/-- INTERNAL: **a registration** puts a channel under its own address, whatever was there.
SRC: client_proc.rs:113-117 -/
theorem Routed.register {s t : Conn n} (h : s.Routed addrOf) (ht : s.register = some t) :
    t.Routed addrOf := by
  obtain ⟨c, memReq, hq, -, rfl⟩ := register_cases ht
  refine ⟨?_, h.called, ?_, h.delivered, h.received, h.returned, h.replies⟩
  · intro d hd
    exact h.queued d (hq ▸ List.mem_cons_of_mem _ hd)
  · intro addr ch hch
    by_cases e : addr = c.addr
    · rw [e, Finmap.lookup_insert] at hch
      obtain rfl := Option.some.inj hch
      rw [e]
      exact h.queued c (hq ▸ List.mem_cons_self)
    · rw [Finmap.lookup_insert_of_ne _ e] at hch
      exact h.registered addr ch hch

/-- INTERNAL: **a reply** goes to the channel under its address.
SRC: client_proc.rs:158-166 -/
theorem Routed.recvMsg {s t : Conn n} (h : s.Routed addrOf) (ht : s.recvMsg = some t) :
    t.Routed addrOf := by
  obtain ⟨p, wireIn, hwire, hcases⟩ := recvMsg_cases ht
  have hreplies : ∀ c data, .memRsp c data ∈ wireIn → (c, data) ∈ s.answered :=
    fun c data hc => h.replies c data (hwire ▸ List.mem_cons_of_mem _ hc)
  rcases hcases with ⟨ctrl, listening, rfl⟩ | ⟨c, data, ch, rfl, hlookup, rfl⟩
  · exact ⟨h.queued, h.called, h.registered, h.delivered, h.received, h.returned, hreplies⟩
  · refine ⟨h.queued, h.called, h.registered, ?_, h.received, h.returned, hreplies⟩
    obtain ⟨hlt, haddr⟩ := h.registered c.addr ch hlookup
    intro ch' r hr
    change Function.update s.slots ch (some ⟨data, some c⟩) ch' = some r at hr
    rcases eq_or_ne ch' ch with rfl | hne
    · rw [Function.update_self] at hr
      obtain rfl := Option.some.inj hr
      exact ⟨hlt, c, data, rfl, haddr.symm, h.replies c data (hwire ▸ List.mem_cons_self)⟩
    · rw [Function.update_of_ne hne] at hr
      exact h.delivered ch' r hr

/-- Packets may move on the wires when the replies were answered. -/
theorem Routed.wires {s : Conn n} (h : s.Routed addrOf) {forward : Option Call}
    {wireOut : List ClientPacket} {wireIn : List ServerPacket} {answered : List (Call × Bytes)}
    (hanswered : ∀ e ∈ s.answered, e ∈ answered)
    (hreplies : ∀ c data, .memRsp c data ∈ wireIn → (c, data) ∈ answered) :
    ({ s with forward, wireOut, wireIn, answered } : Conn n).Routed addrOf := by
  refine ⟨h.queued, h.called, h.registered, ?_, ?_, ?_, hreplies⟩
  · exact fun ch r hr => (h.delivered ch r hr).imp_right (AnswersAt.mono hanswered)
  · exact fun w c r hr => (h.received w c r hr).mono hanswered
  · exact fun c r hr => (h.returned c r hr).mono hanswered

/-- The server replies with what the agent has read at the address. -/
theorem Routed.serverReply {s t : Conn n} {data : Bytes} (h : s.Routed addrOf)
    (ht : s.serverReply data = some t) : t.Routed addrOf := by
  obtain ⟨id, wireOut, -, rfl⟩ | ⟨msg, wireOut, -, rfl⟩ | ⟨c, wireOut, -, rfl⟩ :=
    serverReply_cases ht
  · refine h.wires (fun e he => he) fun c d hc => ?_
    exact h.replies c d ((List.mem_append.mp hc).resolve_right (by simp))
  · exact h.wires (fun e he => he) h.replies
  · refine h.wires (fun e he => List.mem_append_left _ he) fun d data' hd => ?_
    rcases List.mem_append.mp hd with hold | hd
    · exact List.mem_append_left _ (h.replies d data' hold)
    · obtain ⟨rfl, rfl⟩ := ServerPacket.memRsp.inj (List.mem_singleton.mp hd)
      exact List.mem_append_right _ (List.mem_singleton_self _)

/-- INTERNAL: **one step** keeps every channel with its address, also where a registration takes
the place of a waiting call. -/
theorem Routed.step {s t : Conn n} {op : ConnOp n} (h : s.Routed addrOf)
    (ht : (connMachine n).step s op = some t) : ∃ addrOf', t.Routed addrOf' := by
  cases op with
  | readMem w addr size => exact ⟨_, h.readMem ht⟩
  | recv w => exact ⟨addrOf, h.recv ht⟩
  | retReadMem w => exact ⟨addrOf, h.retReadMem ht⟩
  | register => exact ⟨addrOf, h.register ht⟩
  | recvMsg => exact ⟨addrOf, h.recvMsg ht⟩
  | serverReply data => exact ⟨addrOf, h.serverReply ht⟩
  | takeCtrl w =>
    refine ⟨addrOf, ?_⟩
    obtain ⟨-, ⟨ctrl, -, rfl⟩ | ⟨data, ctrl, -, rfl⟩ | ⟨-, -, rfl⟩⟩ := takeCtrl_cases ht
    · exact ⟨h.queued, h.called, h.registered, h.delivered, h.received, h.returned, h.replies⟩
    · have hcall := WorkerPhase.call_ofChunk data
      have h' := h.setWorker (w := w) (p := .ofChunk data) (by simp [hcall]) fun d r hd => by
        rw [hd] at hcall
        cases hcall
      exact ⟨h'.queued, h'.called, h'.registered, h'.delivered, h'.received, h'.returned,
        h'.replies⟩
    · exact h.setWorker (by rintro d ⟨⟩) (by rintro d r ⟨⟩)
  | sendDataRsp w data =>
    obtain ⟨-, rfl⟩ := sendDataRsp_cases ht
    have h' := h.setWorker (w := w) (p := .idle) (by rintro d ⟨⟩) (by rintro d r ⟨⟩)
    exact ⟨addrOf, h'.wires (fun e he => he) h'.replies⟩
  | dropDataRsp w =>
    obtain ⟨-, rfl⟩ := dropDataRsp_cases ht
    exact ⟨addrOf, h.setWorker (by rintro d ⟨⟩) (by rintro d r ⟨⟩)⟩
  | sendMemReq =>
    obtain ⟨c, -, rfl⟩ := sendMemReq_cases ht
    exact ⟨addrOf, h.wires (fun e he => he) h.replies⟩
  | serverSend ctrl =>
    obtain rfl := Option.some.inj ht
    refine ⟨addrOf, ?_⟩
    cases ctrl <;>
      exact h.wires (fun e he => he) fun c d hc =>
        h.replies c d ((List.mem_append.mp hc).resolve_right (by simp))

/-- In every run each channel belongs to an address. -/
theorem exists_routed {ops : List (ConnOp n)} {s : Conn n}
    (hrun : (connMachine n).exec (connMachine n).init ops = some s) : ∃ addrOf, s.Routed addrOf :=
  Machine.exec_induct _ (P := fun s => ∃ addrOf, s.Routed addrOf)
    (fun _ _ _ ⟨_, h⟩ _ ht => h.step ht) ⟨_, Routed.init⟩
    (Machine.meets_of_forall _ (fun _ _ => trivial) _ _) hrun

end Conn

/-! ## The results -/

/-- What `read_mem` leaves of its buffer when it returns with this reply.
SRC: client_proc.rs:32-43 -/
def Call.buffer (G : Growth) (c : Call) (reply : Option Reply) (rst : Bytes) : Option Bytes :=
  readMem (fun _ _ => reply.map Reply.data) G c.addr rst.length rst

/-- INTERNAL: a reply for an address has what the agent has read there. -/
theorem Conn.AnswersAt.data {s : Conn n} (hserved : s.Served T len) {addr : Usize} {r : Reply}
    (h : s.AnswersAt addr r) : r.data = memReqArm T addr len.toNat := by
  obtain ⟨d, data, rfl, rfl, hanswered⟩ := h
  exact hserved.answered _ hanswered

/-- MAIN: **a call over the connection is a call of the remote reader.**  In every run of a client
with any number of workers that all ask for the same number of bytes, with a server that answers
each request as its agent does: every call of `read_mem` that has returned has got what the agent
has read at its address, and has left of its buffer what the reader of `async_decode` leaves of it
in one step, or it has got no reply and left the buffer as it was.  In the runs in which no
registration takes the place of a waiting call, each has got its reply.
SRC: client_proc.rs:32-43, 112-133, 158-166; client_agent.rs:125-138; decode_proc/mod.rs:110-118 -/
theorem readMem_refines_remoteReader (G : Growth) {ops : List (ConnOp n)} {s : Conn n}
    (hserves : (connMachine n).Meets (Conn.Serves T len) (connMachine n).init ops)
    (hrun : (connMachine n).exec (connMachine n).init ops = some s) :
    (∀ e ∈ s.returned, ∀ r, e.2 = some r → r.data = memReqArm T e.1.addr len.toNat) ∧
    (∀ e ∈ s.returned, ∀ rst : Bytes, rst.length = len.toNat →
      e.1.buffer G e.2 rst =
        if e.2.isSome then ((remoteReader T G).call () rst e.1.addr).2.1 else some rst) ∧
      ((connMachine n).Meets Conn.NoOverwrite (connMachine n).init ops →
        ∀ e ∈ s.returned, e.2.isSome) := by
  have hserved : s.Served T len := Machine.exec_induct _ (P := Conn.Served T len)
    (fun _ _ _ h hop ht => h.step hop ht) ⟨by rintro c ⟨⟩, by rintro e ⟨⟩⟩ hserves hrun
  obtain ⟨addrOf, hrouted⟩ := Conn.exists_routed hrun
  have hdata : ∀ c r, (c, some r) ∈ s.returned → r.data = memReqArm T c.addr len.toNat :=
    fun c r he => (hrouted.returned c r he).data hserved
  refine ⟨?_, ?_, fun hmeets e he => ?_⟩
  · rintro ⟨c, reply⟩ he r rfl
    exact hdata c r he
  · rintro ⟨c, reply⟩ he rst hlen
    cases reply with
    | none => rfl
    | some r =>
      rw [Call.buffer, remoteReader, asyncDecodeReader]
      simp only [readMem, Option.map_some, Option.isSome_some, if_true, hdata c r he, hlen]
  · obtain ⟨data, hreply, -⟩ := (Conn.inv_of_exec hmeets hrun).returned e he
    rw [hreply]
    rfl

/-- Both workers ask for the same page, and the second request is registered while the first call
waits: the first call returns with nothing, the second one with the reply to the request of the
first. -/
def samePageAnswered : List (ConnOp 2) :=
  samePage ++ [.serverReply (memReqArm sevensTarget 0x1000 4096), .recvMsg, .recv 0, .retReadMem 0,
    .recv 1, .retReadMem 1]

/-- Two calls for one page: the first returns without a reply, the second with the reply of the
first. -/
theorem readMem_refines_remoteReader_samePage : ∃ s : Conn 2,
    (connMachine 2).exec (connMachine 2).init samePageAnswered = some s ∧
      s.returned = [(⟨0, 0x1000, 0x1000⟩, none),
        (⟨1, 0x1000, 0x1000⟩,
          some ⟨memReqArm sevensTarget 0x1000 4096, some ⟨0, 0x1000, 0x1000⟩⟩)] ∧
      (∀ e ∈ s.returned, ∀ r, e.2 = some r → r.data = memReqArm sevensTarget e.1.addr 4096) ∧
      ∀ e ∈ s.returned, ∀ rst : Bytes, rst.length = 4096 →
        e.1.buffer (fun _ _ => true) e.2 rst =
          if e.2.isSome then
            ((remoteReader sevensTarget fun _ _ => true).call () rst e.1.addr).2.1
          else some rst := by
  have hquiet : ∀ (ops : List (ConnOp 2)) s,
      (∀ op ∈ ops, (∀ data, op ≠ .serverReply data) ∧
        ∀ w addr size, op = .readMem w addr size → size = 0x1000) →
      (connMachine 2).Meets (Conn.Serves sevensTarget 0x1000) s ops := by
    intro ops s hops
    refine Machine.meets_of_forall_mem _ (fun u op hop => ?_) s
    cases op with
    | serverReply data => exact absurd rfl ((hops _ hop).1 data)
    | readMem w addr size =>
      obtain rfl := (hops _ hop).2 w addr size rfl
      exact ⟨rfl, by decide⟩
    | _ => trivial
  have hbefore : (connMachine 2).Meets (Conn.Serves sevensTarget 0x1000) (connMachine 2).init
      samePage := by
    refine ⟨fun c hc => ?_, fun t _ => hquiet _ t (by simp)⟩
    cases hc
  have hserves : (connMachine 2).Meets (Conn.Serves sevensTarget 0x1000) (connMachine 2).init
      samePageAnswered := by
    refine hbefore.append _ rfl (.cons _ (fun c hc => ?_) rfl (hquiet _ _ (by simp)))
    cases hc
    rfl
  obtain ⟨hdata, hbuffer, -⟩ := readMem_refines_remoteReader (fun _ _ => true) hserves rfl
  exact ⟨_, rfl, rfl, hdata, hbuffer⟩

end PtkGenerator

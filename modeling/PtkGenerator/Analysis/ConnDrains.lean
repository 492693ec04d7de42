import PtkGenerator.Analysis.ConnChunks
import PtkGenerator.Analysis.MemoryReplies
import PtkGenerator.Library.Families

/-!
# A client answers what it is sent

A chunk is received, taken, decoded and answered, and a request is registered, sent, answered,
received and returned.  Apart from the calls of `read_mem` and the chunks of the server, which
begin something anew, each step is one less of these to do.  In the runs in which no registration
takes the place of a waiting call, one of them can be taken until all is done.
-/

set_option autoImplicit false

namespace PtkGenerator

open Families

variable {n : ℕ}

/-- The step goes on with what was begun: it is neither a new call of `read_mem` nor a message that
the server sends of itself. -/
def ConnOp.serves : ConnOp n → Bool
  | .readMem _ _ _ => false
  | .serverSend _ => false
  | _ => true

/-! ## The steps that are left -/

/-- The steps that a worker may take before its answer. -/
def WorkerPhase.left : WorkerPhase → ℕ
  | .idle => 1
  | .decoding => 3
  | .waiting _ => 5
  | .received _ _ => 4
  | .ended => 0

/-- A chunk that is taken leaves at most three steps. -/
theorem WorkerPhase.left_ofChunk (data : Bytes) : (ofChunk data).left ≤ 3 := by
  unfold ofChunk
  split <;> decide

/-- The steps that a packet of the client may lead to. -/
def ClientPacket.left : ClientPacket → ℕ
  | .regReq _ => 2
  | .dataRsp _ => 1
  | .memReq _ => 2

/-- The steps that a packet of the server may lead to. -/
def ServerPacket.left : ServerPacket → ℕ
  | .regRsp _ => 1
  | .init => 2
  | .dataReq _ => 4
  | .memRsp _ _ => 1

/-- The steps that a message for the workers may lead to. -/
def ProcCtrl.left : ProcCtrl → ℕ
  | .init => 1
  | .proc _ => 3

namespace Conn

/-- The steps that what was begun can still take. -/
def left (s : Conn n) : ℕ :=
  ∑ w, (s.workers w).left + 4 * s.memReq.length + 3 * s.forward.toList.length +
    (s.wireOut.map ClientPacket.left).sum + (s.wireIn.map ServerPacket.left).sum +
    (s.ctrl.map ProcCtrl.left).sum

/-- One worker changes its part of the sum. -/
theorem sum_left_update (s : Conn n) (w : Fin n) (p : WorkerPhase) :
    (∑ v, (Function.update s.workers w p v).left) + (s.workers w).left =
      (∑ v, (s.workers v).left) + p.left :=
  sum_update_swap (fun _ (p : WorkerPhase) => p.left) s.workers w p

/-- A message that is taken leaves less. -/
theorem left_takeCtrl {s t : Conn n} {w : Fin n} (h : s.takeCtrl w = some t) :
    t.left < s.left := by
  obtain ⟨hw, ⟨ctrl, hctrl, rfl⟩ | ⟨data, ctrl, hctrl, rfl⟩ | ⟨hctrl, -, rfl⟩⟩ := takeCtrl_cases h
  · simp only [left, hctrl, List.map_cons, List.sum_cons, ProcCtrl.left]
    omega
  · have hsum := s.sum_left_update w (.ofChunk data)
    have hchunk := WorkerPhase.left_ofChunk data
    rw [hw] at hsum
    simp only [left, setWorker, hctrl, List.map_cons, List.sum_cons, ProcCtrl.left] at hsum ⊢
    simp only [WorkerPhase.left] at hsum hchunk ⊢
    omega
  · have hsum := s.sum_left_update w .ended
    rw [hw] at hsum
    simp only [left, setWorker, WorkerPhase.left] at hsum ⊢
    omega

/-- A reply that is received leaves less. -/
theorem left_recv {s t : Conn n} {w : Fin n} (h : s.recv w = some t) : t.left < s.left := by
  obtain ⟨c, hw, hcases⟩ := recv_cases h
  have hsum := fun r => s.sum_left_update w (.received c r)
  rw [hw] at hsum
  rcases hcases with ⟨r, -, rfl⟩ | ⟨-, -, rfl⟩
  · have hr := hsum (some r)
    simp only [left, setWorker, WorkerPhase.left] at hr ⊢
    omega
  · have hr := hsum none
    simp only [left, setWorker, WorkerPhase.left] at hr ⊢
    omega

/-- The return of a read leaves less. -/
theorem left_retReadMem {s t : Conn n} {w : Fin n} (h : s.retReadMem w = some t) :
    t.left < s.left := by
  obtain ⟨c, rst, hw, rfl⟩ := retReadMem_cases h
  have hsum := s.sum_left_update w .decoding
  rw [hw] at hsum
  simp only [left, setWorker, WorkerPhase.left] at hsum ⊢
  omega

/-- An answer that is sent leaves less. -/
theorem left_sendDataRsp {s t : Conn n} {w : Fin n} {data : SparseMap}
    (h : s.sendDataRsp w data = some t) : t.left < s.left := by
  obtain ⟨hw, rfl⟩ := sendDataRsp_cases h
  have hsum := s.sum_left_update w .idle
  rw [hw] at hsum
  simp only [left, setWorker, WorkerPhase.left, List.map_append, List.sum_append, List.map_cons,
    List.map_nil, List.sum_cons, List.sum_nil, ClientPacket.left] at hsum ⊢
  omega

/-- An answer whose send fails leaves less. -/
theorem left_dropDataRsp {s t : Conn n} {w : Fin n} (h : s.dropDataRsp w = some t) :
    t.left < s.left := by
  obtain ⟨hw, rfl⟩ := dropDataRsp_cases h
  have hsum := s.sum_left_update w .idle
  rw [hw] at hsum
  simp only [left, setWorker, WorkerPhase.left] at hsum ⊢
  omega

/-- The registration of a call leaves less. -/
theorem left_register {s t : Conn n} (h : s.register = some t) : t.left < s.left := by
  obtain ⟨c, memReq, hreq, hforward, rfl⟩ := register_cases h
  simp only [left, hreq, hforward, List.length_cons, Option.toList_some, Option.toList_none,
    List.length_nil]
  omega

/-- A request that is sent leaves less. -/
theorem left_sendMemReq {s t : Conn n} (h : s.sendMemReq = some t) : t.left < s.left := by
  obtain ⟨c, hforward, rfl⟩ := sendMemReq_cases h
  simp only [left, hforward, Option.toList_some, Option.toList_none, List.length_cons,
    List.length_nil, List.map_append, List.sum_append, List.map_cons, List.map_nil,
    List.sum_cons, List.sum_nil, ClientPacket.left]
  omega

/-- A reply that is delivered leaves the same. -/
theorem left_deliver {s t : Conn n} {ch : ℕ} {r : Reply} (h : s.deliver ch r = some t) :
    t.left = s.left := by
  obtain ⟨-, -, rfl⟩ | ⟨-, rfl⟩ := deliver_cases h
  · rfl
  · rfl

/-- A packet that the client receives leaves less. -/
theorem left_recvMsg {s t : Conn n} (h : s.recvMsg = some t) : t.left < s.left := by
  obtain ⟨p, wireIn, hwire, -, h⟩ := recvMsg_uncons h
  have hs : s.left = p.left + ({ s with wireIn } : Conn n).left := by
    simp only [left, hwire, List.map_cons, List.sum_cons]
    omega
  cases p with
  | regRsp id =>
    obtain rfl := Option.some.inj h
    rw [hs, ServerPacket.left]
    omega
  | init =>
    obtain rfl := Option.some.inj h
    rw [hs, ServerPacket.left]
    simp only [left, List.map_append, List.sum_append, List.map_cons, List.map_nil,
      List.sum_cons, List.sum_nil, ProcCtrl.left]
    omega
  | dataReq data =>
    obtain rfl := Option.some.inj h
    rw [hs, ServerPacket.left]
    simp only [left, List.map_append, List.sum_append, List.map_cons, List.map_nil,
      List.sum_cons, List.sum_nil, ProcCtrl.left]
    omega
  | memRsp call data =>
    rw [hs, ServerPacket.left]
    have hsame : t.left = ({ s with wireIn } : Conn n).left := by
      rcases handleMsg_memRsp h with ⟨ch, -, hdeliver⟩ | ⟨-, rfl⟩
      · exact left_deliver hdeliver
      · rfl
    omega

/-- A packet that the server receives leaves less. -/
theorem left_serverReply {s t : Conn n} {data : Bytes} (h : s.serverReply data = some t) :
    t.left < s.left := by
  obtain ⟨id, wireOut, hout, rfl⟩ | ⟨msg, wireOut, hout, rfl⟩ | ⟨c, wireOut, hout, rfl⟩ :=
    serverReply_cases h
  · simp only [left, hout, List.map_append, List.sum_append, List.map_cons, List.map_nil,
      List.sum_cons, List.sum_nil, ClientPacket.left, ServerPacket.left]
    omega
  · simp only [left, hout, List.map_cons, List.sum_cons, ClientPacket.left]
    omega
  · simp only [left, hout, List.map_append, List.sum_append, List.map_cons, List.map_nil,
      List.sum_cons, List.sum_nil, ClientPacket.left, ServerPacket.left]
    omega

/-- INTERNAL: **each step of what was begun brings its end nearer.**
SRC: client_proc.rs:31-44, 56-88, 111-171 -/
theorem left_lt {s t : Conn n} {op : ConnOp n} (hop : op.serves = true)
    (h : (connMachine n).step s op = some t) : t.left < s.left := by
  cases op with
  | takeCtrl w => exact left_takeCtrl h
  | readMem w addr len => cases hop
  | recv w => exact left_recv h
  | retReadMem w => exact left_retReadMem h
  | sendDataRsp w data => exact left_sendDataRsp h
  | dropDataRsp w => exact left_dropDataRsp h
  | register => exact left_register h
  | sendMemReq => exact left_sendMemReq h
  | recvMsg => exact left_recvMsg h
  | serverReply data => exact left_serverReply h
  | serverSend ctrl => cases hop

/-! ## A client is never stuck -/

/-- All is done: the workers wait for the next message, and nothing is on its way. -/
structure Done (s : Conn n) : Prop where
  workers : ∀ w, s.workers w = .idle
  memReq : s.memReq = []
  forward : s.forward = none
  wireOut : s.wireOut = []
  wireIn : s.wireIn = []
  ctrl : s.ctrl = []

/-- Some step of what was begun can be taken. -/
def CanServe (s : Conn n) : Prop :=
  ∃ op : ConnOp n, op.serves = true ∧ ((connMachine n).step s op).isSome

/-- Some step of what was begun can be taken that takes the place of no waiting call. -/
def GoesOn (s : Conn n) : Prop :=
  ∃ op : ConnOp n, op.serves = true ∧ s.NoOverwrite op ∧ ((connMachine n).step s op).isSome

/-- What can go on can serve. -/
theorem GoesOn.canServe {s : Conn n} (h : s.GoesOn) : s.CanServe := by
  obtain ⟨op, hserves, -, hstep⟩ := h
  exact ⟨op, hserves, hstep⟩

/-- A step that serves and registers nothing goes on. -/
theorem goesOn_of_ne {s : Conn n} (op : ConnOp n) (hserves : op.serves = true)
    (hne : op ≠ .register) (hstep : ((connMachine n).step s op).isSome) : s.GoesOn :=
  ⟨op, hserves, noOverwrite_of_ne s hne, hstep⟩

/-- The server goes on with what was sent to it. -/
theorem goesOn_wireOut {s : Conn n} (h : s.wireOut ≠ []) : s.GoesOn := by
  obtain ⟨p, wireOut, hout⟩ := List.exists_cons_of_ne_nil h
  refine goesOn_of_ne (.serverReply []) rfl (by simp) ?_
  cases p <;> simp [connMachine, serverReply, hout]

/-- The forwarding task goes on with the request it holds. -/
theorem goesOn_forward {s : Conn n} (h : s.forward ≠ none) : s.GoesOn := by
  obtain ⟨c, hc⟩ := Option.ne_none_iff_exists'.mp h
  exact goesOn_of_ne .sendMemReq rfl (by simp) (by simp [connMachine, sendMemReq, hc])

/-- The calls that wait are in the queue when nothing is in flight, so none has the channel that a
registration replaces. -/
theorem Inv.goesOn_memReq {s : Conn n} (h : s.Inv) (hone : s.OneSender) (hreq : s.memReq ≠ [])
    (hforward : s.forward = none) (hflight : s.inFlight = []) : s.GoesOn := by
  obtain ⟨c, memReq, hc⟩ := List.exists_cons_of_ne_nil hreq
  refine ⟨.register, rfl, ?_, by simp [connMachine, Conn.register, hc, hforward]⟩
  rintro d - ch hlookup ⟨hslot, w, p, hw, rfl⟩
  have hp : p ∈ s.memReq := by
    rcases h.waiting w p hw with hpending | ⟨data, hreply, -⟩
    · rwa [pending, hflight, List.append_nil] at hpending
    · rw [hslot] at hreply
      cases hreply
  exact hone.apart p hp d.addr hlookup

/-- The reply to a pending request finds its channel, and there is room. -/
theorem Inv.goesOn_wireIn {s : Conn n} (h : s.Inv) (hin : s.wireIn ≠ []) : s.GoesOn := by
  obtain ⟨p, wireIn, hp⟩ := List.exists_cons_of_ne_nil hin
  refine goesOn_of_ne .recvMsg rfl (by simp) ?_
  show s.recvMsg.isSome = true
  rw [recvMsg_cons h.listening hp]
  cases p with
  | regRsp id => rfl
  | init => rfl
  | dataReq data => rfl
  | memRsp c data =>
    have hfl : c ∈ s.inFlight := by
      refine List.mem_append_right _ (List.mem_append_right _ ?_)
      exact List.mem_filterMap.mpr ⟨.memRsp c data, by rw [hp]; exact List.mem_cons_self, rfl⟩
    obtain ⟨hslot, w, hw⟩ := h.owned c (List.mem_append_right _ hfl)
    have halive : ({ s with wireIn } : Conn n).ReceiverAlive c.chan := by
      refine ⟨w, ?_⟩
      show (s.workers w).call.map Call.chan = some c.chan
      rw [hw]
      rfl
    have hlookup : s.memReqLst.lookup c.addr = some c.chan := h.registered c hfl
    simp only [ServerPacket.msg, handleMsg, hlookup, Conn.deliver, if_pos halive, hslot]
    rfl

/-- A worker that is neither idle nor at its end goes on, when no call waits for a reply. -/
theorem Inv.goesOn_worker {s : Conn n} (h : s.Inv) (hpending : s.pending = []) {w : Fin n}
    (hidle : s.workers w ≠ .idle) (hended : s.workers w ≠ .ended) : s.GoesOn := by
  cases hw : s.workers w with
  | idle => exact absurd hw hidle
  | ended => exact absurd hw hended
  | decoding =>
    exact goesOn_of_ne (.sendDataRsp w ∅) rfl (by simp)
      (by simp [connMachine, Conn.sendDataRsp, hw])
  | received c rst =>
    exact goesOn_of_ne (.retReadMem w) rfl (by simp)
      (by simp [connMachine, Conn.retReadMem, hw])
  | waiting c =>
    refine goesOn_of_ne (.recv w) rfl (by simp) ?_
    cases hslot : s.slots c.chan with
    | some r => simp [connMachine, Conn.recv, hw, hslot]
    | none =>
      -- its request would be pending
      have hmem := (h.senderAlive hw hslot).1
      rw [hpending] at hmem
      cases hmem

/-- Idle workers go on with what is in the channel. -/
theorem goesOn_ctrl {s : Conn n} (hn : 0 < n) (hidle : ∀ w, s.workers w = .idle)
    (hctrl : s.ctrl ≠ []) : s.GoesOn := by
  obtain ⟨m, ctrl, hm⟩ := List.exists_cons_of_ne_nil hctrl
  refine goesOn_of_ne (.takeCtrl ⟨0, hn⟩) rfl (by simp) ?_
  cases m <;> simp [connMachine, Conn.takeCtrl, hidle, hm]

/-- A connection whose workers have not ended is done or goes on. -/
theorem Inv.done_or_goesOn {s : Conn n} (h : s.Inv) (hone : s.OneSender) (hn : 0 < n)
    (hended : ∀ w, s.workers w ≠ .ended) : s.Done ∨ s.GoesOn := by
  by_cases hout : s.wireOut = []
  · by_cases hin : s.wireIn = []
    · by_cases hforward : s.forward = none
      · have hflight : s.inFlight = [] := by
          rw [inFlight, hout, hin, hforward]
          rfl
        by_cases hreq : s.memReq = []
        · have hpending : s.pending = [] := by
            rw [pending, hreq, hflight]
            rfl
          by_cases hidle : ∀ w, s.workers w = .idle
          · by_cases hctrl : s.ctrl = []
            · exact .inl ⟨hidle, hreq, hforward, hout, hin, hctrl⟩
            · exact .inr (goesOn_ctrl hn hidle hctrl)
          · obtain ⟨w, hw⟩ := not_forall.mp hidle
            exact .inr (h.goesOn_worker hpending hw (hended w))
        · exact .inr (h.goesOn_memReq hone hreq hforward hflight)
      · exact .inr (goesOn_forward hforward)
    · exact .inr (h.goesOn_wireIn hin)
  · exact .inr (goesOn_wireOut hout)

/-- A packet that the client receives changes no worker. -/
theorem workers_recvMsg {s t : Conn n} (h : s.recvMsg = some t) : t.workers = s.workers := by
  obtain ⟨p, wireIn, -, ⟨ctrl, listening, rfl⟩ | ⟨c, data, ch, -, -, rfl⟩⟩ := recvMsg_cases h
  · rfl
  · rfl

/-- A chunk of the queue is on its way. -/
theorem mem_chunks_of_ctrl {s : Conn n} {data : Bytes} (h : .proc data ∈ s.ctrl) :
    data ∈ s.chunks :=
  Multiset.mem_add.mpr (.inr (List.mem_filterMap.mpr ⟨_, h, rfl⟩))

/-- INTERNAL: **a step changes the phase of one worker at most**: an idle one takes a chunk or the
end of the queue, and a busy one goes on or is idle.
SRC: client_proc.rs:32-43, 56-88 -/
theorem workers_step {s t : Conn n} {op : ConnOp n} (h : (connMachine n).step s op = some t) :
    t.workers = s.workers ∨ ∃ w p, t.workers = Function.update s.workers w p ∧
      ((op = .takeCtrl w ∧ ((∃ data, .proc data ∈ s.ctrl ∧ p = .ofChunk data) ∨
          (s.listening = false ∧ p = .ended))) ∨
        (s.workers w ≠ .idle ∧ p ≠ .ended)) := by
  cases op with
  | takeCtrl w =>
    obtain ⟨-, ⟨ctrl, hctrl, rfl⟩ | ⟨data, ctrl, hctrl, rfl⟩ | ⟨-, hlistening, rfl⟩⟩ :=
      takeCtrl_cases h
    · exact .inl rfl
    · exact .inr ⟨w, _, rfl, .inl ⟨rfl, .inl ⟨data, hctrl ▸ List.mem_cons_self, rfl⟩⟩⟩
    · exact .inr ⟨w, _, rfl, .inl ⟨rfl, .inr ⟨hlistening, rfl⟩⟩⟩
  | readMem w addr len =>
    obtain ⟨hw, rfl⟩ := readMem_cases h
    exact .inr ⟨w, _, rfl, .inr ⟨by simp [hw], by simp⟩⟩
  | recv w =>
    obtain ⟨c, hw, ⟨r, -, rfl⟩ | ⟨-, -, rfl⟩⟩ := recv_cases h
    · exact .inr ⟨w, _, rfl, .inr ⟨by simp [hw], by simp⟩⟩
    · exact .inr ⟨w, _, rfl, .inr ⟨by simp [hw], by simp⟩⟩
  | retReadMem w =>
    obtain ⟨c, rst, hw, rfl⟩ := retReadMem_cases h
    exact .inr ⟨w, _, rfl, .inr ⟨by simp [hw], by simp⟩⟩
  | sendDataRsp w data =>
    obtain ⟨hw, rfl⟩ := sendDataRsp_cases h
    exact .inr ⟨w, _, rfl, .inr ⟨by simp [hw], by simp⟩⟩
  | dropDataRsp w =>
    obtain ⟨hw, rfl⟩ := dropDataRsp_cases h
    exact .inr ⟨w, _, rfl, .inr ⟨by simp [hw], by simp⟩⟩
  | register =>
    obtain ⟨c, memReq, -, -, rfl⟩ := register_cases h
    exact .inl rfl
  | sendMemReq =>
    obtain ⟨c, -, rfl⟩ := sendMemReq_cases h
    exact .inl rfl
  | recvMsg => exact .inl (workers_recvMsg h)
  | serverReply data =>
    obtain ⟨-, -, -, hworkers, -⟩ := chunks_serverReply h
    exact .inl hworkers
  | serverSend ctrl =>
    obtain rfl := Option.some.inj h
    cases ctrl <;> exact .inl rfl

/-- A worker ends only when the receive loop has ended, or at an empty chunk. -/
theorem workers_ne_ended {s t : Conn n} {op : ConnOp n} (hlistening : s.listening = true)
    (hempty : [] ∉ s.chunks) (hs : ∀ w, s.workers w ≠ .ended)
    (ht : (connMachine n).step s op = some t) : ∀ w, t.workers w ≠ .ended := by
  rcases workers_step ht with hsame | ⟨w, p, hworkers, hcases⟩
  · exact hsame ▸ hs
  · rw [hworkers]
    refine forall_update (P := fun _ (p : WorkerPhase) => p ≠ .ended) hs ?_
    rcases hcases with ⟨-, ⟨data, hmem, rfl⟩ | ⟨hover, -⟩⟩ | ⟨-, hp⟩
    · have hne : data ≠ [] := by
        rintro rfl
        exact hempty (mem_chunks_of_ctrl hmem)
      rw [WorkerPhase.ofChunk_of_ne hne]
      simp
    · rw [hlistening] at hover
      cases hover
    · exact hp

/-- No empty chunk comes when the server sends none. -/
theorem empty_not_mem_step {s t : Conn n} {op : ConnOp n} (hop : op ≠ .serverSend (.proc []))
    (hs : [] ∉ s.chunks) (ht : (connMachine n).step s op = some t) : [] ∉ t.chunks := by
  by_cases hsend : ∃ ctrl, op = .serverSend ctrl
  · obtain ⟨ctrl, rfl⟩ := hsend
    obtain rfl := Option.some.inj ht
    rw [chunks_serverSend]
    intro hmem
    rcases Multiset.mem_add.mp hmem with hold | hnew
    · exact hs hold
    · cases ctrl with
      | init => cases hnew
      | proc data =>
        obtain rfl : [] = data := List.mem_singleton.mp hnew
        exact hop rfl
  · exact fun hmem => hs (Multiset.mem_of_le (chunks_step (not_exists.mp hsend) ht) hmem)

/-- INTERNAL: **in a run that replaces no waiting call the client is done or goes on.** -/
theorem done_or_canServe_of_exec {ops : List (ConnOp n)} {s : Conn n} (hn : 0 < n)
    (hrun : (connMachine n).exec (connMachine n).init ops = some s)
    (hmeets : (connMachine n).Meets NoOverwrite (connMachine n).init ops)
    (hempty : .serverSend (.proc []) ∉ ops) : s.Done ∨ s.CanServe := by
  have hstays : s.Inv ∧ [] ∉ s.chunks ∧ ∀ w, s.workers w ≠ .ended := by
    refine Machine.exec_induct _
      (P := fun s : Conn n => s.Inv ∧ [] ∉ s.chunks ∧ ∀ w, s.workers w ≠ .ended)
      (C := fun s op => s.NoOverwrite op ∧ op ≠ .serverSend (.proc []))
      (fun s op t h hop ht => ?_) ⟨Inv.init, ?_, fun w => ?_⟩
      (hmeets.and_forall_mem _ fun op hop => ne_of_mem_of_not_mem hop hempty) hrun
    · exact ⟨h.1.step hop.1 ht, empty_not_mem_step hop.2 h.2.1 ht,
        workers_ne_ended h.1.listening h.2.1 h.2.2 ht⟩
    · exact Multiset.notMem_zero _
    · show WorkerPhase.idle ≠ .ended
      simp
  exact (hstays.1.done_or_goesOn (oneSender_of_reachable ⟨ops, hrun⟩) hn hstays.2.2).imp_right
    GoesOn.canServe

end Conn

/-- MAIN: **a client answers what it is sent.** In a run in which no registration takes the place
of a waiting call and the server sends no empty chunk, all is done or some task can take a step
that goes on with what was begun; and such steps come to an end: their number is bounded by what
is left.
SRC: client_proc.rs:31-44, 56-88, 92-175 -/
theorem conn_drains {n : ℕ} (hn : 0 < n) {ops : List (ConnOp n)} {s : Conn n}
    (hrun : (connMachine n).exec (connMachine n).init ops = some s)
    (hmeets : (connMachine n).Meets Conn.NoOverwrite (connMachine n).init ops)
    (hempty : .serverSend (.proc []) ∉ ops) :
    (s.Done ∨ s.CanServe) ∧
      ∀ ops' t, (∀ op ∈ ops', op.serves = true) → (connMachine n).exec s ops' = some t →
        ops'.length + t.left ≤ s.left :=
  ⟨Conn.done_or_canServe_of_exec hn hrun hmeets hempty, fun _ _ hserves ht =>
    Machine.length_add_le_of_lt _ (fun _ _ _ hop h => Conn.left_lt hop h) hserves ht⟩

/-- With one reply on its way to the receive loop a step can be taken. -/
theorem conn_drains_one : ∃ s : Conn 2,
    (connMachine 2).exec (connMachine 2).init (oneRequest [7]) = some s ∧ s.left = 7 ∧
      (s.Done ∨ s.CanServe) :=
  ⟨_, rfl, rfl, (conn_drains (by decide) rfl (oneRequest_meets [7])
    (by simp [oneRequest, psbPlus, psb])).1⟩

end PtkGenerator

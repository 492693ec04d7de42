import PtkGenerator.Model.Connection

/-!
# The chunks and the answers of a client

A chunk is on the wire to the client, then in the queue of its workers, then in the hand of one of
them; what it comes to is an answer on the wire to the server.  Each step of the connection moves a
chunk on or leaves all of them where they are.
-/

set_option autoImplicit false

namespace PtkGenerator

variable {n : ℕ}

/-- The chunk a packet of the server brings. -/
def ServerPacket.chunk : ServerPacket → Option Bytes
  | .dataReq data => some data
  | _ => none

/-- The chunk a message for the workers brings. -/
def ProcCtrl.chunk : ProcCtrl → Option Bytes
  | .proc data => some data
  | .init => none

/-- The counts a packet of a client answers with. -/
def ClientPacket.answer : ClientPacket → Option SparseMap
  | .dataRsp data => some data
  | _ => none

namespace Conn

/-- The chunks on the wire to the client and in its queue. -/
def chunks (s : Conn n) : Multiset Bytes :=
  ↑(s.wireIn.filterMap ServerPacket.chunk) + ↑(s.ctrl.filterMap ProcCtrl.chunk)

/-- The answers on the wire to the server. -/
def answers (s : Conn n) : List SparseMap := s.wireOut.filterMap ClientPacket.answer

/-- A step leaves the chunks and the answers where they are, and makes no worker idle. -/
structure Keeps (s t : Conn n) : Prop where
  chunks : t.chunks = s.chunks
  answers : t.answers = s.answers
  idle : ∀ w, t.workers w = .idle → s.workers w = .idle

/-- A worker that is idle behind an update to another phase was idle before. -/
theorem idle_update {workers : Fin n → WorkerPhase} {w v : Fin n} {p : WorkerPhase}
    (hv : Function.update workers w p v = .idle) (hp : p ≠ .idle) : workers v = .idle := by
  by_cases hvw : v = w
  · subst hvw
    rw [Function.update_self] at hv
    exact absurd hv hp
  · rwa [Function.update_of_ne hvw] at hv

/-- A read that is asked for leaves chunks and answers where they are. -/
theorem keeps_readMem {s t : Conn n} {w : Fin n} {addr len : Usize}
    (h : s.readMem w addr len = some t) : s.Keeps t := by
  obtain ⟨-, rfl⟩ := readMem_cases h
  exact ⟨rfl, rfl, fun _ hv => idle_update hv (by simp)⟩

/-- A reply that is received leaves chunks and answers where they are. -/
theorem keeps_recv {s t : Conn n} {w : Fin n} (h : s.recv w = some t) : s.Keeps t := by
  obtain ⟨c, -, ⟨r, -, rfl⟩ | ⟨-, -, rfl⟩⟩ := recv_cases h
  · exact ⟨rfl, rfl, fun _ hv => idle_update hv (by simp)⟩
  · exact ⟨rfl, rfl, fun _ hv => idle_update hv (by simp)⟩

/-- The return of a read leaves chunks and answers where they are. -/
theorem keeps_retReadMem {s t : Conn n} {w : Fin n} (h : s.retReadMem w = some t) :
    s.Keeps t := by
  obtain ⟨c, rst, -, rfl⟩ := retReadMem_cases h
  exact ⟨rfl, rfl, fun _ hv => idle_update hv (by simp)⟩

/-- The registration of a call leaves chunks and answers where they are. -/
theorem keeps_register {s t : Conn n} (h : s.register = some t) : s.Keeps t := by
  obtain ⟨c, memReq, -, -, rfl⟩ := register_cases h
  exact ⟨rfl, rfl, fun _ hv => hv⟩

/-- A request that is sent leaves chunks and answers where they are. -/
theorem keeps_sendMemReq {s t : Conn n} (h : s.sendMemReq = some t) : s.Keeps t := by
  obtain ⟨c, -, rfl⟩ := sendMemReq_cases h
  refine ⟨rfl, ?_, fun _ hv => hv⟩
  simp [answers, ClientPacket.answer]

/-- A reply that is delivered leaves chunks and answers where they are. -/
theorem keeps_deliver {s t : Conn n} {ch : ℕ} {r : Reply} (h : s.deliver ch r = some t) :
    s.Keeps t := by
  obtain ⟨-, -, rfl⟩ | ⟨-, rfl⟩ := deliver_cases h
  · exact ⟨rfl, rfl, fun _ hv => hv⟩
  · exact ⟨rfl, rfl, fun _ hv => hv⟩

/-- The receive loop moves a chunk from the wire into the queue. -/
theorem keeps_recvMsg {s t : Conn n} (h : s.recvMsg = some t) : s.Keeps t := by
  obtain ⟨p, wireIn, hwire, -, h⟩ := recvMsg_uncons h
  have hchunks : s.chunks = ↑p.chunk.toList + ({ s with wireIn } : Conn n).chunks := by
    rw [chunks, hwire]
    cases hp : p.chunk with
    | none => rw [List.filterMap_cons_none hp]; exact (zero_add _).symm
    | some d =>
      rw [List.filterMap_cons_some hp, ← Multiset.cons_coe, ← Multiset.singleton_add, add_assoc]
      rfl
  cases p with
  | regRsp id =>
    obtain rfl := Option.some.inj h
    exact ⟨(hchunks.trans (zero_add _)).symm, rfl, fun _ hv => hv⟩
  | init =>
    obtain rfl := Option.some.inj h
    refine ⟨?_, rfl, fun _ hv => hv⟩
    rw [hchunks]
    simp only [chunks, ServerPacket.chunk, ProcCtrl.chunk, List.filterMap_append,
      List.filterMap_cons, List.filterMap_nil, List.append_nil, Option.toList_none,
      Multiset.coe_nil, zero_add]
  | dataReq data =>
    obtain rfl := Option.some.inj h
    refine ⟨?_, rfl, fun _ hv => hv⟩
    rw [hchunks]
    simp only [chunks, ServerPacket.chunk, ProcCtrl.chunk, List.filterMap_append,
      List.filterMap_cons, List.filterMap_nil, ← Multiset.coe_add, Option.toList_some]
    rw [← add_assoc, add_comm]
  | memRsp call data =>
    have hkeep : ({ s with wireIn } : Conn n).Keeps t := by
      rcases handleMsg_memRsp h with ⟨ch, -, hdeliver⟩ | ⟨-, rfl⟩
      · exact keeps_deliver hdeliver
      · exact ⟨rfl, rfl, fun _ hv => hv⟩
    exact ⟨hkeep.chunks.trans (hchunks.trans (zero_add _)).symm, hkeep.answers, hkeep.idle⟩

/-- A worker takes an `Init`, a chunk, or the end of the queue. -/
theorem chunks_takeCtrl {s t : Conn n} {w : Fin n} (h : s.takeCtrl w = some t) :
    s.workers w = .idle ∧ t.answers = s.answers ∧ t.wireIn = s.wireIn ∧
      ((∃ ctrl, s.ctrl = .init :: ctrl ∧ t.ctrl = ctrl ∧ t.workers = s.workers) ∨
        (∃ data ctrl, s.ctrl = .proc data :: ctrl ∧ t.ctrl = ctrl ∧
          t.workers = Function.update s.workers w (.ofChunk data)) ∨
        (s.ctrl = [] ∧ t.ctrl = [] ∧ t.workers = Function.update s.workers w .ended)) := by
  obtain ⟨hw, ⟨ctrl, hctrl, rfl⟩ | ⟨data, ctrl, hctrl, rfl⟩ | ⟨hctrl, -, rfl⟩⟩ := takeCtrl_cases h
  · exact ⟨hw, rfl, rfl, .inl ⟨ctrl, hctrl, rfl, rfl⟩⟩
  · exact ⟨hw, rfl, rfl, .inr (.inl ⟨data, ctrl, hctrl, rfl, rfl⟩)⟩
  · exact ⟨hw, rfl, rfl, .inr (.inr ⟨hctrl, hctrl, rfl⟩)⟩

/-- A worker that sends its answer puts it behind the answers before. -/
theorem chunks_sendDataRsp {s t : Conn n} {w : Fin n} {data : SparseMap}
    (h : s.sendDataRsp w data = some t) :
    t.chunks = s.chunks ∧ t.answers = s.answers ++ [data] ∧
      t.workers = Function.update s.workers w .idle := by
  obtain ⟨-, rfl⟩ := sendDataRsp_cases h
  refine ⟨rfl, ?_, rfl⟩
  simp only [answers, List.filterMap_append, List.filterMap_cons, ClientPacket.answer,
    List.filterMap_nil]

/-- A worker whose send fails answers nothing and goes on. -/
theorem chunks_dropDataRsp {s t : Conn n} {w : Fin n} (h : s.dropDataRsp w = some t) :
    t.chunks = s.chunks ∧ t.answers = s.answers ∧
      t.workers = Function.update s.workers w .idle := by
  obtain ⟨-, rfl⟩ := dropDataRsp_cases h
  exact ⟨rfl, rfl, rfl⟩

/-- A packet that the server sends. -/
theorem chunks_push (s : Conn n) {t : Conn n} {p : ServerPacket} (hin : t.wireIn = s.wireIn ++ [p])
    (hctrl : t.ctrl = s.ctrl) : t.chunks = s.chunks + ↑p.chunk.toList := by
  rw [chunks, chunks, hin, hctrl, List.filterMap_append, ← Multiset.coe_add, add_right_comm]
  cases hp : p.chunk with
  | none => rw [List.filterMap_cons_none hp]; rfl
  | some d => rw [List.filterMap_cons_some hp]; rfl

/-- The server brings the chunk of its packet. -/
theorem chunks_serverSend (s : Conn n) (ctrl : ProcCtrl) :
    (s.serverSend ctrl).chunks = s.chunks + ↑ctrl.chunk.toList := by
  cases ctrl with
  | init => exact chunks_push s (p := .init) rfl rfl
  | proc data => exact chunks_push s (p := .dataReq data) rfl rfl

/-- The receive task of the agent takes a message. -/
theorem chunks_serverReply {s t : Conn n} {data : Bytes} (h : s.serverReply data = some t) :
    ∃ p, s.wireOut.head? = some p ∧ t.chunks = s.chunks ∧ t.workers = s.workers ∧
      s.answers = p.answer.toList ++ t.answers := by
  obtain ⟨id, wireOut, hout, rfl⟩ | ⟨msg, wireOut, hout, rfl⟩ | ⟨c, wireOut, hout, rfl⟩ :=
    serverReply_cases h
  · refine ⟨.regReq id, by rw [hout]; rfl, ?_, rfl, by rw [answers, hout]; rfl⟩
    refine (chunks_push s (p := .regRsp id) ?_ ?_).trans ?_
    · rfl
    · rfl
    · exact add_zero _
  · exact ⟨.dataRsp msg, by rw [hout]; rfl, rfl, rfl, by rw [answers, hout]; rfl⟩
  · refine ⟨.memReq c, by rw [hout]; rfl, ?_, rfl, by rw [answers, hout]; rfl⟩
    refine (chunks_push s (p := .memRsp c data) ?_ ?_).trans ?_
    · rfl
    · rfl
    · exact add_zero _

/-- INTERNAL: **only the server brings a chunk.**
SRC: client_proc.rs:31-44, 56-88, 111-171 -/
theorem chunks_step {s t : Conn n} {op : ConnOp n} (hop : ∀ ctrl, op ≠ .serverSend ctrl)
    (h : (connMachine n).step s op = some t) : t.chunks ≤ s.chunks := by
  cases op with
  | takeCtrl w =>
    obtain ⟨-, -, hwire, hcases⟩ := chunks_takeCtrl h
    have hctrl :
        (t.ctrl.filterMap ProcCtrl.chunk).Sublist (s.ctrl.filterMap ProcCtrl.chunk) := by
      rcases hcases with ⟨ctrl, hs, ht, -⟩ | ⟨data, ctrl, hs, ht, -⟩ | ⟨hs, ht, -⟩
      · rw [hs, ht]
        exact (List.sublist_cons_self _ _).filterMap _
      · rw [hs, ht]
        exact (List.sublist_cons_self _ _).filterMap _
      · rw [hs, ht]
    rw [chunks, chunks, hwire]
    exact add_le_add_right (Multiset.coe_le.mpr hctrl.subperm) _
  | readMem w addr len => exact (keeps_readMem h).chunks.le
  | recv w => exact (keeps_recv h).chunks.le
  | retReadMem w => exact (keeps_retReadMem h).chunks.le
  | sendDataRsp w data => exact (chunks_sendDataRsp h).1.le
  | dropDataRsp w => exact (chunks_dropDataRsp h).1.le
  | register => exact (keeps_register h).chunks.le
  | sendMemReq => exact (keeps_sendMemReq h).chunks.le
  | recvMsg => exact (keeps_recvMsg h).chunks.le
  | serverReply data =>
    obtain ⟨p, -, hchunks, -⟩ := chunks_serverReply h
    exact hchunks.le
  | serverSend ctrl => exact absurd rfl (hop ctrl)

end Conn

end PtkGenerator

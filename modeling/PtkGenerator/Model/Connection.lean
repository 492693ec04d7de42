import PtkGenerator.Library.Machine
import PtkGenerator.Model.ClientProc

/-!
# The connection of a client

`ServerAgent::connect` runs a forwarding task, the workers and the receive loop; the tasks share
the queue of memory requests, the map `mem_req_lst` from addresses to response channels and the
queue of chunks.  A call of `read_mem` makes a channel of its own, which has room for one reply:
its receiver lives as long as the call, its senders are the ones in the queue of requests and in
the map.  The machine has the steps of these tasks and of the server at the other end of the
connection, and the connection itself does not fail.  A step of the machine is one of a task that
has a thread of the runtime: the forwarding task and the workers keep theirs while they are in
crossbeam's `recv`, so a runtime with fewer threads than tasks has fewer of these runs.  What
`read_mem` does to the memory of its caller is in `ReadMem`, not here.

A message on the wire is a `PtProcMsg`.  Memory requests and their replies also carry the call
they belong to, which nobody but the records `answered` and `returned` looks at.
-/

set_option autoImplicit false

namespace PtkGenerator

/-- `PtProcMsg`.
SRC: server_consumer/interface.rs:7-21 -/
inductive PtProcMsg where
  | regReq (id : UInt32)
  | regRsp (id : UInt32)
  | unReg (id : UInt32)
  | init
  | dataReq (data : Bytes)
  | dataRsp (data : SparseMap)
  | memReq (addr len : Usize)
  | memRsp (addr : Usize) (data : Bytes)

/-- A call of `read_mem`: its response channel and what it asks for. -/
structure Call where
  chan : ℕ
  addr : Usize
  len : Usize
  deriving DecidableEq

/-- What a client sends. -/
inductive ClientPacket where
  | regReq (id : UInt32)
  | dataRsp (data : SparseMap)
  | memReq (call : Call)

/-- The message a client sends; the channel of a call does not go on the wire. -/
def ClientPacket.msg : ClientPacket → PtProcMsg
  | .regReq id => .regReq id
  | .dataRsp data => .dataRsp data
  | .memReq call => .memReq call.addr call.len

/-- What a server sends. -/
inductive ServerPacket where
  | regRsp (id : UInt32)
  | init
  | dataReq (data : Bytes)
  | memRsp (call : Call) (data : Bytes)

/-- The message the server sends. -/
def ServerPacket.msg : ServerPacket → PtProcMsg
  | .regRsp id => .regRsp id
  | .init => .init
  | .dataReq data => .dataReq data
  | .memRsp call data => .memRsp call.addr data

/-- The request a packet of the client is, and the request a packet of the server answers. -/
def ClientPacket.call : ClientPacket → Option Call
  | .memReq call => some call
  | _ => none

/-- The call a message of the server replies to. -/
def ServerPacket.call : ServerPacket → Option Call
  | .memRsp call _ => some call
  | _ => none

/-- What is in a response channel: the data, and the request that was answered with it. -/
structure Reply where
  data : Bytes
  call : Option Call
  deriving DecidableEq

/-- `ProcCtrl`.
SRC: client_proc.rs:48-51 -/
inductive ProcCtrl where
  | init
  | proc (data : Bytes)

/-- Where a worker is: at `proc_rx.recv()`, in `async_decode` or in one of its calls of `read_mem`,
before and after `rx.recv()`.  A worker is over when its loop has ended, and also when it has
panicked. -/
inductive WorkerPhase where
  | idle
  | decoding
  | waiting (call : Call)
  | received (call : Call) (rst : Option Reply)
  | ended
  deriving DecidableEq

/-- A worker that has taken a chunk.  There is no decoder for an empty one, and `unwrap` panics.
SRC: client_proc.rs:63-72, decode_proc/mod.rs:102 -/
def WorkerPhase.ofChunk (data : Bytes) : WorkerPhase := if data = [] then .ended else .decoding

/-- The call of `read_mem` a worker is in. -/
def WorkerPhase.call : WorkerPhase → Option Call
  | .waiting call => some call
  | .received call _ => some call
  | _ => none

/-- A worker with a chunk is in no call of `read_mem`. -/
@[simp] theorem WorkerPhase.call_ofChunk (data : Bytes) : (ofChunk data).call = none := by
  unfold ofChunk
  split <;> rfl

/-- A worker with a chunk is not at `proc_rx.recv()`. -/
theorem WorkerPhase.ofChunk_ne_idle (data : Bytes) : ofChunk data ≠ .idle := by
  unfold ofChunk
  split <;> simp

/-- A chunk that is not empty is decoded. -/
theorem WorkerPhase.ofChunk_of_ne {data : Bytes} (h : data ≠ []) : ofChunk data = .decoding :=
  if_neg h

/-- The tasks of a client with `n` workers, what they share and the wires.  `answered` records
the replies of the server, `returned` the calls that have returned. -/
structure Conn (n : ℕ) where
  workers : Fin n → WorkerPhase
  nextChan : ℕ
  memReq : List Call
  forward : Option Call
  memReqLst : HashMap Usize ℕ
  slots : ℕ → Option Reply
  wireOut : List ClientPacket
  wireIn : List ServerPacket
  ctrl : List ProcCtrl
  listening : Bool
  answered : List (Call × Bytes)
  returned : List (Call × Option Reply)

/-- The steps of the workers, of the forwarding task, of the receive loop and of the server. -/
inductive ConnOp (n : ℕ) where
  | takeCtrl (w : Fin n)
  | readMem (w : Fin n) (addr len : Usize)
  | recv (w : Fin n)
  | retReadMem (w : Fin n)
  | sendDataRsp (w : Fin n) (data : SparseMap)
  | dropDataRsp (w : Fin n)
  | register
  | sendMemReq
  | recvMsg
  | serverReply (data : Bytes)
  | serverSend (ctrl : ProcCtrl)

namespace Conn

variable {n : ℕ}

/-- The call that owns the receiver of the channel has not returned. -/
def ReceiverAlive (s : Conn n) (ch : ℕ) : Prop :=
  ∃ w, (s.workers w).call.map Call.chan = some ch

/-- A sender of the channel is in the queue of requests or in the map. -/
def SenderAlive (s : Conn n) (ch : ℕ) : Prop :=
  (∃ c ∈ s.memReq, c.chan = ch) ∨ ∃ addr ∈ s.memReqLst.keys, s.memReqLst.lookup addr = some ch

/-- Whether a receiver is alive is decided by asking each worker. -/
instance (s : Conn n) (ch : ℕ) : Decidable (s.ReceiverAlive ch) :=
  inferInstanceAs (Decidable (∃ w, (s.workers w).call.map Call.chan = some ch))

/-- Whether a sender is alive is decided by the queue and the map. -/
instance (s : Conn n) (ch : ℕ) : Decidable (s.SenderAlive ch) :=
  inferInstanceAs (Decidable ((∃ c ∈ s.memReq, c.chan = ch) ∨
    ∃ addr ∈ s.memReqLst.keys, s.memReqLst.lookup addr = some ch))

/-- The connection with one worker in another phase. -/
def setWorker (s : Conn n) (w : Fin n) (p : WorkerPhase) : Conn n :=
  { s with workers := Function.update s.workers w p }

/-- `proc_rx.recv()` of a worker; it fails when the receive loop has ended and the queue is empty.
SRC: client_proc.rs:58-62 -/
def takeCtrl (s : Conn n) (w : Fin n) : Option (Conn n) :=
  match s.workers w, s.ctrl with
  | .idle, .init :: ctrl => some { s with ctrl }
  | .idle, .proc data :: ctrl => some { s.setWorker w (.ofChunk data) with ctrl }
  | .idle, [] => if s.listening then none else some (s.setWorker w .ended)
  | _, _ => none

/-- `read_mem` up to its `rx.recv()`: the request goes into the queue with a new channel.
SRC: client_proc.rs:32-38 -/
def readMem (s : Conn n) (w : Fin n) (addr len : Usize) : Option (Conn n) :=
  match s.workers w with
  | .decoding =>
    let c : Call := ⟨s.nextChan, addr, len⟩
    some { s.setWorker w (.waiting c) with
      nextChan := s.nextChan + 1
      memReq := s.memReq ++ [c] }
  | _ => none

/-- `rx.recv()`: the reply in the channel, or an error when there is neither a reply nor a sender.
SRC: client_proc.rs:39 -/
def recv (s : Conn n) (w : Fin n) : Option (Conn n) :=
  match s.workers w with
  | .waiting c =>
    match s.slots c.chan with
    | some r =>
      some { s.setWorker w (.received c (some r)) with
        slots := Function.update s.slots c.chan none }
    | none => if s.SenderAlive c.chan then none else some (s.setWorker w (.received c none))
  | _ => none

/-- `read_mem` returns and its receiver is dropped.
SRC: client_proc.rs:39-43 -/
def retReadMem (s : Conn n) (w : Fin n) : Option (Conn n) :=
  match s.workers w with
  | .received c rst => some { s.setWorker w .decoding with returned := s.returned ++ [(c, rst)] }
  | _ => none

/-- The chunk is decoded and its result is sent.
SRC: client_proc.rs:73-88 -/
def sendDataRsp (s : Conn n) (w : Fin n) (data : SparseMap) : Option (Conn n) :=
  match s.workers w with
  | .decoding => some { s.setWorker w .idle with wireOut := s.wireOut ++ [.dataRsp data] }
  | _ => none

/-- The chunk is decoded, and `send_data` comes back with an error, which `proc_data` ignores: the
result is longer than a frame may be, or it could not be written.
SRC: client_proc.rs:73-88 -/
def dropDataRsp (s : Conn n) (w : Fin n) : Option (Conn n) :=
  match s.workers w with
  | .decoding => some (s.setWorker w .idle)
  | _ => none

/-- The forwarding task takes a request and puts its channel into the map, in the place of the
one that was there for the address.
SRC: client_proc.rs:113-117 -/
def register (s : Conn n) : Option (Conn n) :=
  match s.memReq, s.forward with
  | c :: memReq, none =>
    some { s with memReq, forward := some c, memReqLst := s.memReqLst.insert c.addr c.chan }
  | _, _ => none

/-- The forwarding task sends the request.
SRC: client_proc.rs:119-125 -/
def sendMemReq (s : Conn n) : Option (Conn n) :=
  match s.forward with
  | some c => some { s with forward := none, wireOut := s.wireOut ++ [.memReq c] }
  | none => none

/-- `x.send(data)` of the receive loop: an error ends the loop, a full channel blocks it.
SRC: client_proc.rs:161-165 -/
def deliver (s : Conn n) (ch : ℕ) (r : Reply) : Option (Conn n) :=
  if s.ReceiverAlive ch then
    match s.slots ch with
    | none => some { s with slots := Function.update s.slots ch (some r) }
    | some _ => none
  else some { s with listening := false }

/-- What the receive loop does with a message.
SRC: client_proc.rs:145-170 -/
def handleMsg (s : Conn n) (msg : PtProcMsg) (call : Option Call) : Option (Conn n) :=
  match msg with
  | .init => some { s with ctrl := s.ctrl ++ [.init] }
  | .regRsp _ => some s
  | .dataReq data => some { s with ctrl := s.ctrl ++ [.proc data] }
  | .memRsp addr data =>
    match s.memReqLst.lookup addr with
    | some ch => s.deliver ch ⟨data, call⟩
    | none => some s
  -- `unimplemented!`
  | _ => some { s with listening := false }

/-- One round of the receive loop.
SRC: client_proc.rs:143-171 -/
def recvMsg (s : Conn n) : Option (Conn n) :=
  match s.wireIn with
  | p :: wireIn => if s.listening then handleMsg { s with wireIn } p.msg p.call else none
  | [] => none

/-- The server takes a message of the client; a memory request it answers with `data`.
SRC: client_agent.rs:115-155 -/
def serverReply (s : Conn n) (data : Bytes) : Option (Conn n) :=
  match s.wireOut with
  | .regReq id :: wireOut => some { s with wireOut, wireIn := s.wireIn ++ [.regRsp id] }
  | .dataRsp _ :: wireOut => some { s with wireOut }
  | .memReq c :: wireOut =>
    some { s with
      wireOut
      wireIn := s.wireIn ++ [.memRsp c data]
      answered := s.answered ++ [(c, data)] }
  | [] => none

/-- The server sends a chunk, or tells the client to begin anew.
SRC: client_agent.rs:165-169 -/
def serverSend (s : Conn n) (ctrl : ProcCtrl) : Conn n :=
  match ctrl with
  | .init => { s with wireIn := s.wireIn ++ [.init] }
  | .proc data => { s with wireIn := s.wireIn ++ [.dataReq data] }

end Conn

/-- A client with `n` workers and its server; the source has two workers.
SRC: client_proc.rs:92-175 -/
def connMachine (n : ℕ) : Machine (Conn n) (ConnOp n) where
  init := {
    workers := fun _ => .idle
    nextChan := 0
    memReq := []
    forward := none
    memReqLst := ∅
    slots := fun _ => none
    wireOut := [.regReq 0]
    wireIn := []
    ctrl := []
    listening := true
    answered := []
    returned := [] }
  step s
    | .takeCtrl w => s.takeCtrl w
    | .readMem w addr len => s.readMem w addr len
    | .recv w => s.recv w
    | .retReadMem w => s.retReadMem w
    | .sendDataRsp w data => s.sendDataRsp w data
    | .dropDataRsp w => s.dropDataRsp w
    | .register => s.register
    | .sendMemReq => s.sendMemReq
    | .recvMsg => s.recvMsg
    | .serverReply data => s.serverReply data
    | .serverSend ctrl => some (s.serverSend ctrl)

/-! ## The calls that wait for their reply -/

namespace Conn

variable {n : ℕ}

/-- The requests between the map and the receive loop. -/
def inFlight (s : Conn n) : List Call :=
  s.forward.toList ++ (s.wireOut.filterMap ClientPacket.call ++
    s.wireIn.filterMap ServerPacket.call)

/-- The requests whose reply has not come to the receive loop. -/
def pending (s : Conn n) : List Call := s.memReq ++ s.inFlight

/-- The call that owns the channel waits, and no reply is in it. -/
def Waits (s : Conn n) (ch : ℕ) : Prop :=
  s.slots ch = none ∧ ∃ w c, s.workers w = .waiting c ∧ c.chan = ch

/-- No registration takes the place of the channel of a call that waits. -/
def NoOverwrite (s : Conn n) : ConnOp n → Prop
  | .register => ∀ c ∈ s.memReq.head?, ∀ ch, s.memReqLst.lookup c.addr = some ch → ¬ s.Waits ch
  | _ => True

/-! ## What a step can do -/

section Cases

variable {s t : Conn n} {w : Fin n}

/-- A worker at `proc_rx.recv()` takes an `Init` or a chunk, or it ends behind the receive loop. -/
theorem takeCtrl_cases (h : s.takeCtrl w = some t) :
    s.workers w = .idle ∧
      ((∃ ctrl, s.ctrl = .init :: ctrl ∧ t = { s with ctrl }) ∨
        (∃ data ctrl, s.ctrl = .proc data :: ctrl ∧
          t = { s.setWorker w (.ofChunk data) with ctrl }) ∨
        (s.ctrl = [] ∧ s.listening = false ∧ t = s.setWorker w .ended)) := by
  unfold takeCtrl at h
  split at h
  · next ctrl hw hctrl => exact ⟨hw, .inl ⟨ctrl, hctrl, (Option.some.inj h).symm⟩⟩
  · next data ctrl hw hctrl =>
    exact ⟨hw, .inr (.inl ⟨data, ctrl, hctrl, (Option.some.inj h).symm⟩)⟩
  · next hw hctrl =>
    obtain ⟨hlistening, h⟩ := Option.ite_none_left_eq_some.mp h
    exact ⟨hw, .inr (.inr ⟨hctrl, by simpa using hlistening, (Option.some.inj h).symm⟩)⟩
  · cases h

/-- A worker that decodes makes a channel and asks for its memory. -/
theorem readMem_cases {addr len : Usize} (h : s.readMem w addr len = some t) :
    s.workers w = .decoding ∧
      t = { s.setWorker w (.waiting ⟨s.nextChan, addr, len⟩) with
        nextChan := s.nextChan + 1
        memReq := s.memReq ++ [⟨s.nextChan, addr, len⟩] } := by
  unfold readMem at h
  split at h
  · next hw => exact ⟨hw, (Option.some.inj h).symm⟩
  · cases h

/-- A call takes the reply out of its channel, or finds that no sender is left. -/
theorem recv_cases (h : s.recv w = some t) :
    ∃ c, s.workers w = .waiting c ∧
      ((∃ r, s.slots c.chan = some r ∧
          t = { s.setWorker w (.received c (some r)) with
            slots := Function.update s.slots c.chan none }) ∨
        (s.slots c.chan = none ∧ ¬ s.SenderAlive c.chan ∧
          t = s.setWorker w (.received c none))) := by
  unfold recv at h
  split at h
  · next c hw =>
    refine ⟨c, hw, ?_⟩
    split at h
    · next r hslot => exact .inl ⟨r, hslot, (Option.some.inj h).symm⟩
    · next hslot =>
      obtain ⟨hdead, h⟩ := Option.ite_none_left_eq_some.mp h
      exact .inr ⟨hslot, hdead, (Option.some.inj h).symm⟩
  · cases h

/-- A call behind its `rx.recv()` returns to the decoder. -/
theorem retReadMem_cases (h : s.retReadMem w = some t) :
    ∃ c rst, s.workers w = .received c rst ∧
      t = { s.setWorker w .decoding with returned := s.returned ++ [(c, rst)] } := by
  unfold retReadMem at h
  split at h
  · next c rst hw => exact ⟨c, rst, hw, (Option.some.inj h).symm⟩
  · cases h

/-- A worker that decodes sends its result and is idle. -/
theorem sendDataRsp_cases {data : SparseMap} (h : s.sendDataRsp w data = some t) :
    s.workers w = .decoding ∧
      t = { s.setWorker w .idle with wireOut := s.wireOut ++ [.dataRsp data] } := by
  unfold sendDataRsp at h
  split at h
  · next hw => exact ⟨hw, (Option.some.inj h).symm⟩
  · cases h

/-- A worker that decodes is idle without its result on the wire. -/
theorem dropDataRsp_cases (h : s.dropDataRsp w = some t) :
    s.workers w = .decoding ∧ t = s.setWorker w .idle := by
  unfold dropDataRsp at h
  split at h
  · next hw => exact ⟨hw, (Option.some.inj h).symm⟩
  · cases h

/-- The forwarding task has the first request in hand, and its channel is in the map. -/
theorem register_cases (h : s.register = some t) :
    ∃ c memReq, s.memReq = c :: memReq ∧ s.forward = none ∧
      t = { s with memReq, forward := some c,
                   memReqLst := s.memReqLst.insert c.addr c.chan } := by
  unfold register at h
  split at h
  · next c memReq hreq hforward => exact ⟨c, memReq, hreq, hforward, (Option.some.inj h).symm⟩
  · cases h

/-- The request in hand goes on the wire. -/
theorem sendMemReq_cases (h : s.sendMemReq = some t) :
    ∃ c, s.forward = some c ∧
      t = { s with forward := none, wireOut := s.wireOut ++ [.memReq c] } := by
  unfold sendMemReq at h
  split at h
  · next c hforward => exact ⟨c, hforward, (Option.some.inj h).symm⟩
  · cases h

/-- A reply is put into the empty channel of a call, or the receive loop ends. -/
theorem deliver_cases {ch : ℕ} {r : Reply} (h : s.deliver ch r = some t) :
    (s.ReceiverAlive ch ∧ s.slots ch = none ∧
        t = { s with slots := Function.update s.slots ch (some r) }) ∨
      (¬ s.ReceiverAlive ch ∧ t = { s with listening := false }) := by
  unfold deliver at h
  split at h
  · next halive =>
    split at h
    · next hslot => exact .inl ⟨halive, hslot, (Option.some.inj h).symm⟩
    · cases h
  · next hdead => exact .inr ⟨hdead, (Option.some.inj h).symm⟩

/-- A reply is delivered to the channel under its address, or thrown away. -/
theorem handleMsg_memRsp {addr : Usize} {data : Bytes} {call : Option Call}
    (h : s.handleMsg (.memRsp addr data) call = some t) :
    (∃ ch, s.memReqLst.lookup addr = some ch ∧ s.deliver ch ⟨data, call⟩ = some t) ∨
      (s.memReqLst.lookup addr = none ∧ t = s) := by
  simp only [handleMsg] at h
  split at h
  · next ch hch => exact .inl ⟨ch, hch, h⟩
  · next hnone => exact .inr ⟨hnone, (Option.some.inj h).symm⟩

/-- A round of the receive loop takes the first message off the wire. -/
theorem recvMsg_uncons (h : s.recvMsg = some t) :
    ∃ p wireIn, s.wireIn = p :: wireIn ∧ s.listening = true ∧
      handleMsg { s with wireIn } p.msg p.call = some t := by
  unfold recvMsg at h
  split at h
  · next p wireIn hwire =>
    obtain ⟨hlistening, h⟩ := Option.ite_none_right_eq_some.mp h
    exact ⟨p, wireIn, hwire, hlistening, h⟩
  · cases h

/-- The server answers a registration or a memory request, or takes a result. -/
theorem serverReply_cases {data : Bytes} (h : s.serverReply data = some t) :
    (∃ id wireOut, s.wireOut = .regReq id :: wireOut ∧
        t = { s with wireOut, wireIn := s.wireIn ++ [.regRsp id] }) ∨
      (∃ msg wireOut, s.wireOut = .dataRsp msg :: wireOut ∧ t = { s with wireOut }) ∨
      ∃ c wireOut, s.wireOut = .memReq c :: wireOut ∧
        t = { s with
          wireOut
          wireIn := s.wireIn ++ [.memRsp c data]
          answered := s.answered ++ [(c, data)] } := by
  unfold serverReply at h
  split at h
  · next id wireOut hout => exact .inl ⟨id, wireOut, hout, (Option.some.inj h).symm⟩
  · next msg wireOut hout => exact .inr (.inl ⟨msg, wireOut, hout, (Option.some.inj h).symm⟩)
  · next c wireOut hout => exact .inr (.inr ⟨c, wireOut, hout, (Option.some.inj h).symm⟩)
  · cases h

/-- INTERNAL: what a round of the receive loop can do: it delivers a reply to the channel under its
address, or it touches neither the channels nor the requests.
SRC: client_proc.rs:143-171 -/
theorem recvMsg_cases (h : s.recvMsg = some t) :
    ∃ p wireIn, s.wireIn = p :: wireIn ∧
      ((∃ ctrl listening, t = { s with wireIn, ctrl, listening }) ∨
        ∃ c data ch, p = .memRsp c data ∧ s.memReqLst.lookup c.addr = some ch ∧
          t = { s with wireIn, slots := Function.update s.slots ch (some ⟨data, some c⟩) }) := by
  obtain ⟨p, wireIn, hwire, -, h⟩ := recvMsg_uncons h
  refine ⟨p, wireIn, hwire, ?_⟩
  cases p with
  | regRsp id => exact .inl ⟨_, _, (Option.some.inj h).symm⟩
  | init => exact .inl ⟨_, _, (Option.some.inj h).symm⟩
  | dataReq data => exact .inl ⟨_, _, (Option.some.inj h).symm⟩
  | memRsp c data =>
    rcases handleMsg_memRsp h with ⟨ch, hlookup, hdeliver⟩ | ⟨-, rfl⟩
    · rcases deliver_cases hdeliver with ⟨-, -, rfl⟩ | ⟨-, rfl⟩
      · exact .inr ⟨c, data, ch, rfl, hlookup, rfl⟩
      · exact .inl ⟨_, _, rfl⟩
    · exact .inl ⟨_, _, rfl⟩

end Cases

end Conn

end PtkGenerator

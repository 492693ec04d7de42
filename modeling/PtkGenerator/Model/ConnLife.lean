import PtkGenerator.Model.Connection

/-!
# A client that loses its server

`recv_data` of the receive loop may come back with an error, and so may `send_data` of the
forwarding task.  Either ends its task.  The receiver of the requests goes with the forwarding task:
the requests in the queue are dropped, and the next call of `read_mem` panics in its `unwrap`.  The
map of the channels goes with the last of the two tasks.  The forwarding task also ends when nobody
is left who could call `read_mem`.
-/

set_option autoImplicit false

namespace PtkGenerator

/-- A client; `forwarding` says that the forwarding task runs. -/
structure ConnLife (n : ℕ) where
  conn : Conn n
  forwarding : Bool

/-- The steps of a client and its server, and the three ways in which the two tasks end. -/
inductive ConnLifeOp (n : ℕ) where
  | task (op : ConnOp n)
  | recvFails
  | sendFails
  | forwardEnd

/-- Whether a worker task is over. -/
def WorkerPhase.isEnded : WorkerPhase → Bool
  | .ended => true
  | _ => false

namespace ConnLife

variable {n : ℕ}

/-- `mem_req_lst` is dropped with the last task that holds it.
SRC: client_proc.rs:112-113, 160 -/
def dropMap (s : ConnLife n) : ConnLife n :=
  if s.forwarding = true ∨ s.conn.listening = true then s
  else { s with conn := { s.conn with memReqLst := ∅ } }

/-- `read_mem` up to its `rx.recv()`; without a receiver of the requests it panics, and the worker
is over.
SRC: client_proc.rs:32-38 -/
def readMem (s : ConnLife n) (w : Fin n) (addr len : Usize) : Option (ConnLife n) :=
  if s.forwarding = true then (s.conn.readMem w addr len).map fun conn => { s with conn }
  else
    match s.conn.workers w with
    | .decoding => some { s with conn := s.conn.setWorker w .ended }
    | _ => none

/-- The steps that leave the two tasks in their loops, or end the receive loop at a message. -/
def task (s : ConnLife n) : ConnOp n → Option (ConnLife n)
  | .readMem w addr len => s.readMem w addr len
  | .recvMsg => s.conn.recvMsg.map fun conn => dropMap { s with conn }
  | op => ((connMachine n).step s.conn op).map fun conn => { s with conn }

/-- `recv_data` comes back with an error.
SRC: client_proc.rs:143, 171-172 -/
def recvFails (s : ConnLife n) : Option (ConnLife n) :=
  if s.conn.listening = true then
    some (dropMap { s with conn := { s.conn with listening := false } })
  else none

/-- `send_data` of the forwarding task comes back with an error.
SRC: client_proc.rs:122-128 -/
def sendFails (s : ConnLife n) : Option (ConnLife n) :=
  match s.conn.forward with
  | some _ => some (dropMap ⟨{ s.conn with forward := none, memReq := [] }, false⟩)
  | none => none

/-- `mem_req_rx.recv()` fails: the queue is empty, and the receive loop and all workers are over.
SRC: client_proc.rs:99, 116, 133-139 -/
def forwardEnd (s : ConnLife n) : Option (ConnLife n) :=
  if s.forwarding = true ∧ s.conn.forward = none ∧ s.conn.memReq.isEmpty = true ∧
      s.conn.listening = false ∧ ∀ w, (s.conn.workers w).isEnded = true then
    some (dropMap { s with forwarding := false })
  else none

end ConnLife

/-- A client with `n` workers, up to the end of all its tasks.
SRC: client_proc.rs:31-175 -/
def connLifeMachine (n : ℕ) : Machine (ConnLife n) (ConnLifeOp n) where
  init := ⟨(connMachine n).init, true⟩
  step s
    | .task op => s.task op
    | .recvFails => s.recvFails
    | .sendFails => s.sendFails
    | .forwardEnd => s.forwardEnd

end PtkGenerator

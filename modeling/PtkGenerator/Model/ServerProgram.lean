import PtkGenerator.Model.CaptureProgram
import PtkGenerator.Model.Network
import PtkGenerator.Model.Pipeline

/-!
# `server` from the rings to its clients

`server` captures and splits as `online_proc` does, but its workers leave their ends of the channel
unused: a task of its own takes the chunks and gives them to the pool of the clients.  The task
alone holds a receiver.  It gives up when it cannot find the address to listen on, and a panic in
`decode` ends it; a splitter that sends after that panics in its `unwrap`, and with it whoever
sends to that splitter or joins it.  `main` waits for the splitters, not for the task, and the
program is over when `main` is.

`received` records the chunks that the task has taken.  The target and the device are set when the
task asks for them.
-/

set_option autoImplicit false

namespace PtkGenerator

/-- Where the task of the pool is: before its loop over the chunks, in it, or behind it; or it gave
up before it. -/
inductive PoolLoop where
  | starting
  | serving
  | ended
  | failed
  deriving DecidableEq

/-- `decode` has panicked. -/
def DecodeCall.panics : DecodeCall → Bool
  | .panicked => true
  | _ => false

/-- The steps of the network that the owner of the pool takes by calling it. -/
def NetworkOp.isCall {m : ℕ} : NetworkOp m → Bool
  | .decode (.begin _) => true
  | .getResult _ => true
  | _ => false

/-- The threads of the server with their channel, which of the splitters have panicked, the task of
the pool with the clients, `G_STOP`, and whether `main` is over. -/
structure Server (cpuNums m : ℕ) where
  threads : Pipeline cpuNums
  crashed : Fin cpuNums → Bool
  poolLoop : PoolLoop
  received : List (Chunk cpuNums)
  network : Network m
  gStop : Bool
  exited : Bool

/-- The handler of Ctrl-C, and the steps of the threads, of `main` and of the tasks. -/
inductive ServerOp (cpuNums m : ℕ) where
  | ctrlC
  | stop
  | dropTx
  | joinSpliter
  | joinWorker
  | ret
  | spliterRecv (i : Fin cpuNums)
  | spliterSend (i : Fin cpuNums)
  | spliterEnd (i : Fin cpuNums)
  | workerEnd (j : Fin (cpuNums - 1))
  | startServer (ok : Bool)
  | poolRecv
  | poolEnd
  | network (op : NetworkOp m)

variable {n m L : ℕ}

namespace Server

/-- Go on with other threads. -/
def withThreads (s : Server n m) (threads : Pipeline n) : Server n m := { s with threads }

/-- The task of the pool holds its receiver. -/
def receiverAlive (s : Server n m) : Bool :=
  match s.poolLoop with
  | .starting => true
  | .serving => !s.network.tasks.decode.panics
  | .ended => false
  | .failed => false

/-- A splitter sends the next chunk of the buffer; without a receiver the `unwrap` panics.
SRC: server.rs:114-119 -/
def spliterSend (s : Server n m) (i : Fin n) : Option (Server n m) :=
  if s.crashed i = true then none
  else if s.receiverAlive = true then (s.threads.spliterSend i).map s.withThreads
  else if (s.threads.spliters i).outgoing = [] then none
  else some { s with crashed := Function.update s.crashed i true }

/-- The splitter that `main` joins has panicked. -/
def joinsCrashed (s : Server n m) : Bool :=
  match s.threads.main with
  | .waitSpliter i =>
    if hi : i < n then s.crashed ⟨i, hi⟩ && !(s.threads.spliters ⟨i, hi⟩).txAlive else false
  | _ => false

/-- `h.join().unwrap()` of a splitter, which panics when the splitter did.
SRC: server.rs:255-266 -/
def joinSpliter (s : Server n m) : Option (Server n m) :=
  if s.joinsCrashed = true then some { s with exited := true }
  else s.threads.joinSpliter.map s.withThreads

/-- The body of a worker makes a cache and ends.
SRC: server.rs:38-56 -/
def workerEnd (s : Server n m) (j : Fin (n - 1)) : Option (Server n m) :=
  let w := s.threads.workers j
  if w.ended = false then some (s.withThreads (s.threads.setWorker j { w with ended := true }))
  else none

/-- `get_ip_addr` and `start_server`.
SRC: server.rs:83-85 -/
def startServer (s : Server n m) (ok : Bool) : Option (Server n m) :=
  if s.poolLoop = .starting then
    some { s with poolLoop := if ok then .serving else .failed }
  else none

/-- The task takes a chunk and calls `decode`.
SRC: server.rs:86-88 -/
def poolRecv (s : Server n m) : Option (Server n m) :=
  match s.poolLoop, s.threads.queue with
  | .serving, c :: queue =>
    (s.network.decode (.begin c.data)).map fun network => { s with
      threads := { s.threads with queue }
      received := s.received ++ [c]
      network }
  | _, _ => none

/-- `rx.recv()` fails, because the channel is empty and all senders are dropped.
SRC: server.rs:86 -/
def poolEnd (s : Server n m) : Option (Server n m) :=
  if s.poolLoop = .serving ∧ s.network.tasks.owned = true ∧ s.threads.queue = [] ∧
      ∀ i, (s.threads.spliters i).ended = true ∨ s.crashed i = true then
    some { s with poolLoop := .ended }
  else none

/-- A step of the clients and of the tasks of the pool, once the pool is there.
SRC: client_pool.rs:41-66 -/
def networkStep (s : Server n m) (op : NetworkOp m) : Option (Server n m) :=
  if (s.poolLoop = .serving ∨ s.poolLoop = .ended) ∧ op.isCall = false then
    ((networkMachine m).step s.network op).map fun network => { s with network }
  else none

end Server

/-- `processor`.
SRC: server.rs:139-153 -/
def serverProcessor (n m : ℕ) : Processor (Server n m) := fun s i buff size =>
  if hi : i < n then
    if size ≤ buff.length then
      if 0 < size ∧ s.crashed ⟨i, hi⟩ = true then none
      else (s.threads.processor ⟨i, hi⟩ (buff.take size)).map fun threads =>
        (s.withThreads threads, !s.gStop)
    else none
  else none

/-- What runs beside the capture, until `main` is over; `main` itself goes on behind it.
SRC: server.rs:38-127, 249-283, 344-350, 426-437 -/
def serverBeside (split : Bytes → List ℕ) (s : Setup n L (Server n m)) (op : ServerOp n m) :
    Option (Server n m) :=
  let p := s.processor
  if s.panicked = true ∨ p.exited = true then none
  else
    match op with
    | .ctrlC => some { p with gStop := true }
    | .stop => if s.capture.phase = .returned then p.threads.stop.map p.withThreads else none
    | .dropTx => p.threads.dropTx.map p.withThreads
    | .joinSpliter => p.joinSpliter
    | .joinWorker => p.threads.joinWorker.map p.withThreads
    | .ret => if p.threads.main = .completed then some { p with exited := true } else none
    | .spliterRecv i =>
      if p.crashed i = true then none else (p.threads.spliterRecv split i).map p.withThreads
    | .spliterSend i => p.spliterSend i
    | .spliterEnd i =>
      if p.crashed i = true then none else (p.threads.spliterEnd i).map p.withThreads
    | .workerEnd j => p.workerEnd j
    | .startServer ok => p.startServer ok
    | .poolRecv => p.poolRecv
    | .poolEnd => p.poolEnd
    | .network op => p.networkStep op

/-- `server` with its driver and its clients.  What a worker would decode is not asked for.
SRC: server.rs:344-437 -/
def serverProgram (n m L outLen : ℕ) [NeZero L] (split : Bytes → List ℕ) :
    Machine (Setup n L (Server n m)) (ProgramOp n (ServerOp n m)) :=
  captureProgram n L outLen (serverProcessor n m) (fun _ => true) (serverBeside split)
    ⟨(pipelineMachine n split fun _ => []).init, fun _ => false, .starting, [],
      (networkMachine m).init, false, false⟩

end PtkGenerator

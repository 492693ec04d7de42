import PtkGenerator.Model.Connection
import PtkGenerator.Model.PoolTasks

/-!
# The server and its clients

`decode` publishes the chunks of the server to its agents.  The send task of an agent takes them
out of the queue and sends them to its client, whose workers decode them, reading the memory of the
target over the connection, and send back what they have counted; the receive task of the agent
merges it into the map of the agent.

A slot of the pool has a link: the connection, the chunk in the hand of the send task and the chunks
in the hands of the workers.  What the decode of a chunk yields is up to the client, so it comes
with the step.  The owner of the pool does not call `stop`.  `given` records the chunks that
`decode` was called with, `decoded` those that were decoded with what they yielded, `unsent` what
was yielded by those whose answer could not be sent, and `lost` the chunks that `decode` dropped,
those whose send failed and the empty ones, which make a worker panic.

As in `Connection`, a step is one of a task that has a thread of its runtime, and what `read_mem`
does to the memory of its caller is left out.
-/

set_option autoImplicit false

namespace PtkGenerator

open SumMap

/-- The connection of a slot and the chunks in the hands of its tasks. -/
structure Link (n : ℕ) where
  conn : Conn n
  sending : Option Bytes
  holding : Fin n → Option Bytes

/-- The server and its clients, each with `n` workers. -/
structure Network (n : ℕ) where
  tasks : PoolTasks
  links : List (Link n)
  given : List Bytes
  decoded : List (Bytes × List Usize)
  unsent : List (List Usize)
  lost : List Bytes

/-- What a step of a client adds to the records of the network. -/
structure ClientOut where
  decoded : List (Bytes × List Usize) := []
  unsent : List (List Usize) := []
  lost : List Bytes := []

/-- The steps of the tasks of a client. -/
inductive ClientOp (n : ℕ) where
  | takeCtrl (w : Fin n)
  | readMem (w : Fin n) (addr len : Usize)
  | recv (w : Fin n)
  | retReadMem (w : Fin n)
  | sendDataRsp (w : Fin n) (ips : List Usize) (order : List (Σ _ : Usize, InsPage))
  | dropDataRsp (w : Fin n) (ips : List Usize)
  | register
  | sendMemReq
  | recvMsg

/-- The steps of the server, of the tasks of its agents and of the clients. -/
inductive NetworkOp (n : ℕ) where
  | accept
  | decode (op : DecodeOp)
  | getResult (op : CallOp)
  | closeConnection (idx : ℕ)
  | takeChunk (idx : ℕ)
  | sendDone (idx : ℕ) (ok : Bool)
  | endRecv (idx : ℕ)
  | regReq (idx : ℕ)
  | dataRsp (idx : ℕ) (msg : DataRspMsg)
  | memReq (idx : ℕ) (data : Bytes)
  | client (idx : ℕ) (op : ClientOp n)

/-- The chunk of a call of `decode`. -/
def DecodeCall.hand : DecodeCall → Option Bytes
  | .testing data _ => some data
  | .found data _ => some data
  | .exhausted data => some data
  | _ => none

namespace Link

variable {n : ℕ}

/-- A client connects.
SRC: client_proc.rs:92-141 -/
def new (n : ℕ) : Link n := ⟨(connMachine n).init, none, fun _ => none⟩

/-- The chunk that a worker takes when it takes a message. -/
def taken (l : Link n) : Option Bytes :=
  match l.conn.ctrl with
  | .proc data :: _ => some data
  | _ => none

/-- A step of a task of the client.  A worker that takes an empty chunk panics.
SRC: client_proc.rs:31-44, 56-88, 92-175 -/
def client (l : Link n) : ClientOp n → Option (Link n × ClientOut)
  | .takeCtrl w =>
    (l.conn.takeCtrl w).map fun conn =>
      if l.taken = some [] then ({ l with conn }, { lost := [[]] })
      else ({ l with conn, holding := Function.update l.holding w l.taken }, {})
  | .readMem w addr len => (l.conn.readMem w addr len).map fun conn => ({ l with conn }, {})
  | .recv w => (l.conn.recv w).map fun conn => ({ l with conn }, {})
  | .retReadMem w => (l.conn.retReadMem w).map fun conn => ({ l with conn }, {})
  | .sendDataRsp w ips order =>
    match l.holding w with
    | some chunk =>
      if Order (asyncDecodeYield ∅ ips) order then
        (l.conn.sendDataRsp w (sparsify order)).map fun conn =>
          ({ l with conn, holding := Function.update l.holding w none },
            { decoded := [(chunk, ips)] })
      else none
    | none => none
  | .dropDataRsp w ips =>
    match l.holding w with
    | some chunk =>
      (l.conn.dropDataRsp w).map fun conn =>
        ({ l with conn, holding := Function.update l.holding w none },
          { decoded := [(chunk, ips)], unsent := [ips] })
    | none => none
  | .register => l.conn.register.map fun conn => ({ l with conn }, {})
  | .sendMemReq => l.conn.sendMemReq.map fun conn => ({ l with conn }, {})
  | .recvMsg => l.conn.recvMsg.map fun conn => ({ l with conn }, {})

end Link

namespace Network

variable {n : ℕ}

/-- Replace the link of a slot. -/
def setLink (s : Network n) (idx : ℕ) (l : Link n) : Network n :=
  { s with links := s.links.set idx l }

/-- A connection is accepted.
SRC: client_pool.rs:52-62 -/
def accept (s : Network n) : Option (Network n) :=
  s.tasks.accept.map fun tasks => { s with tasks, links := s.links ++ [Link.new n] }

/-- A step of `decode`.  The chunk that it still has at its end was not published.
SRC: client_pool.rs:68-86 -/
def decode (s : Network n) (op : DecodeOp) : Option (Network n) :=
  (s.tasks.decodeStep op).map fun tasks =>
    let given := match op with
      | .begin data => s.given ++ [data]
      | _ => s.given
    let lost := match op with
      | .publish => if tasks.sides.map SendSide.rxProcData = s.tasks.sides.map SendSide.rxProcData
          then s.lost ++ s.tasks.decode.hand.toList else s.lost
      | _ => s.lost
    { s with tasks, given, lost }

/-- The send task takes the first chunk of its queue.
SRC: client_agent.rs:167-169 -/
def takeChunk (s : Network n) (idx : ℕ) : Option (Network n) :=
  match s.tasks.sides[idx]?, s.links[idx]? with
  | some q, some l =>
    (s.tasks.takeChunk idx).map fun tasks =>
      { s.setLink idx { l with sending := q.rxProcData.head? } with tasks }
  | _, _ => none

/-- `send_data` returns: the chunk is on its way, or an error ends the task.
SRC: client_agent.rs:168-178 -/
def sendDone (s : Network n) (idx : ℕ) (ok : Bool) : Option (Network n) :=
  match s.links[idx]? with
  | some l =>
    match l.sending with
    | some chunk =>
      (s.tasks.sendDone idx ok).map fun tasks =>
        if ok then
          { s.setLink idx { l with conn := l.conn.serverSend (.proc chunk), sending := none } with
            tasks }
        else
          { s.setLink idx { l with sending := none } with tasks, lost := s.lost ++ [chunk] }
    | none => none
  | none => none

/-- The receive task takes a `RegReq` and answers it.
SRC: client_agent.rs:117-124 -/
def regReq (s : Network n) (idx : ℕ) : Option (Network n) := do
  let l ← s.links[idx]?
  match l.conn.wireOut with
  | .regReq _ :: _ =>
    let pool ← s.tasks.pool.regReq idx
    let conn ← l.conn.serverReply []
    some { s.setLink idx { l with conn } with tasks := { s.tasks with pool } }
  | _ => none

/-- The receive task takes a `DataRsp` and merges it, visiting its maps in the order of `msg`.
SRC: client_agent.rs:139-155 -/
def dataRsp (s : Network n) (idx : ℕ) (msg : DataRspMsg) : Option (Network n) := do
  let l ← s.links[idx]?
  match l.conn.wireOut with
  | .dataRsp data :: _ =>
    if data = msg.data then
      let pool ← s.tasks.pool.dataRsp idx msg
      let conn ← l.conn.serverReply []
      some { s.setLink idx { l with conn } with tasks := { s.tasks with pool } }
    else none
  | _ => none

/-- The receive task takes a `MemReq` and answers it with what it reads of the target.
SRC: client_agent.rs:125-138 -/
def memReq (s : Network n) (idx : ℕ) (data : Bytes) : Option (Network n) := do
  let l ← s.links[idx]?
  let a ← s.tasks.pool.agent idx
  match a.receiving, l.conn.wireOut with
  | true, .memReq _ :: _ =>
    let conn ← l.conn.serverReply data
    some (s.setLink idx { l with conn })
  | _, _ => none

/-- A step of a client. -/
def client (s : Network n) (idx : ℕ) (op : ClientOp n) : Option (Network n) := do
  let l ← s.links[idx]?
  let (l, out) ← l.client op
  some { s.setLink idx l with
    decoded := s.decoded ++ out.decoded
    unsent := s.unsent ++ out.unsent
    lost := s.lost ++ out.lost }

/-! ## What a step can do -/

section Cases

variable {s t : Network n} {idx : ℕ}

/-- A send task that is at its queue has the first chunk of it in hand. -/
theorem takeChunk_cases (h : s.takeChunk idx = some t) :
    ∃ q l chunk rxProcData, s.tasks.sides[idx]? = some q ∧ s.links[idx]? = some l ∧
      q.sendTask = .recv ∧ q.rxProcData = chunk :: rxProcData ∧
      t = { s.setLink idx { l with sending := some chunk } with tasks := { s.tasks with
        sides := s.tasks.sides.set idx { q with rxProcData, sendTask := .sending } } } := by
  unfold takeChunk at h
  split at h
  · next q l hq hl =>
    obtain ⟨tasks, htake, rfl⟩ := Option.map_eq_some_iff.mp h
    obtain ⟨q', chunk, rxProcData, hq', htask, hrx, rfl⟩ := PoolTasks.takeChunk_cases htake
    obtain rfl := Option.some.inj (hq.symm.trans hq')
    refine ⟨q, l, chunk, rxProcData, hq, hl, htask, hrx, ?_⟩
    rw [hrx]
    rfl
  · cases h

/-- The chunk in hand goes on the wire, or it is lost and the send task ends. -/
theorem sendDone_cases {ok : Bool} (h : s.sendDone idx ok = some t) :
    ∃ q l chunk, s.tasks.sides[idx]? = some q ∧ s.links[idx]? = some l ∧
      q.sendTask = .sending ∧ l.sending = some chunk ∧
      ((ok = true ∧ t = { s.setLink idx
            { l with conn := l.conn.serverSend (.proc chunk), sending := none } with
          tasks := { s.tasks with
            sides := s.tasks.sides.set idx { q with sendTask := .recv } } }) ∨
        (ok = false ∧ t = { s.setLink idx { l with sending := none } with
          tasks := { s.tasks with
            sides := s.tasks.sides.set idx { q with sendTask := .ended } }
          lost := s.lost ++ [chunk] })) := by
  unfold sendDone at h
  split at h
  · next l hl =>
    split at h
    · next chunk hchunk =>
      obtain ⟨tasks, hdone, h⟩ := Option.map_eq_some_iff.mp h
      obtain ⟨q, hq, htask, rfl⟩ := PoolTasks.sendDone_cases hdone
      refine ⟨q, l, chunk, hq, hl, htask, hchunk, ?_⟩
      cases ok with
      | true => exact .inl ⟨rfl, h.symm⟩
      | false => exact .inr ⟨rfl, h.symm⟩
    · cases h
  · cases h

/-- The receive task takes a registration off the wire and answers it. -/
theorem regReq_cases (h : s.regReq idx = some t) :
    ∃ l id wireOut pool conn, s.links[idx]? = some l ∧ l.conn.wireOut = .regReq id :: wireOut ∧
      s.tasks.pool.regReq idx = some pool ∧ l.conn.serverReply [] = some conn ∧
      t = { s.setLink idx { l with conn } with tasks := { s.tasks with pool } } := by
  simp only [regReq, Option.bind_eq_bind, Option.bind_eq_some_iff] at h
  obtain ⟨l, hl, h⟩ := h
  split at h
  · next id wireOut hout =>
    simp only [Option.bind_eq_some_iff] at h
    obtain ⟨pool, hpool, conn, hconn, h⟩ := h
    exact ⟨l, id, wireOut, pool, conn, hl, hout, hpool, hconn, (Option.some.inj h).symm⟩
  · cases h

/-- The receive task takes an answer off the wire and merges it. -/
theorem dataRsp_cases {msg : DataRspMsg} (h : s.dataRsp idx msg = some t) :
    ∃ l wireOut pool conn, s.links[idx]? = some l ∧
      l.conn.wireOut = .dataRsp msg.data :: wireOut ∧
      s.tasks.pool.dataRsp idx msg = some pool ∧ l.conn.serverReply [] = some conn ∧
      t = { s.setLink idx { l with conn } with tasks := { s.tasks with pool } } := by
  simp only [dataRsp, Option.bind_eq_bind, Option.bind_eq_some_iff] at h
  obtain ⟨l, hl, h⟩ := h
  split at h
  · next data wireOut hout =>
    obtain ⟨hdata, h⟩ := Option.ite_none_right_eq_some.mp h
    simp only [Option.bind_eq_some_iff] at h
    obtain ⟨pool, hpool, conn, hconn, h⟩ := h
    exact ⟨l, wireOut, pool, conn, hl, hdata ▸ hout, hpool, hconn, (Option.some.inj h).symm⟩
  · cases h

/-- The receive task takes a memory request off the wire and answers it. -/
theorem memReq_cases {data : Bytes} (h : s.memReq idx data = some t) :
    ∃ l c wireOut conn, s.links[idx]? = some l ∧ l.conn.wireOut = .memReq c :: wireOut ∧
      l.conn.serverReply data = some conn ∧ t = s.setLink idx { l with conn } := by
  simp only [memReq, Option.bind_eq_bind, Option.bind_eq_some_iff] at h
  obtain ⟨l, hl, a, -, h⟩ := h
  split at h
  · next c wireOut hrecv hout =>
    simp only [Option.bind_eq_some_iff] at h
    obtain ⟨conn, hconn, h⟩ := h
    exact ⟨l, c, wireOut, conn, hl, hout, hconn, (Option.some.inj h).symm⟩
  · cases h

/-- A client takes a step, and what it puts out is recorded. -/
theorem client_cases {op : ClientOp n} (h : s.client idx op = some t) :
    ∃ l l' out, s.links[idx]? = some l ∧ l.client op = some (l', out) ∧
      t = { s.setLink idx l' with
        decoded := s.decoded ++ out.decoded
        unsent := s.unsent ++ out.unsent
        lost := s.lost ++ out.lost } := by
  simp only [client, Option.bind_eq_bind, Option.bind_eq_some_iff] at h
  obtain ⟨l, hl, ⟨l', out⟩, hclient, h⟩ := h
  exact ⟨l, l', out, hl, hclient, (Option.some.inj h).symm⟩

end Cases

end Network

/-- The server with its clients.
SRC: client_pool.rs:38-119, client_agent.rs:77-207, client_proc.rs:31-175 -/
def networkMachine (n : ℕ) : Machine (Network n) (NetworkOp n) where
  init := ⟨poolTasksMachine.init, [], [], [], [], []⟩
  step s
    | .accept => s.accept
    | .decode op => s.decode op
    | .getResult op => (s.tasks.getResult op).map fun tasks => { s with tasks }
    | .closeConnection idx => (s.tasks.closeConnection idx).map fun tasks => { s with tasks }
    | .takeChunk idx => s.takeChunk idx
    | .sendDone idx ok => s.sendDone idx ok
    | .endRecv idx => (s.tasks.pool.endRecv idx).map fun pool =>
      { s with tasks := { s.tasks with pool } }
    | .regReq idx => s.regReq idx
    | .dataRsp idx msg => s.dataRsp idx msg
    | .memReq idx data => s.memReq idx data
    | .client idx op => s.client idx op

end PtkGenerator

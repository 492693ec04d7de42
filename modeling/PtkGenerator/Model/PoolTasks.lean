import PtkGenerator.Model.ClientPool

/-!
# The pool with the queues of its agents

`decode` holds the lock of the list of clients for reading: it looks for the first client that is
not full, falls back to the first slot when there is none, and publishes the chunk to what it has
selected.  The send tasks take the chunks out of their queues meanwhile, and end when a send fails.
`decode`, `get_result` and `stop` are called by the one owner of the pool, and the accept loop
needs the lock for writing.

`SendSide` is what `Agent` leaves out of a `ClientAgent`: the queue with the send task, and whether
the client has its connection still open.  It stays when the agent has been taken out of its slot.

`stop` only asks for the abort of the tasks, and an aborted task is dropped where it awaits.  The
accept loop can have a connection in its hand by then, and a send task in its blocking `recv` takes
chunks until it awaits.
-/

set_option autoImplicit false

namespace PtkGenerator

/-- Where a send task is: at its `recv`, in `send_data`, or behind its loop. -/
inductive SendLoop where
  | recv
  | sending
  | ended
  deriving DecidableEq

/-- The queue of an agent, its send task and its connection. -/
structure SendSide where
  rxProcData : List Bytes
  sendTask : SendLoop
  isOpen : Bool

/-- Where `decode` is.  What it has selected is the slot in which the loop broke (`found`), or the
one of `nth(0)` when the loop came to its end (`exhausted`). -/
inductive DecodeCall where
  | idle
  | testing (data : Bytes) (idx : ℕ)
  | found (data : Bytes) (idx : ℕ)
  | exhausted (data : Bytes)
  | panicked

/-- The pool and the send sides of its agents, by slot; whether `stop` has aborted the accept loop,
and the number of slots whose tasks it has aborted. -/
structure PoolTasks where
  pool : Pool
  sides : List SendSide
  stopFlag : Bool
  decode : DecodeCall
  acceptAborted : Bool
  aborted : ℕ

/-- The steps of `decode`. -/
inductive DecodeOp where
  | begin (data : Bytes)
  | test
  | publish

/-- The steps of `stop`. -/
inductive StopOp where
  | storeFlag
  | abort
  | disconnect

/-- The steps of the pool, of the clients and of the tasks of the agents. -/
inductive PoolTaskOp where
  | pool (op : PoolOp)
  | closeConnection (idx : ℕ)
  | takeChunk (idx : ℕ)
  | sendDone (idx : ℕ) (ok : Bool)
  | decode (op : DecodeOp)
  | stop (op : StopOp)
  | dropAccept
  | dropSend (idx : ℕ)

/-- `is_full`.
SRC: client_agent.rs:198-203 -/
def isFull (state : ClientState) (rxProcData : List Bytes) : Bool :=
  if state ≠ .activate then true else decide (rxProcData.length = 1024)

/-- `is_disconnected`.
SRC: client_agent.rs:90-94 -/
def isDisconnected (state : ClientState) : Bool := decide (state = .disConnect)

namespace PoolTasks

/-- The owner of the pool is in none of its calls. -/
def owned (s : PoolTasks) : Bool :=
  match s.decode with
  | .idle => s.pool.call.isNone
  | _ => false

/-- One round of the accept loop, which takes the lock for writing.
SRC: client_pool.rs:52-62 -/
def accept (s : PoolTasks) : Option PoolTasks :=
  match s.decode with
  | .idle | .panicked =>
    (s.pool.accept 32).map fun pool => { s with
      pool := { pool with accepting := pool.accepting && !s.stopFlag }
      sides := s.sides ++ [⟨[], .recv, true⟩] }
  | _ => none

/-- `wait_stop` of a client: its channel is dropped, so that the send task ends at its `recv` when
the queue is empty.
SRC: client_pool.rs:114-117, client_agent.rs:77-82 -/
def waitStop (s : PoolTasks) : Option PoolTasks :=
  match s.pool.call with
  | some ⟨_, .removing (idx :: _), _, _⟩ =>
    match s.sides[idx]? with
    | some q =>
      if q.sendTask = .ended ∨ (q.sendTask = .recv ∧ q.rxProcData = []) then
        (s.pool.getResult .waitStop).map fun pool =>
          { s with pool, sides := s.sides.set idx { q with sendTask := .ended } }
      else none
    | none => none
  | _ => none

/-- The steps of `get_result`.
SRC: client_pool.rs:88-119 -/
def getResult (s : PoolTasks) (op : CallOp) : Option PoolTasks :=
  match s.decode, op with
  | .idle, .waitStop => s.waitStop
  | .idle, op => (s.pool.getResult op).map fun pool => { s with pool }
  | _, _ => none

/-- The steps of the pool and of the receive tasks. -/
def poolStep (s : PoolTasks) : PoolOp → Option PoolTasks
  | .accept => s.accept
  | .getResult op => s.getResult op
  | .regReq idx => (s.pool.regReq idx).map fun pool => { s with pool }
  | .dataRsp idx msg => (s.pool.dataRsp idx msg).map fun pool => { s with pool }
  | .endRecv idx => (s.pool.endRecv idx).map fun pool => { s with pool }

/-- The client closes its connection. -/
def closeConnection (s : PoolTasks) (idx : ℕ) : Option PoolTasks :=
  match s.sides[idx]? with
  | some q =>
    if q.isOpen then some { s with sides := s.sides.set idx { q with isOpen := false } } else none
  | none => none

/-- The send task takes a chunk and calls `send_data`.
SRC: client_agent.rs:167-169 -/
def takeChunk (s : PoolTasks) (idx : ℕ) : Option PoolTasks :=
  match s.sides[idx]? with
  | some q =>
    match q.sendTask, q.rxProcData with
    | .recv, _ :: rxProcData =>
      some { s with sides := s.sides.set idx { q with rxProcData, sendTask := .sending } }
    | _, _ => none
  | none => none

/-- `send_data` returns to the send task, which leaves its loop at an error; what is in the queue
then stays there.
SRC: client_agent.rs:170-178 -/
def sendDone (s : PoolTasks) (idx : ℕ) (ok : Bool) : Option PoolTasks :=
  match s.sides[idx]? with
  | some q =>
    match q.sendTask with
    | .sending =>
      some { s with sides := s.sides.set idx { q with sendTask := if ok then .recv else .ended } }
    | _ => none
  | none => none

/-- A round of the loop of `decode`.
SRC: client_pool.rs:74-81 -/
def test (s : PoolTasks) (data : Bytes) (idx : ℕ) : PoolTasks :=
  if idx < s.pool.clients.length then
    match s.pool.agent idx, s.sides[idx]? with
    | some a, some q =>
      if isFull a.state q.rxProcData then { s with decode := .testing data (idx + 1) }
      else { s with decode := .found data idx }
    | _, _ => { s with decode := .testing data (idx + 1) }
  else { s with decode := .exhausted data }

/-- `publish_task` of what is in the selected slot: it waits for room in the queue, and panics in
its `unwrap` when the send task has ended.
SRC: client_pool.rs:82-85, client_agent.rs:205-207 -/
def publishTo (s : PoolTasks) (data : Bytes) (idx : ℕ) : Option PoolTasks :=
  match s.pool.agent idx, s.sides[idx]? with
  | some _, some q =>
    match q.sendTask with
    | .ended => some { s with decode := .panicked }
    | _ =>
      if q.rxProcData.length < 1024 then
        some { s with
          decode := .idle
          sides := s.sides.set idx { q with rxProcData := q.rxProcData ++ [data] } }
      else none
  -- `if let Some(Some(clt)) = select` has no `else`
  | _, _ => some { s with decode := .idle }

/-- The steps of `decode`.
SRC: client_pool.rs:68-86 -/
def decodeStep (s : PoolTasks) : DecodeOp → Option PoolTasks
  | .begin data => if s.owned = true then some { s with decode := .testing data 0 } else none
  | .test =>
    match s.decode with
    | .testing data idx => some (s.test data idx)
    | _ => none
  | .publish =>
    match s.decode with
    | .found data idx => s.publishTo data idx
    -- `nth(0)`
    | .exhausted data => s.publishTo data 0
    | _ => none

/-- The steps of `stop`: the flag, the abort of the accept loop, and the clients, which are taken
out of their slots and whose tasks are aborted.
SRC: client_pool.rs:28-37, client_agent.rs:83-87 -/
def stopStep (s : PoolTasks) : StopOp → Option PoolTasks
  | .storeFlag => if s.owned = true then some { s with stopFlag := true } else none
  | .abort =>
    if s.owned = true ∧ s.stopFlag = true then some { s with acceptAborted := true } else none
  | .disconnect =>
    if s.owned = true ∧ s.stopFlag = true ∧ s.acceptAborted = true then
      some { s with
        pool := { s.pool with clients := s.pool.clients.map fun _ => none }
        aborted := s.sides.length }
    else none

/-- The aborted accept loop ends.
SRC: client_pool.rs:30 -/
def dropAccept (s : PoolTasks) : Option PoolTasks :=
  if s.acceptAborted = true then some { s with pool := { s.pool with accepting := false } }
  else none

/-- An aborted send task ends, and its chunk with it when it is in `send_data`.
SRC: client_agent.rs:85 -/
def dropSend (s : PoolTasks) (idx : ℕ) : Option PoolTasks :=
  match s.sides[idx]? with
  | some q =>
    if idx < s.aborted then
      some { s with sides := s.sides.set idx { q with sendTask := .ended } }
    else none
  | none => none

/-! ## What a step does -/

variable {s s' : PoolTasks}

/-- A step of `get_result` comes while no `decode` runs. -/
theorem getResult_cases {c : CallOp} (hs : s.getResult c = some s') :
    s.decode = .idle ∧ ((c = .waitStop ∧ s.waitStop = some s') ∨
      ∃ pool, s.pool.getResult c = some pool ∧ s' = { s with pool }) := by
  unfold getResult at hs
  split at hs
  · next hidle => exact ⟨hidle, .inl ⟨rfl, hs⟩⟩
  · next hidle _ =>
    obtain ⟨pool, hpool, rfl⟩ := Option.map_eq_some_iff.mp hs
    exact ⟨hidle, .inr ⟨pool, hpool, rfl⟩⟩
  · cases hs

/-- A step of a receive task changes the agent in one slot, and the record of the messages. -/
theorem poolStep_cases {op : PoolOp} (hs : s.poolStep op = some s') :
    (op = .accept ∧ s.accept = some s') ∨
      (op = .getResult .waitStop ∧ s.decode = .idle ∧ s.waitStop = some s') ∨
      (∃ c pool, op = .getResult c ∧ s.decode = .idle ∧ s.pool.getResult c = some pool ∧
        s' = { s with pool }) ∨
      ∃ idx a b merged, op ≠ .accept ∧ s.pool.agent idx = some a ∧
        s' = { s with pool := { s.pool.setAgent idx b with merged } } := by
  cases op with
  | accept =>
    exact .inl ⟨rfl, hs⟩
  | getResult c =>
    obtain ⟨hidle, ⟨rfl, hwait⟩ | ⟨pool, hpool, rfl⟩⟩ := getResult_cases hs
    · exact .inr (.inl ⟨rfl, hidle, hwait⟩)
    · exact .inr (.inr (.inl ⟨_, pool, rfl, hidle, hpool, rfl⟩))
  | regReq idx =>
    obtain ⟨pool, hpool, rfl⟩ := Option.map_eq_some_iff.mp hs
    obtain ⟨a, ha, rfl⟩ := Pool.regReq_cases hpool
    exact .inr (.inr (.inr ⟨idx, a, _, _, (fun h => nomatch h), ha, rfl⟩))
  | dataRsp idx msg =>
    obtain ⟨pool, hpool, rfl⟩ := Option.map_eq_some_iff.mp hs
    obtain ⟨a, rstData, ha, -, -, rfl⟩ := Pool.dataRsp_cases hpool
    exact .inr (.inr (.inr ⟨idx, a, _, _, (fun h => nomatch h), ha, rfl⟩))
  | endRecv idx =>
    obtain ⟨pool, hpool, rfl⟩ := Option.map_eq_some_iff.mp hs
    obtain ⟨a, ha, rfl⟩ := Pool.endRecv_cases hpool
    exact .inr (.inr (.inr ⟨idx, a, _, _, (fun h => nomatch h), ha, rfl⟩))

/-- A connection is accepted while no `decode` runs, with its own tasks. -/
theorem accept_cases (hs : s.accept = some s') :
    (s.decode = .idle ∨ s.decode = .panicked) ∧
      ∃ pool, s.pool.accept 32 = some pool ∧ s' = { s with
        pool := { pool with accepting := pool.accepting && !s.stopFlag }
        sides := s.sides ++ [⟨[], .recv, true⟩] } := by
  unfold accept at hs
  split at hs
  · next hidle =>
    obtain ⟨pool, hpool, rfl⟩ := Option.map_eq_some_iff.mp hs
    exact ⟨.inl hidle, pool, hpool, rfl⟩
  · next hpanicked =>
    obtain ⟨pool, hpool, rfl⟩ := Option.map_eq_some_iff.mp hs
    exact ⟨.inr hpanicked, pool, hpool, rfl⟩
  · cases hs

/-- `wait_stop` of a client goes on when its receive loop is over, and its send task is ended. -/
theorem waitStop_cases (hs : s.waitStop = some s') :
    ∃ pool idx q, s.pool.getResult .waitStop = some pool ∧ s.sides[idx]? = some q ∧
      s' = { s with pool, sides := s.sides.set idx { q with sendTask := .ended } } := by
  unfold waitStop at hs
  split at hs
  · split at hs
    · next q hq =>
      split at hs
      · obtain ⟨pool, hpool, rfl⟩ := Option.map_eq_some_iff.mp hs
        exact ⟨pool, _, q, hpool, hq, rfl⟩
      · cases hs
    · cases hs
  · cases hs

/-- A closed connection keeps its tasks. -/
theorem closeConnection_cases {idx : ℕ} (hs : s.closeConnection idx = some s') :
    ∃ q, s.sides[idx]? = some q ∧
      s' = { s with sides := s.sides.set idx { q with isOpen := false } } := by
  unfold closeConnection at hs
  split at hs
  · next q hq =>
    split at hs
    · exact ⟨q, hq, (Option.some.inj hs).symm⟩
    · cases hs
  · cases hs

/-- A send task takes the first chunk of its queue. -/
theorem takeChunk_cases {idx : ℕ} (hs : s.takeChunk idx = some s') :
    ∃ q chunk rxProcData, s.sides[idx]? = some q ∧ q.sendTask = .recv ∧
      q.rxProcData = chunk :: rxProcData ∧
      s' = { s with sides := s.sides.set idx { q with rxProcData, sendTask := .sending } } := by
  unfold takeChunk at hs
  split at hs
  · next q hq =>
    split at hs
    · next chunk rxProcData htask hrx =>
      exact ⟨q, chunk, rxProcData, hq, htask, hrx, (Option.some.inj hs).symm⟩
    · cases hs
  · cases hs

/-- A send that succeeds brings the send task back to its queue, and one that fails ends it. -/
theorem sendDone_cases {idx : ℕ} {ok : Bool} (hs : s.sendDone idx ok = some s') :
    ∃ q, s.sides[idx]? = some q ∧ q.sendTask = .sending ∧
      s' = { s with
        sides := s.sides.set idx { q with sendTask := if ok then .recv else .ended } } := by
  unfold sendDone at hs
  split at hs
  · next q hq =>
    split at hs
    · next htask => exact ⟨q, hq, htask, (Option.some.inj hs).symm⟩
    · cases hs
  · cases hs

/-- A round of the loop of `decode` finds a client, or goes on to the next slot, or comes to the
end. -/
theorem test_cases (s : PoolTasks) (data : Bytes) (idx : ℕ) :
    (idx < s.pool.clients.length ∧ s.test data idx = { s with decode := .testing data (idx + 1) }) ∨
      (∃ a q, s.pool.agent idx = some a ∧ s.sides[idx]? = some q ∧
        isFull a.state q.rxProcData = false ∧
        s.test data idx = { s with decode := .found data idx }) ∨
      (s.pool.clients.length ≤ idx ∧ s.test data idx = { s with decode := .exhausted data }) := by
  unfold test
  split
  · next hlt =>
    split
    · next a q ha hq =>
      split
      · exact .inl ⟨hlt, rfl⟩
      · next hroom => exact .inr (.inl ⟨a, q, ha, hq, by simpa using hroom, rfl⟩)
    · exact .inl ⟨hlt, rfl⟩
  · next hge => exact .inr (.inr ⟨by omega, rfl⟩)

/-- A chunk goes to the queue of an agent; without a send task there the publication panics. -/
theorem publishTo_cases {data : Bytes} {idx : ℕ} (hs : s.publishTo data idx = some s') :
    (∃ a q, s.pool.agent idx = some a ∧ s.sides[idx]? = some q ∧ q.sendTask = .ended ∧
        s' = { s with decode := .panicked }) ∨
      (∃ a q, s.pool.agent idx = some a ∧ s.sides[idx]? = some q ∧ q.sendTask ≠ .ended ∧
        q.rxProcData.length < 1024 ∧ s' = { s with
          decode := .idle
          sides := s.sides.set idx { q with rxProcData := q.rxProcData ++ [data] } }) ∨
      ((s.pool.agent idx = none ∨ s.sides[idx]? = none) ∧ s' = { s with decode := .idle }) := by
  unfold publishTo at hs
  split at hs
  · next a q ha hq =>
    split at hs
    · next hended => exact .inl ⟨a, q, ha, hq, hended, (Option.some.inj hs).symm⟩
    · next hrunning =>
      split at hs
      · next hroom => exact .inr (.inl ⟨a, q, ha, hq, hrunning, hroom, (Option.some.inj hs).symm⟩)
      · cases hs
  · next hnone =>
    refine .inr (.inr ⟨?_, (Option.some.inj hs).symm⟩)
    cases ha : s.pool.agent idx with
    | none => exact .inl rfl
    | some a =>
      cases hq : s.sides[idx]? with
      | none => exact .inr rfl
      | some q => exact absurd hq (hnone a q ha)

/-- `decode` begins when neither it nor a call of `get_result` is running. -/
theorem begin_cases {data : Bytes} (hs : s.decodeStep (.begin data) = some s') :
    s.decode = .idle ∧ s.pool.call = none ∧ s' = { s with decode := .testing data 0 } := by
  simp only [decodeStep] at hs
  split at hs
  · next howned =>
    unfold owned at howned
    split at howned
    · next hidle => exact ⟨hidle, by simpa using howned, (Option.some.inj hs).symm⟩
    · cases howned
  · cases hs

/-- `decode` asks one agent after the other. -/
theorem testStep_cases (hs : s.decodeStep .test = some s') :
    ∃ data idx, s.decode = .testing data idx ∧ s' = s.test data idx := by
  simp only [decodeStep] at hs
  split at hs
  · next data idx htesting => exact ⟨data, idx, htesting, (Option.some.inj hs).symm⟩
  · cases hs

/-- `decode` publishes to the agent it found, or to the first when no queue was free. -/
theorem publish_cases (hs : s.decodeStep .publish = some s') :
    (∃ data idx, s.decode = .found data idx ∧ s.publishTo data idx = some s') ∨
      ∃ data, s.decode = .exhausted data ∧ s.publishTo data 0 = some s' := by
  simp only [decodeStep] at hs
  split at hs
  · next data idx hfound => exact .inl ⟨data, idx, hfound, hs⟩
  · next data hexhausted => exact .inr ⟨data, hexhausted, hs⟩
  · cases hs

/-- The steps of `stop`, in their order. -/
theorem stopStep_cases {op : StopOp} (hs : s.stopStep op = some s') :
    s.owned = true ∧ ((op = .storeFlag ∧ s' = { s with stopFlag := true }) ∨
      (op = .abort ∧ s.stopFlag = true ∧ s' = { s with acceptAborted := true }) ∨
      (op = .disconnect ∧ s.stopFlag = true ∧ s' = { s with
        pool := { s.pool with clients := s.pool.clients.map fun _ => none }
        aborted := s.sides.length })) := by
  cases op with
  | storeFlag =>
    simp only [stopStep] at hs
    split at hs
    · next howned => exact ⟨howned, .inl ⟨rfl, (Option.some.inj hs).symm⟩⟩
    · cases hs
  | abort =>
    simp only [stopStep] at hs
    split at hs
    · next hcond => exact ⟨hcond.1, .inr (.inl ⟨rfl, hcond.2, (Option.some.inj hs).symm⟩)⟩
    · cases hs
  | disconnect =>
    simp only [stopStep] at hs
    split at hs
    · next hcond => exact ⟨hcond.1, .inr (.inr ⟨rfl, hcond.2.1, (Option.some.inj hs).symm⟩)⟩
    · cases hs

/-- An aborted accept loop ends by not accepting any more. -/
theorem dropAccept_cases (hs : s.dropAccept = some s') :
    s.acceptAborted = true ∧ s' = { s with pool := { s.pool with accepting := false } } := by
  unfold dropAccept at hs
  split at hs
  · next haborted => exact ⟨haborted, (Option.some.inj hs).symm⟩
  · cases hs

/-- The send task of a dropped agent ends. -/
theorem dropSend_cases {idx : ℕ} (hs : s.dropSend idx = some s') :
    ∃ q, s.sides[idx]? = some q ∧
      s' = { s with sides := s.sides.set idx { q with sendTask := .ended } } := by
  unfold dropSend at hs
  split at hs
  · next q hq =>
    split at hs
    · exact ⟨q, hq, (Option.some.inj hs).symm⟩
    · cases hs
  · cases hs

end PoolTasks

/-- The pool, the tasks of its agents and their clients.
SRC: client_pool.rs:28-119, client_agent.rs:77-207 -/
def poolTasksMachine : Machine PoolTasks PoolTaskOp where
  init := ⟨⟨[], true, none, [], []⟩, [], false, .idle, false, 0⟩
  step s
    | .pool op => s.poolStep op
    | .closeConnection idx => s.closeConnection idx
    | .takeChunk idx => s.takeChunk idx
    | .sendDone idx ok => s.sendDone idx ok
    | .decode op => s.decodeStep op
    | .stop op => s.stopStep op
    | .dropAccept => s.dropAccept
    | .dropSend idx => s.dropSend idx

namespace PoolTasks

variable {s s' : PoolTasks}

/-! ## What a step leaves alone -/

/-- The queue of a slot. -/
def queue (s : PoolTasks) (idx : ℕ) : List Bytes := (s.sides[idx]?.map SendSide.rxProcData).getD []

/-- What a step leaves alone that does not accept a connection. -/
structure Frame (op : PoolTaskOp) (s s' : PoolTasks) : Prop where
  sides : s'.sides.length = s.sides.length
  clients : s'.pool.clients.length = s.pool.clients.length
  accepting : s'.pool.accepting = s.pool.accepting ∨
    (s'.pool.accepting = false ∧ s.acceptAborted = true)
  stopFlag : s.stopFlag = true → s'.stopFlag = true
  acceptAborted : s'.acceptAborted = s.acceptAborted ∨ s'.stopFlag = true
  decode : (∀ op', op ≠ .decode op') → s'.decode = s.decode
  queue : op ≠ .decode .publish → ∀ j, s'.queue j <:+ s.queue j

/-- A slot whose queue is shortened leaves the other queues as they are. -/
theorem queue_set {idx : ℕ} {q : SendSide} (hq : s.sides[idx]? = some q) (q' : SendSide)
    (h : q'.rxProcData <:+ q.rxProcData) (j : ℕ) :
    ({ s with sides := s.sides.set idx q' } : PoolTasks).queue j <:+ s.queue j := by
  unfold queue
  by_cases hij : idx = j
  · subst hij
    rw [List.getElem?_set_self (List.getElem?_eq_some_iff.mp hq).1, hq]
    exact h
  · rw [List.getElem?_set_ne hij]

/-- A step of a send task, or of the client at the other end. -/
theorem Frame.of_set {op : PoolTaskOp} {idx : ℕ} {q : SendSide} (hq : s.sides[idx]? = some q)
    (q' : SendSide) (h : q'.rxProcData <:+ q.rxProcData) :
    Frame op s { s with sides := s.sides.set idx q' } :=
  ⟨List.length_set, rfl, .inl rfl, id, .inl rfl, fun _ => rfl, fun _ => queue_set hq q' h⟩

/-- A step of `decode` before the publication. -/
theorem Frame.of_decode (op : DecodeOp) (s : PoolTasks) (call : DecodeCall) :
    Frame (.decode op) s { s with decode := call } :=
  ⟨rfl, rfl, .inl rfl, id, .inl rfl, fun h => absurd rfl (h op), fun _ _ => List.suffix_rfl⟩

/-- INTERNAL: **no step makes the list of clients shorter**, and only `accept` makes it longer; and
no step but a publication puts chunks on queues.
SRC: client_pool.rs:28-37, 68-119; client_agent.rs:77-87, 166-207 -/
theorem frame {op : PoolTaskOp} (hop : op ≠ .pool .accept)
    (hs : poolTasksMachine.step s op = some s') : Frame op s s' := by
  cases op with
  | pool op =>
    rcases poolStep_cases hs with ⟨rfl, -⟩ | ⟨-, -, hw⟩ | ⟨c, pool, -, -, hpool, rfl⟩ |
      ⟨idx, a, b, merged, -, -, rfl⟩
    · exact absurd rfl hop
    · obtain ⟨pool, idx, q, hpool, hq, rfl⟩ := waitStop_cases hw
      obtain ⟨haccepting, hlength⟩ := Pool.getResult_frame hpool
      exact ⟨List.length_set, hlength, .inl haccepting, id, .inl rfl, fun _ => rfl,
        fun _ => queue_set hq { q with sendTask := .ended } List.suffix_rfl⟩
    · obtain ⟨haccepting, hlength⟩ := Pool.getResult_frame hpool
      exact ⟨rfl, hlength, .inl haccepting, id, .inl rfl, fun _ => rfl,
        fun _ _ => List.suffix_rfl⟩
    · exact ⟨rfl, List.length_set, .inl rfl, id, .inl rfl, fun _ => rfl,
        fun _ _ => List.suffix_rfl⟩
  | closeConnection idx =>
    obtain ⟨q, hq, rfl⟩ := closeConnection_cases hs
    exact .of_set hq { q with isOpen := false } List.suffix_rfl
  | takeChunk idx =>
    obtain ⟨q, chunk, rxProcData, hq, -, hrx, rfl⟩ := takeChunk_cases hs
    apply Frame.of_set hq { q with rxProcData, sendTask := .sending }
    rw [hrx]
    exact List.suffix_cons chunk rxProcData
  | sendDone idx ok =>
    obtain ⟨q, hq, -, rfl⟩ := sendDone_cases hs
    exact .of_set hq { q with sendTask := if ok then .recv else .ended } List.suffix_rfl
  | decode op =>
    cases op with
    | begin data =>
      obtain ⟨-, -, rfl⟩ := begin_cases hs
      exact .of_decode (.begin data) s (.testing data 0)
    | test =>
      obtain ⟨data, idx, -, rfl⟩ := testStep_cases hs
      rcases test_cases s data idx with ⟨-, heq⟩ | ⟨a, q, -, -, -, heq⟩ | ⟨-, heq⟩
      · rw [heq]
        exact .of_decode .test s (.testing data (idx + 1))
      · rw [heq]
        exact .of_decode .test s (.found data idx)
      · rw [heq]
        exact .of_decode .test s (.exhausted data)
    | publish =>
      obtain ⟨data, idx, hpublish⟩ : ∃ data idx, s.publishTo data idx = some s' := by
        rcases publish_cases hs with ⟨data, idx, -, hpublish⟩ | ⟨data, -, hpublish⟩
        · exact ⟨data, idx, hpublish⟩
        · exact ⟨data, 0, hpublish⟩
      rcases publishTo_cases hpublish with ⟨a, q, -, -, -, rfl⟩ | ⟨a, q, -, -, -, -, rfl⟩ | ⟨-, rfl⟩
      · exact .of_decode .publish s .panicked
      · exact ⟨List.length_set, rfl, .inl rfl, id, .inl rfl, fun h => absurd rfl (h .publish),
          fun h => absurd rfl h⟩
      · exact .of_decode .publish s .idle
  | stop op =>
    obtain ⟨-, ⟨-, rfl⟩ | ⟨-, hflag, rfl⟩ | ⟨-, -, rfl⟩⟩ := stopStep_cases hs
    · exact ⟨rfl, rfl, .inl rfl, fun _ => rfl, .inl rfl, fun _ => rfl, fun _ _ => List.suffix_rfl⟩
    · exact ⟨rfl, rfl, .inl rfl, id, .inr hflag, fun _ => rfl, fun _ _ => List.suffix_rfl⟩
    · exact ⟨rfl, List.length_map _, .inl rfl, id, .inl rfl, fun _ => rfl,
        fun _ _ => List.suffix_rfl⟩
  | dropAccept =>
    obtain ⟨haborted, rfl⟩ := dropAccept_cases hs
    exact ⟨rfl, rfl, .inr ⟨rfl, haborted⟩, id, .inl rfl, fun _ => rfl, fun _ _ => List.suffix_rfl⟩
  | dropSend idx =>
    obtain ⟨q, hq, rfl⟩ := dropSend_cases hs
    exact .of_set hq { q with sendTask := .ended } List.suffix_rfl

end PoolTasks

end PtkGenerator

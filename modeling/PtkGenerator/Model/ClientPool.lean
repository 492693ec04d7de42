import PtkGenerator.Library.Machine
import PtkGenerator.Model.ClientAgent

/-!
# The pool of clients

The accept loop of `ClientPool` appends an agent for each connection, and the receive task of an
agent merges the `DataRsp` messages of its client.  `get_result` holds the lock of the list of
clients from its beginning to its end, so no agent is appended meanwhile; the receive tasks go on,
and each await of the loop is a place where they do.

`set_state` is an `async fn`, and the receive task calls it behind its loop without an await, so
the end of the task leaves the state of the agent as it was.
-/

set_option autoImplicit false

namespace PtkGenerator

open SumMap

/-- Whether a list is an order of a map is decided by comparing the entries. -/
instance (m : PageMap) (order : List (Σ _ : Usize, InsPage)) : Decidable (Order m order) :=
  inferInstanceAs (Decidable ((order : Multiset (Σ _ : Usize, InsPage)) = m.entries))

/-- A `DataRsp` message with the order in which its maps are visited; its offsets lie in a
page. -/
structure DataRspMsg where
  data : SparseMap
  inPage : data.InPage
  visit : Visit
  visits : Visits data visit

/-- What the pool and the receive task share of a `ClientAgent`. -/
structure Agent where
  state : ClientState
  receiving : Bool
  rstData : PageMap

/-- `ClientAgent::new`.
SRC: client_agent.rs:92-110 -/
def Agent.new : Agent := ⟨.connected, true, ∅⟩

/-- Where `get_result` is in its loop over the clients, or in the one that removes some. -/
inductive CallPhase where
  | testing
  | fetching
  | checking
  | removing (rest : List ℕ)

/-- The variables of `get_result`. -/
structure GetResult where
  idx : ℕ
  phase : CallPhase
  rst : PageMap
  disConnected : List ℕ

/-- The pool.  `merged` and `returned` record the messages that were merged and the maps that
`get_result` has returned. -/
structure Pool where
  clients : List (Option Agent)
  accepting : Bool
  call : Option GetResult
  merged : List SparseMap
  returned : List PageMap

/-- The steps of `get_result`. -/
inductive CallOp where
  | begin
  | hasResult
  | fetchResult (order : List (Σ _ : Usize, InsPage))
  | isDisconnected
  | waitStop
  | ret

/-- The steps of the accept loop, of the receive task of a client and of `get_result`. -/
inductive PoolOp where
  | accept
  | regReq (idx : ℕ)
  | dataRsp (idx : ℕ) (msg : DataRspMsg)
  | endRecv (idx : ℕ)
  | getResult (op : CallOp)

namespace Pool

/-- The agent in a slot of the list. -/
def agent (s : Pool) (idx : ℕ) : Option Agent := s.clients[idx]?.join

/-- Replace the agent in a slot. -/
def setAgent (s : Pool) (idx : ℕ) (a : Agent) : Pool :=
  { s with clients := s.clients.set idx (some a) }

/-- One round of the accept loop; it ends when there are more than `limit` slots.
SRC: client_pool.rs:52-62 -/
def accept (limit : ℕ) (s : Pool) : Option Pool :=
  if s.accepting = true ∧ s.call.isNone then
    let clients := s.clients ++ [some Agent.new]
    some { s with clients, accepting := decide (clients.length ≤ limit) }
  else none

/-- The `RegReq` arm.
SRC: client_agent.rs:117-124 -/
def regReq (s : Pool) (idx : ℕ) : Option Pool :=
  match s.agent idx with
  | some a =>
    if a.receiving then some (s.setAgent idx { a with state := .activate }) else none
  | none => none

/-- The `DataRsp` arm; a panic ends the task.
SRC: client_agent.rs:139-155 -/
def dataRsp (s : Pool) (idx : ℕ) (msg : DataRspMsg) : Option Pool :=
  match s.agent idx with
  | some a =>
    if a.receiving then
      match PtkGenerator.dataRsp a.rstData msg.visit with
      | .done rstData =>
        some { s.setAgent idx { a with rstData } with merged := s.merged ++ [msg.data] }
      | .panicked rstData => some (s.setAgent idx { a with rstData, receiving := false })
    else none
  | none => none

/-- The receive task ends: the connection was closed, or a message was not understood.
SRC: client_agent.rs:156-163 -/
def endRecv (s : Pool) (idx : ℕ) : Option Pool :=
  match s.agent idx with
  | some a => if a.receiving then some (s.setAgent idx { a with receiving := false }) else none
  | none => none

/-- The steps of `get_result` up to the call of `has_result` of the next client.
SRC: client_pool.rs:88-95 -/
def callHasResult (s : Pool) (c : GetResult) : Pool :=
  if c.idx < s.clients.length then
    match s.agent c.idx with
    | some a =>
      if hasResult a.rstData then { s with call := some { c with phase := .fetching } }
      else { s with call := some { c with phase := .checking } }
    | none => { s with call := some { c with idx := c.idx + 1 } }
  else { s with call := some { c with phase := .removing c.disConnected } }

/-- `fetch_result` and the merge of what it returned.
SRC: client_pool.rs:96-106 -/
def callFetchResult (s : Pool) (c : GetResult) (order : List (Σ _ : Usize, InsPage)) :
    Option Pool :=
  match s.agent c.idx with
  | some a =>
    let (r, rstData) := PtkGenerator.fetchResult a.rstData
    if Order r order then
      some { s.setAgent c.idx { a with rstData } with
        call := some { c with phase := .checking, rst := c.rst.merge order } }
    else none
  | none => none

/-- The call of `is_disconnected`.
SRC: client_pool.rs:107-110 -/
def callIsDisconnected (s : Pool) (c : GetResult) : Option Pool :=
  match s.agent c.idx with
  | some a =>
    let disConnected :=
      if a.state = .disConnect then c.disConnected ++ [c.idx] else c.disConnected
    some { s with call := some { c with phase := .testing, idx := c.idx + 1, disConnected } }
  | none => none

/-- A disconnected client is taken out and `wait_stop` waits for its tasks.
SRC: client_pool.rs:114-117, client_agent.rs:77-82 -/
def callWaitStop (s : Pool) (c : GetResult) (idx : ℕ) (rest : List ℕ) : Option Pool :=
  match s.agent idx with
  | some a =>
    if a.receiving then none
    else some { s with
      clients := s.clients.set idx none
      call := some { c with phase := .removing rest } }
  | none => none

/-- The steps of `get_result`.
SRC: client_pool.rs:88-119 -/
def getResult (s : Pool) (op : CallOp) : Option Pool :=
  match s.call, op with
  | none, .begin => some { s with call := some ⟨0, .testing, ∅, []⟩ }
  | some c, op =>
    match c.phase, op with
    | .testing, .hasResult => some (s.callHasResult c)
    | .fetching, .fetchResult order => s.callFetchResult c order
    | .checking, .isDisconnected => s.callIsDisconnected c
    | .removing (idx :: rest), .waitStop => s.callWaitStop c idx rest
    | .removing [], .ret => some { s with call := none, returned := s.returned ++ [c.rst] }
    | _, _ => none
  | _, _ => none

/-! ## What a step does -/

/-- The agent of a slot is in that slot. -/
theorem getElem?_of_agent {s : Pool} {idx : ℕ} {a : Agent} (h : s.agent idx = some a) :
    s.clients[idx]? = some (some a) := by
  unfold agent at h
  cases hc : s.clients[idx]? with
  | none =>
    rw [hc] at h
    cases h
  | some c =>
    rw [hc] at h
    exact congrArg some h

/-- The agent of a slot is one of the clients. -/
theorem mem_of_agent {s : Pool} {idx : ℕ} {a : Agent} (h : s.agent idx = some a) :
    some a ∈ s.clients := List.mem_of_getElem? (getElem?_of_agent h)

/-- An accepted connection has its agent in a new slot. -/
theorem accept_cases {s t : Pool} {limit : ℕ} (h : s.accept limit = some t) :
    s.accepting = true ∧ s.call = none ∧ t = { s with
      clients := s.clients ++ [some Agent.new]
      accepting := decide (s.clients.length + 1 ≤ limit) } := by
  unfold accept at h
  split at h
  · next hcond =>
    refine ⟨hcond.1, by simpa using hcond.2, ?_⟩
    rw [← Option.some.inj h, List.length_append, List.length_singleton]
  · cases h

/-- A registration activates the agent and does nothing else. -/
theorem regReq_cases {s t : Pool} {idx : ℕ} (h : s.regReq idx = some t) :
    ∃ a, s.agent idx = some a ∧ t = s.setAgent idx { a with state := .activate } := by
  unfold regReq at h
  split at h
  · next a ha =>
    split at h
    · exact ⟨a, ha, (Option.some.inj h).symm⟩
    · cases h
  · cases h

/-- The end of a receive loop is marked at its agent only. -/
theorem endRecv_cases {s t : Pool} {idx : ℕ} (h : s.endRecv idx = some t) :
    ∃ a, s.agent idx = some a ∧ t = s.setAgent idx { a with receiving := false } := by
  unfold endRecv at h
  split at h
  · next a ha =>
    split at h
    · exact ⟨a, ha, (Option.some.inj h).symm⟩
    · cases h
  · cases h

/-- A message whose offsets lie in a page is merged to its end. -/
theorem dataRsp_cases {s t : Pool} {idx : ℕ} {msg : DataRspMsg} (h : s.dataRsp idx msg = some t) :
    ∃ a rstData, s.agent idx = some a ∧
      PtkGenerator.dataRsp a.rstData msg.visit = .done rstData ∧
      rstData.read = a.rstData.read + msg.data.read ∧
      t = { s.setAgent idx { a with rstData } with merged := s.merged ++ [msg.data] } := by
  unfold dataRsp at h
  split at h
  · next a ha =>
    obtain ⟨rstData, hdone, hread⟩ := dataRsp_visits msg.visits msg.inPage a.rstData
    simp only [hdone] at h
    split at h
    · exact ⟨a, rstData, ha, hdone, hread, (Option.some.inj h).symm⟩
    · cases h
  · cases h

/-- What one step of `get_result` does, in each of its places. -/
theorem getResult_cases {s t : Pool} {op : CallOp} (h : s.getResult op = some t) :
    (s.call = none ∧ t = { s with call := some ⟨0, .testing, ∅, []⟩ }) ∨
    ∃ c, s.call = some c ∧
      ((c.phase = .testing ∧ t = s.callHasResult c) ∨
       (∃ order, c.phase = .fetching ∧ s.callFetchResult c order = some t) ∨
       (c.phase = .checking ∧ s.callIsDisconnected c = some t) ∨
       (∃ idx rest, c.phase = .removing (idx :: rest) ∧ s.callWaitStop c idx rest = some t) ∨
       (c.phase = .removing [] ∧
          t = { s with call := none, returned := s.returned ++ [c.rst] })) := by
  unfold getResult at h
  cases hc : s.call with
  | none =>
    cases op <;> simp only [hc] at h
    case begin => exact .inl ⟨rfl, (Option.some.inj h).symm⟩
    all_goals cases h
  | some c =>
    refine .inr ⟨c, rfl, ?_⟩
    cases hp : c.phase with
    | testing =>
      cases op <;> simp only [hc, hp] at h
      case hasResult => exact .inl ⟨rfl, (Option.some.inj h).symm⟩
      all_goals cases h
    | fetching =>
      cases op <;> simp only [hc, hp] at h
      case fetchResult order => exact .inr (.inl ⟨order, rfl, h⟩)
      all_goals cases h
    | checking =>
      cases op <;> simp only [hc, hp] at h
      case isDisconnected => exact .inr (.inr (.inl ⟨rfl, h⟩))
      all_goals cases h
    | removing rest =>
      cases rest with
      | nil =>
        cases op <;> simp only [hc, hp] at h
        case ret => exact .inr (.inr (.inr (.inr ⟨rfl, (Option.some.inj h).symm⟩)))
        all_goals cases h
      | cons idx rest =>
        cases op <;> simp only [hc, hp] at h
        case waitStop => exact .inr (.inr (.inr (.inl ⟨idx, rest, rfl, h⟩)))
        all_goals cases h

/-- INTERNAL: what the call of `has_result` leads to: a fetch only from a map that is empty.
SRC: client_pool.rs:91-95, client_agent.rs:186-189 -/
theorem callHasResult_eq {s : Pool} {c : GetResult} (hp : c.phase = .testing) :
    ∃ c', s.callHasResult c = { s with call := some c' } ∧ c'.rst = c.rst ∧
      c'.disConnected = c.disConnected ∧
      (c'.phase = .fetching → ∀ a, s.agent c'.idx = some a → a.rstData = ∅) ∧
      ∀ rest, c'.phase = .removing rest → rest = c.disConnected := by
  unfold Pool.callHasResult
  split
  · cases ha : s.agent c.idx with
    | none =>
      refine ⟨_, rfl, rfl, rfl, fun hf => ?_, fun rest hr => ?_⟩
      · cases hp.symm.trans hf
      · cases hp.symm.trans hr
    | some a =>
      dsimp only
      split
      · next hres =>
        refine ⟨_, rfl, rfl, rfl, fun _ b hb => ?_, fun rest hr => CallPhase.noConfusion hr⟩
        obtain rfl : a = b := Option.some.inj (ha.symm.trans hb)
        exact (hasResult_iff _).mp hres
      · exact ⟨_, rfl, rfl, rfl, fun hf => CallPhase.noConfusion hf,
          fun rest hr => CallPhase.noConfusion hr⟩
  · exact ⟨_, rfl, rfl, rfl, fun hf => CallPhase.noConfusion hf,
      fun rest hr => (CallPhase.removing.inj hr).symm⟩

/-- `fetch_result` leaves the agent an empty map. -/
theorem callFetchResult_cases {s t : Pool} {c : GetResult} {order : List (Σ _ : Usize, InsPage)}
    (ht : s.callFetchResult c order = some t) : ∃ a, s.agent c.idx = some a ∧
      Order a.rstData order ∧ t = { s.setAgent c.idx { a with rstData := ∅ } with
        call := some { c with phase := .checking, rst := c.rst.merge order } } := by
  unfold Pool.callFetchResult at ht
  cases ha : s.agent c.idx with
  | none => simp only [ha] at ht; cases ht
  | some a =>
    simp only [ha] at ht
    by_cases ho : Order (PtkGenerator.fetchResult a.rstData).1 order
    · rw [if_pos ho] at ht
      exact ⟨a, rfl, ho, (Option.some.inj ht).symm⟩
    · rw [if_neg ho] at ht
      cases ht

/-- `is_disconnected` reads the state of the agent. -/
theorem callIsDisconnected_cases {s t : Pool} {c : GetResult}
    (h : s.callIsDisconnected c = some t) :
    ∃ a, s.agent c.idx = some a ∧ t = { s with call := some { c with
      phase := .testing
      idx := c.idx + 1
      disConnected :=
        if a.state = .disConnect then c.disConnected ++ [c.idx] else c.disConnected } } := by
  unfold callIsDisconnected at h
  split at h
  · next a ha => exact ⟨a, ha, (Option.some.inj h).symm⟩
  · cases h

/-- `wait_stop` of a client waits for its receive loop, and then the slot is empty. -/
theorem callWaitStop_cases {s t : Pool} {c : GetResult} {idx : ℕ} {rest : List ℕ}
    (h : s.callWaitStop c idx rest = some t) :
    ∃ a, s.agent idx = some a ∧ a.receiving = false ∧ t = { s with
      clients := s.clients.set idx none
      call := some { c with phase := .removing rest } } := by
  unfold callWaitStop at h
  split at h
  · next a ha =>
    split at h
    · cases h
    · next hrecv => exact ⟨a, ha, by simpa using hrecv, (Option.some.inj h).symm⟩
  · cases h

/-- `get_result` neither ends the accepting nor adds or removes a slot. -/
theorem getResult_frame {s t : Pool} {op : CallOp} (h : s.getResult op = some t) :
    t.accepting = s.accepting ∧ t.clients.length = s.clients.length := by
  rcases getResult_cases h with ⟨-, rfl⟩ | ⟨c, -, hcases⟩
  · exact ⟨rfl, rfl⟩
  · rcases hcases with ⟨hp, rfl⟩ | ⟨order, -, hf⟩ | ⟨-, hd⟩ | ⟨idx, rest, -, hw⟩ | ⟨-, rfl⟩
    · obtain ⟨c', heq, -⟩ := callHasResult_eq (s := s) hp
      rw [heq]
      exact ⟨rfl, rfl⟩
    · obtain ⟨a, -, -, rfl⟩ := callFetchResult_cases hf
      exact ⟨rfl, List.length_set⟩
    · obtain ⟨a, -, rfl⟩ := callIsDisconnected_cases hd
      exact ⟨rfl, rfl⟩
    · obtain ⟨a, -, -, rfl⟩ := callWaitStop_cases hw
      exact ⟨rfl, List.length_set⟩
    · exact ⟨rfl, rfl⟩

end Pool

/-- The pool, the receive tasks of its agents and the calls of `get_result`; the accept loop of
the source has the limit 32.
SRC: client_pool.rs:38-66, 88-119; client_agent.rs:111-163 -/
def poolMachine (limit : ℕ) : Machine Pool PoolOp where
  init := ⟨[], true, none, [], []⟩
  step s
    | .accept => s.accept limit
    | .regReq idx => s.regReq idx
    | .dataRsp idx msg => s.dataRsp idx msg
    | .endRecv idx => s.endRecv idx
    | .getResult op => s.getResult op

end PtkGenerator

import PtkGenerator.Analysis.PoolConservation
import PtkGenerator.Model.AgentLife

/-!
# Dead agents

The state of an agent never becomes `DisConnect`, because the calls of `set_state` that should
record it are not awaited (`state_ne_disConnect`).  So whatever ends a task of an agent, the pool
goes on with the agent as before: it is not seen as disconnected, it is full only as one that runs
is, and `get_result` does not remove it.
-/

set_option autoImplicit false

namespace PtkGenerator

namespace AgentLife

variable {fromBytes : FromBytes} {T : Target} {s s' : AgentLife}

/-- A task of the agent has ended, or `disconnect` has returned. -/
def Dead (s : AgentLife) : Prop :=
  s.tasks.recvTask = .ended ∨ s.tasks.sendTask = .ended ∨ s.disconnected = true

/-- The agent is the one in the slot of the pool. -/
def At (s : AgentLife) (p : PoolTasks) (idx : ℕ) : Prop :=
  p.pool.agent idx = some s.agent ∧
    ∃ q, p.sides[idx]? = some q ∧ q.rxProcData = s.tasks.rxProcData

/-- The agent is seen as dead: its state is `DisConnect` and stays so; it counts as disconnected
and as full; `decode` does not choose it as a client with room; and the next call of `get_result`
removes it. -/
structure SeenAsDead (fromBytes : FromBytes) (T : Target) (s : AgentLife) : Prop where
  state : ∀ more t, (agentLifeMachine fromBytes T).exec s more = some t → t.state = .disConnect
  disconnected : isDisconnected s.state = true
  full : isFull s.state s.tasks.rxProcData = true
  notChosen : ∀ (p : PoolTasks) data idx, s.At p idx → (p.test data idx).decode ≠ .found data idx
  removed : ∀ (limit : ℕ) (p q : Pool) (idx : ℕ) (ops : List CallOp), p.agent idx = some s.agent →
    p.call = none → CallOp.ret ∉ ops →
    (poolMachine limit).exec p
      ((CallOp.begin :: ops ++ [CallOp.ret]).map PoolOp.getResult) = some q →
    q.agent idx = none

/-- The step ends no task: the body of the receive loop goes on with the message, or the call of
`send_data` that returns to the send task has not failed; `disconnect` is not called, and no task
is dropped. -/
def keepsAlive (fromBytes : FromBytes) (T : Target) (s : AgentLife) : AgentLifeOp → Bool
  | .task (.recvMsg frame order) =>
    match recvData fromBytes frame with
    | .returned (.ok msg) =>
      match agentBody T order s.tasks.vars msg with
      | .next _ => true
      | _ => false
    | _ => false
  | .task .sendDone =>
    match s.tasks.sendTask with
    | .sending call =>
      match s.tasks.result call with
      | some (.error _) => false
      | _ => true
    | _ => true
  | .disconnect => false
  | .drop _ => false
  | _ => true

/-- What a step does to the state and to the tasks. -/
structure TaskStep (fromBytes : FromBytes) (T : Target) (s : AgentLife) (op : AgentLifeOp)
    (s' : AgentLife) : Prop where
  state : s'.state = s.state ∨ s'.state = .activate
  dead : ¬ s.Dead → (s'.Dead ↔ keepsAlive fromBytes T s op = false)

/-- The step leaves an agent alive. -/
theorem TaskStep.of_alive {op : AgentLifeOp} (hstate : s'.state = s.state ∨ s'.state = .activate)
    (halive : ¬ s.Dead → ¬ s'.Dead) (hop : keepsAlive fromBytes T s op = true) :
    TaskStep fromBytes T s op s' := by
  refine ⟨hstate, fun h => iff_of_false (halive h) ?_⟩
  rw [hop]
  exact fun h => nomatch h

/-- The step leaves the state of the agent alone and ends one of its tasks. -/
theorem TaskStep.of_dead {op : AgentLifeOp} (hstate : s'.state = s.state) (hdead : s'.Dead)
    (hop : keepsAlive fromBytes T s op = false) : TaskStep fromBytes T s op s' :=
  ⟨.inl hstate, fun _ => iff_of_true hdead hop⟩

/-- The tasks that are not at their ends are at other places now, and none has ended. -/
theorem not_dead {tasks : AgentTasks} (h : ¬ s.Dead)
    (hrecv : tasks.recvTask = .ended → s.tasks.recvTask = .ended)
    (hsend : tasks.sendTask = .ended → s.tasks.sendTask = .ended) :
    ¬ ({ s with tasks } : AgentLife).Dead := by
  rintro (hend | hend | hend)
  · exact h (.inl (hrecv hend))
  · exact h (.inr (.inl (hsend hend)))
  · exact h (.inr (.inr hend))

/-- The return of a send may end the send task, and nothing else. -/
theorem taskStep_sendDone {tasks : AgentTasks} (hs : s.tasks.sendDone = some tasks) :
    TaskStep fromBytes T s (.task .sendDone) { s with tasks } := by
  obtain ⟨call, c, r, htask, hc, hphase, hcases⟩ := AgentTasks.sendDone_cases hs
  have hresult : s.tasks.result call = some r := AgentTasks.result_eq_some.mpr ⟨c, hc, hphase⟩
  rcases hcases with ⟨rfl, rfl⟩ | ⟨herr, rfl⟩
  · refine .of_alive (.inl rfl) (fun h => not_dead h id fun hend => nomatch hend) ?_
    simp only [keepsAlive, htask, hresult]
  · refine .of_dead rfl (.inr (.inl rfl)) ?_
    cases r with
    | ok _ => exact absurd rfl herr
    | error e => simp only [keepsAlive, htask, hresult]

/-- A received message may end the receive task, and nothing else. -/
theorem taskStep_recvMsg {tasks : AgentTasks} {frame : Frame} {order : VisitOrder}
    (hs : s.tasks.recvMsg fromBytes T frame order = some tasks) :
    TaskStep fromBytes T s (.task (.recvMsg frame order)) { s with tasks } := by
  obtain ⟨htask, ⟨msg, vars, hframe, hbody, hcases⟩ | ⟨vars, rfl, hstate, hends⟩⟩ :=
    AgentTasks.recvMsg_cases hs
  · have hop : keepsAlive fromBytes T s (.task (.recvMsg frame order)) = true := by
      simp only [keepsAlive, hframe, hbody]
    have hstate : vars.state = s.state ∨ vars.state = .activate := by
      have hbody' := agentBody_state T order s.tasks.vars msg
      rw [hbody] at hbody'
      exact hbody'
    rcases hcases with rfl | ⟨answer, rest, -, rfl⟩
    · exact .of_alive hstate (fun h => not_dead h id id) hop
    · exact .of_alive hstate (fun h => not_dead h (fun hend => nomatch hend) id) hop
  · refine .of_dead hstate (.inl rfl) ?_
    simp only [keepsAlive]
    split
    · next msg hframe =>
      split
      · next vars' hbody => exact absurd hbody (hends msg vars' hframe)
      · rfl
    · rfl

/-- INTERNAL: **what ends a task**, and that nothing makes the state `DisConnect`.
SRC: client_agent.rs:40-43, 83-87, 113-184 -/
theorem taskStep {op : AgentLifeOp} (hs : (agentLifeMachine fromBytes T).step s op = some s') :
    TaskStep fromBytes T s op s' := by
  cases op with
  | disconnect =>
    have hstep : s.disconnect = some s' := hs
    unfold disconnect at hstep
    split at hstep
    · cases hstep
    · obtain rfl := Option.some.inj hstep
      exact .of_dead rfl (.inr (.inr rfl)) rfl
  | drop task =>
    cases task with
    | recv =>
      have hstep : s.drop .recv = some s' := hs
      simp only [drop] at hstep
      split at hstep
      · obtain rfl := Option.some.inj hstep
        exact .of_dead rfl (.inl rfl) rfl
      · cases hstep
    | send =>
      have hstep : s.drop .send = some s' := hs
      simp only [drop] at hstep
      split at hstep
      · obtain rfl := Option.some.inj hstep
        exact .of_dead rfl (.inr (.inl rfl)) rfl
      · cases hstep
  | sendFails =>
    obtain ⟨sender, -, rfl⟩ := Option.map_eq_some_iff.mp hs
    exact .of_alive (.inl rfl) (fun h => not_dead h id id) rfl
  | task op =>
    obtain ⟨tasks, hstep, rfl⟩ := Option.map_eq_some_iff.mp hs
    cases op with
    | publish data =>
      rcases AgentTasks.publish_cases hstep with ⟨-, rfl⟩ | ⟨-, -, rfl⟩
      · exact .of_alive (.inl rfl) (fun h => not_dead h id id) rfl
      · exact .of_alive (.inl rfl) (fun h => not_dead h id id) rfl
    | takeChunk =>
      obtain ⟨chunk, rxProcData, -, -, rfl⟩ := AgentTasks.takeChunk_cases hstep
      exact .of_alive (.inl rfl) (fun h => not_dead h id fun hend => nomatch hend) rfl
    | sendDone => exact taskStep_sendDone hstep
    | recvMsg frame order => exact taskStep_recvMsg hstep
    | recvDone =>
      obtain ⟨call, c, r, -, -, -, rfl⟩ := AgentTasks.recvDone_cases hstep
      exact .of_alive (.inl rfl) (fun h => not_dead h (fun hend => nomatch hend) id) rfl
    | enqueue i =>
      obtain ⟨sender, -, rfl⟩ := Option.map_eq_some_iff.mp hstep
      exact .of_alive (.inl rfl) (fun h => not_dead h id id) rfl
    | await i =>
      obtain ⟨sender, -, rfl⟩ := Option.map_eq_some_iff.mp hstep
      exact .of_alive (.inl rfl) (fun h => not_dead h id id) rfl
    | takeFrame =>
      obtain ⟨sender, -, rfl⟩ := Option.map_eq_some_iff.mp hstep
      exact .of_alive (.inl rfl) (fun h => not_dead h id id) rfl
    | sendFrame =>
      obtain ⟨data, i, sender, -, -, rfl⟩ := AgentTasks.sendFrame_cases hstep
      exact .of_alive (.inl rfl) (fun h => not_dead h id id) rfl

/-- No step disconnects an agent: `set_state` is called and not awaited. -/
theorem state_ne_step {op : AgentLifeOp} (h : s.state ≠ .disConnect)
    (hs : (agentLifeMachine fromBytes T).step s op = some s') : s'.state ≠ .disConnect := by
  rcases (taskStep hs).state with heq | heq
  · rw [heq]
    exact h
  · rw [heq]
    exact fun h => nomatch h

/-- INTERNAL: **no agent is ever disconnected.**
SRC: client_agent.rs:40-43, 86, 163, 181 -/
theorem state_ne_disConnect (hs : (agentLifeMachine fromBytes T).Reachable s) :
    s.state ≠ .disConnect :=
  (agentLifeMachine fromBytes T).invariant (P := fun s => s.state ≠ .disConnect)
    (fun h => nomatch h) (fun _ _ _ h hstep => state_ne_step h hstep) hs

/-! ## What the pool sees -/

/-- INTERNAL: **the pool sees no end of an agent.**  In every state that an agent comes to, dead or
not, it does not count as disconnected, and it counts as full only by its registration and its
queue.
SRC: client_agent.rs:90-94, 198-203 -/
theorem seen_alive (hs : (agentLifeMachine fromBytes T).Reachable s) :
    isDisconnected s.state = false ∧ (isFull s.state s.tasks.rxProcData = false ↔
      s.state = .activate ∧ s.tasks.rxProcData.length ≠ 1024) := by
  refine ⟨decide_eq_false (state_ne_disConnect hs), ?_⟩
  unfold isFull
  split
  · next hstate => exact iff_of_false (fun h => nomatch h) fun h => hstate h.1
  · next hstate =>
    rw [decide_eq_false_iff_not]
    exact ⟨fun h => ⟨not_not.mp hstate, h⟩, And.right⟩

/-- INTERNAL: `decode` chooses a dead agent like any other.
SRC: client_pool.rs:74-81 -/
theorem chosen (hs : (agentLifeMachine fromBytes T).Reachable s) {p : PoolTasks} {idx : ℕ}
    (hat : s.At p idx) (hstate : s.state = .activate) (hroom : s.tasks.rxProcData.length ≠ 1024)
    (data : Bytes) :
    (p.test data idx).decode = .found data idx := by
  obtain ⟨hagent, q, hq, hrx⟩ := hat
  have hlt := (List.getElem?_eq_some_iff.mp (Pool.getElem?_of_agent hagent)).1
  have hfull : isFull s.agent.state q.rxProcData = false := by
    rw [hrx]
    exact (seen_alive hs).2.mpr ⟨hstate, hroom⟩
  simp only [PoolTasks.test, if_pos hlt, hagent, hq, hfull, Bool.false_eq_true, if_false]

/-- INTERNAL: **`get_result` removes no agent.**
SRC: client_pool.rs:107-117 -/
theorem not_removed {limit : ℕ} {p q : Pool} (hp : (poolMachine limit).Reachable p) {op : CallOp}
    (hq : p.getResult op = some q) (idx : ℕ) :
    (q.agent idx).isSome = (p.agent idx).isSome := by
  rcases Pool.getResult_cases hq with ⟨-, rfl⟩ | ⟨c, hc, hcases⟩
  · rfl
  rcases hcases with ⟨hphase, rfl⟩ | ⟨order, -, hf⟩ | ⟨-, hd⟩ | ⟨j, rest, hphase, -⟩ | ⟨-, rfl⟩
  · obtain ⟨c', heq, -⟩ := Pool.callHasResult_eq (s := p) hphase
    rw [heq]
    rfl
  · obtain ⟨a, ha, -, rfl⟩ := Pool.callFetchResult_cases hf
    show ((p.clients.set c.idx _)[idx]?.join).isSome = _
    have hself := Pool.getElem?_of_agent ha
    by_cases hidx : c.idx = idx
    · subst hidx
      rw [List.getElem?_set_self (List.getElem?_eq_some_iff.mp hself).1, ha]
      rfl
    · rw [List.getElem?_set_ne hidx]
      rfl
  · obtain ⟨a, -, rfl⟩ := Pool.callIsDisconnected_cases hd
    rfl
  · -- no agent was found to be disconnected
    cases ((poolMachine_inv hp).call c hc).2 _ hphase
  · rfl

/-- MAIN: **when a dead agent is seen as dead.**  In a run of an agent with any messages, ends of
the connection, failing sends and calls of `disconnect`, every state reached in which a task has
ended or `disconnect` has returned is seen as such by the pool, if and only if the run comes to no
such state: none of its steps ends a task or calls `disconnect`.
SRC: client_agent.rs:40-43, 83-94, 113-184, 198-207; client_pool.rs:68-86, 107-117 -/
theorem dead_seen_as_dead_iff (fromBytes : FromBytes) (T : Target) {ops : List AgentLifeOp}
    {s : AgentLife}
    (h : (agentLifeMachine fromBytes T).exec (agentLifeMachine fromBytes T).init ops = some s) :
    (∀ before after u, ops = before ++ after →
      (agentLifeMachine fromBytes T).exec (agentLifeMachine fromBytes T).init before = some u →
        u.Dead → u.SeenAsDead fromBytes T) ↔
    (agentLifeMachine fromBytes T).Meets (fun s op => keepsAlive fromBytes T s op = true)
      (agentLifeMachine fromBytes T).init ops := by
  refine (agentLifeMachine fromBytes T).forall_reached_iff (I := fun u => u.state ≠ .disConnect)
    (P := fun u => u.Dead → u.SeenAsDead fromBytes T)
    (fun _ _ _ hu hstep => state_ne_step hu hstep) ?_
    (fun h => nomatch h) ?_ h
  · intro u op v hu hseen hstep
    have hnever : ∀ w : AgentLife, w.state ≠ .disConnect →
        ((w.Dead → w.SeenAsDead fromBytes T) ↔ ¬ w.Dead) :=
      fun w hw => ⟨fun hw' hdead => hw ((hw' hdead).state [] w rfl),
        fun halive hdead => absurd hdead halive⟩
    rw [hnever v (state_ne_step hu hstep), (taskStep hstep).dead ((hnever u hu).mp hseen),
      Bool.not_eq_false]
  · rintro (hend | hend | hend)
    · cases hend
    · cases hend
    · cases hend

/-- An agent that sends a chunk. -/
theorem dead_seen_as_dead_oneChunk : ∃ s,
    (agentLifeMachine Postcard.readEncoded ⟨fun _ => none, fun _ _ _ h => h⟩).exec
      (agentLifeMachine Postcard.readEncoded ⟨fun _ => none, fun _ _ _ h => h⟩).init
      [.task (.publish [1]), .task .takeChunk, .task (.enqueue 0), .task .takeFrame,
        .task .sendFrame, .task (.await 0), .task .sendDone] = some s ∧
    ∀ before after u, [.task (.publish [1]), .task .takeChunk, .task (.enqueue 0),
        .task .takeFrame, .task .sendFrame, .task (.await 0), .task .sendDone] = before ++ after →
      (agentLifeMachine Postcard.readEncoded ⟨fun _ => none, fun _ _ _ h => h⟩).exec
        (agentLifeMachine Postcard.readEncoded ⟨fun _ => none, fun _ _ _ h => h⟩).init before =
          some u → u.Dead →
      u.SeenAsDead Postcard.readEncoded ⟨fun _ => none, fun _ _ _ h => h⟩ := by
  obtain ⟨s, hs⟩ := Option.isSome_iff_exists.mp (show
    ((agentLifeMachine Postcard.readEncoded ⟨fun _ => none, fun _ _ _ h => h⟩).exec
      (agentLifeMachine Postcard.readEncoded ⟨fun _ => none, fun _ _ _ h => h⟩).init
      [.task (.publish [1]), .task .takeChunk, .task (.enqueue 0), .task .takeFrame,
        .task .sendFrame, .task (.await 0), .task .sendDone]).isSome = true by decide)
  exact ⟨s, hs, (dead_seen_as_dead_iff _ _ hs).mpr (by decide)⟩

/-- A client registers and closes its connection: the receive task has ended, and the agent is
seen as one that is registered and has room. -/
theorem closed_agent_seen_alive : ∃ (order : VisitOrder) (s : AgentLife),
    (agentLifeMachine Postcard.readEncoded ⟨fun _ => none, fun _ _ _ h => h⟩).exec
      (agentLifeMachine Postcard.readEncoded ⟨fun _ => none, fun _ _ _ h => h⟩).init
      [.task (.recvMsg (.payload [0, 1, 0, 0, 0]) order), .task (.enqueue 0), .task .takeFrame,
        .task .sendFrame, .task (.await 0), .task .recvDone, .task (.recvMsg .closed order)] =
      some s ∧ s.Dead ∧ s.state = .activate ∧ isDisconnected s.state = false ∧
    isFull s.state s.tasks.rxProcData = false ∧
    ¬ s.SeenAsDead Postcard.readEncoded ⟨fun _ => none, fun _ _ _ h => h⟩ := by
  choose visit hvisit using exists_visits
  refine ⟨⟨visit, hvisit⟩, _, rfl, .inl rfl, rfl, rfl, rfl, fun h => ?_⟩
  cases h.disconnected

end AgentLife

end PtkGenerator

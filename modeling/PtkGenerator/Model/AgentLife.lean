import PtkGenerator.Model.PoolTasks
import PtkGenerator.Model.SendTask

/-!
# The life of an agent

An agent with a connection that may fail, up to the call of `disconnect`.  At three places the
source calls `set_state` to record the end: behind the loops of the two tasks, and in `disconnect`.
`set_state` is an `async fn` and none of the calls is awaited, so its body does not run.

`disconnect` only asks for the abort of the tasks.  An aborted task is dropped at an await, which
can be much later: the send task waits for its chunks in a `recv` that blocks its thread, and goes
on there.
-/

set_option autoImplicit false

namespace PtkGenerator

/-- An agent; `disconnected` says that `disconnect` has returned. -/
structure AgentLife where
  tasks : AgentTasks
  disconnected : Bool

/-- The tasks that `disconnect` aborts. -/
inductive AgentTask where
  | recv
  | send

/-- The steps of an agent: those of its tasks, an error of the connection in `framer.send`,
`disconnect`, and the end of a task that it has aborted. -/
inductive AgentLifeOp where
  | task (op : AgentOp)
  | sendFails
  | disconnect
  | drop (task : AgentTask)

namespace AgentLife

/-- `state`, which the agent shares with the pool. -/
def state (s : AgentLife) : ClientState := s.tasks.vars.state

/-- What the pool and the receive task share of the agent. -/
def agent (s : AgentLife) : Agent :=
  ⟨s.tasks.vars.state, decide (s.tasks.recvTask ≠ .ended), s.tasks.vars.rstData⟩

/-- `framer.send` comes back with an error of the connection. -/
def sendFails (s : AgentLife) : Option AgentLife :=
  (s.tasks.sender.send false).map fun sender => { s with tasks := { s.tasks with sender } }

/-- A task is dropped where it awaits, and with it the call that it is in. -/
def abortTask (sender : CommunatorSender PtProcMsg) (task : TaskAwait) :
    CommunatorSender PtProcMsg :=
  match task with
  | .sending call => (sender.abort call).getD sender
  | _ => sender

/-- `disconnect`; a second call panics in its `unwrap`.
SRC: client_agent.rs:83-87 -/
def disconnect (s : AgentLife) : Option AgentLife :=
  if s.disconnected then none
  else
    -- the future that `set_state` returns is dropped
    some { s with disconnected := true }

/-- An aborted task ends.
SRC: client_agent.rs:84-85 -/
def drop (s : AgentLife) : AgentTask → Option AgentLife
  | .recv =>
    if s.disconnected = true ∧ s.tasks.recvTask ≠ .ended then
      let sender := abortTask s.tasks.sender s.tasks.recvTask
      some { s with tasks := { s.tasks with sender, recvTask := .ended } }
    else none
  | .send =>
    if s.disconnected = true ∧ s.tasks.sendTask ≠ .ended then
      let sender := abortTask s.tasks.sender s.tasks.sendTask
      some { s with tasks := { s.tasks with sender, sendTask := .ended } }
    else none

end AgentLife

/-- An agent whose target is `T`.
SRC: client_agent.rs:40-43, 77-207 -/
def agentLifeMachine (fromBytes : FromBytes) (T : Target) : Machine AgentLife AgentLifeOp where
  init := ⟨(agentMachine fromBytes T).init, false⟩
  step s
    | .task op => ((agentMachine fromBytes T).step s.tasks op).map fun tasks => { s with tasks }
    | .sendFails => s.sendFails
    | .disconnect => s.disconnect
    | .drop task => s.drop task

end PtkGenerator

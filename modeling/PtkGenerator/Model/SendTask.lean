import PtkGenerator.Model.Communator

/-!
# The tasks of an agent and its sender

`publish_task` puts a chunk into the queue of an agent.  The send task takes the chunks out and
sends each as a `DataReq`; it leaves its loop at the first error.  The receive task answers the
messages of the client, and whatever becomes of an answer, it goes on.  Both call `send_data` on
one `CommunatorSender`, each one call at a time.

The connection itself does not fail, so the framer returns an error for one reason only: a payload
longer than its limit.  `published` records the chunks that `publish_task` was called with.
-/

set_option autoImplicit false

namespace PtkGenerator

/-- `encode` of the adapter; the messages of an agent have no maps to visit. -/
def encodeMsg (msg : PtProcMsg) : Except Unit Bytes :=
  match PtProcMsgAdapter.encode msg [] with
  | .returned r => r
  | .panicked => .error ()

/-- `framer.send` on a connection that does not fail: the limit of `LengthDelimitedCodec::new()` is
8 MiB. -/
def framerOk (data : Bytes) : Bool := decide (data.length ≤ 8 * 1024 * 1024)

/-- Where a task is in its loop: at its `recv`, in a call of `send_data`, or behind the loop. -/
inductive TaskAwait where
  | recv
  | sending (call : ℕ)
  | ended
  deriving DecidableEq

/-- An agent: the queue of chunks, the sender, the two tasks and the variables of the receive
task. -/
structure AgentTasks where
  rxProcData : List Bytes
  sender : CommunatorSender PtProcMsg
  sendTask : TaskAwait
  recvTask : TaskAwait
  vars : AgentLoop
  published : List Bytes

/-- The steps of `publish_task`, of the two tasks and of the sender. -/
inductive AgentOp where
  | publish (data : Bytes)
  | takeChunk
  | sendDone
  | recvMsg (frame : Frame) (order : VisitOrder)
  | recvDone
  | enqueue (i : ℕ)
  | await (i : ℕ)
  | takeFrame
  | sendFrame

namespace AgentTasks

/-- `publish_task`: it waits for room in the queue.  When the send task has ended, the call panics
in its `unwrap` and the chunk is dropped.
SRC: client_agent.rs:100, 205-207 -/
def publish (s : AgentTasks) (data : Bytes) : Option AgentTasks :=
  match s.sendTask with
  | .ended => some { s with published := s.published ++ [data] }
  | _ =>
    if s.rxProcData.length < 1024 then
      some { s with rxProcData := s.rxProcData ++ [data], published := s.published ++ [data] }
    else none

/-- The send task takes a chunk and calls `send_data`.
SRC: client_agent.rs:167-169 -/
def takeChunk (s : AgentTasks) : Option AgentTasks :=
  match s.sendTask, s.rxProcData with
  | .recv, taskData :: rxProcData =>
    some { s with
      rxProcData
      sender := s.sender.call encodeMsg (.dataReq taskData)
      sendTask := .sending s.sender.calls.length }
  | _, _ => none

/-- The result of a call, when it has returned. -/
def result (s : AgentTasks) (call : ℕ) : Option (Except IoError Unit) :=
  match s.sender.calls[call]? with
  | some c =>
    match c.phase with
    | .returned r => some r
    | _ => none
  | none => none

/-- `send_data` returns to the send task.
SRC: client_agent.rs:170-178 -/
def sendDone (s : AgentTasks) : Option AgentTasks :=
  match s.sendTask with
  | .sending call =>
    match s.result call with
    | some (.ok _) => some { s with sendTask := .recv }
    | some (.error _) => some { s with sendTask := .ended }
    | none => none
  | _ => none

/-- The receive task gets a frame; an arm that answers calls `send_data` with the answer.
SRC: client_agent.rs:113-161 -/
def recvMsg (fromBytes : FromBytes) (T : Target) (s : AgentTasks) (frame : Frame)
    (order : VisitOrder) : Option AgentTasks :=
  match s.recvTask with
  | .recv =>
    match recvData fromBytes frame with
    | .returned (.ok msg) =>
      match agentBody T order s.vars msg with
      | .next vars =>
        match vars.sent.drop s.vars.sent.length with
        | answer :: _ =>
          some { s with
            vars
            sender := s.sender.call encodeMsg answer
            recvTask := .sending s.sender.calls.length }
        | [] => some { s with vars }
      | .leave vars | .panicked vars | .blocked vars => some { s with vars, recvTask := .ended }
    | .returned (.error _) | .panicked => some { s with recvTask := .ended }
  | _ => none

/-- `send_data` returns to the receive task.
SRC: client_agent.rs:122, 132-136 -/
def recvDone (s : AgentTasks) : Option AgentTasks :=
  match s.recvTask with
  | .sending call =>
    match s.result call with
    | some _ => some { s with recvTask := .recv }
    | none => none
  | _ => none

/-- `framer.send` comes back. -/
def sendFrame (s : AgentTasks) : Option AgentTasks :=
  match s.sender.framer with
  | .sending data _ => (s.sender.send (framerOk data)).map fun sender => { s with sender }
  | _ => none

/-! ## What a step does -/

variable {fromBytes : FromBytes} {T : Target} {s s' : AgentTasks}

/-- A publication is sent to the queue, or to nobody when the send task is over. -/
theorem publish_cases {data : Bytes} (hs : s.publish data = some s') :
    (s.sendTask = .ended ∧ s' = { s with published := s.published ++ [data] }) ∨
      (s.sendTask ≠ .ended ∧ s.rxProcData.length < 1024 ∧ s' = { s with
        rxProcData := s.rxProcData ++ [data], published := s.published ++ [data] }) := by
  unfold publish at hs
  split at hs
  · next hended => exact .inl ⟨hended, (Option.some.inj hs).symm⟩
  · next hrunning =>
    split at hs
    · next hroom => exact .inr ⟨hrunning, hroom, (Option.some.inj hs).symm⟩
    · cases hs

/-- The send task takes a chunk and calls the sender with it. -/
theorem takeChunk_cases (hs : s.takeChunk = some s') :
    ∃ chunk rxProcData, s.sendTask = .recv ∧ s.rxProcData = chunk :: rxProcData ∧
      s' = { s with
        rxProcData
        sender := s.sender.call encodeMsg (.dataReq chunk)
        sendTask := .sending s.sender.calls.length } := by
  unfold takeChunk at hs
  split at hs
  · next chunk rxProcData htask hrx =>
    exact ⟨chunk, rxProcData, htask, hrx, (Option.some.inj hs).symm⟩
  · cases hs

/-- A call has a result when it has returned. -/
theorem result_eq_some {call : ℕ} {r : Except IoError Unit} :
    s.result call = some r ↔ ∃ c, s.sender.calls[call]? = some c ∧ c.phase = .returned r := by
  unfold result
  cases s.sender.calls[call]? with
  | none => simp
  | some c => cases hphase : c.phase <;> simp [hphase]

/-- The send task goes on behind a send that succeeded, and ends behind one that failed. -/
theorem sendDone_cases (hs : s.sendDone = some s') :
    ∃ call c r, s.sendTask = .sending call ∧ s.sender.calls[call]? = some c ∧
      c.phase = .returned r ∧
      ((r = .ok () ∧ s' = { s with sendTask := .recv }) ∨
        (r ≠ .ok () ∧ s' = { s with sendTask := .ended })) := by
  unfold sendDone at hs
  split at hs
  · next call htask =>
    split at hs
    · next hresult =>
      obtain ⟨c, hc, hphase⟩ := result_eq_some.mp hresult
      exact ⟨call, c, _, htask, hc, hphase, .inl ⟨rfl, (Option.some.inj hs).symm⟩⟩
    · next e hresult =>
      obtain ⟨c, hc, hphase⟩ := result_eq_some.mp hresult
      exact ⟨call, c, _, htask, hc, hphase,
        .inr ⟨(fun h => nomatch h), (Option.some.inj hs).symm⟩⟩
    · cases hs
  · cases hs

/-- The body goes on for a message, and the task stays at its `recv` or has the answer sent; in
any other case the task ends, with the state that it found. -/
theorem recvMsg_cases {frame : Frame} {order : VisitOrder}
    (hs : s.recvMsg fromBytes T frame order = some s') :
    s.recvTask = .recv ∧
      ((∃ msg vars, recvData fromBytes frame = .returned (.ok msg) ∧
          agentBody T order s.vars msg = .next vars ∧ (s' = { s with vars } ∨
            ∃ answer rest, vars.sent.drop s.vars.sent.length = answer :: rest ∧ s' = { s with
              vars
              sender := s.sender.call encodeMsg answer
              recvTask := .sending s.sender.calls.length })) ∨
        ∃ vars, s' = { s with vars, recvTask := .ended } ∧ vars.state = s.vars.state ∧
          ∀ msg vars', recvData fromBytes frame = .returned (.ok msg) →
            agentBody T order s.vars msg ≠ .next vars') := by
  unfold recvMsg at hs
  split at hs
  · next htask =>
    refine ⟨htask, ?_⟩
    split at hs
    · next msg hframe =>
      have hstate := agentBody_state T order s.vars msg
      have hmsg : ∀ msg', recvData fromBytes frame = .returned (.ok msg') → msg' = msg := by
        intro msg' h
        rw [hframe] at h
        exact (Except.ok.inj (Returned.returned.inj h)).symm
      split at hs
      · next vars hbody =>
        refine .inl ⟨msg, vars, hframe, hbody, ?_⟩
        split at hs
        · next answer rest hsent => exact .inr ⟨answer, rest, hsent, (Option.some.inj hs).symm⟩
        · exact .inl (Option.some.inj hs).symm
      · next vars hbody =>
        rw [hbody] at hstate
        refine .inr ⟨vars, (Option.some.inj hs).symm, hstate, fun msg' vars' h => ?_⟩
        rw [hmsg msg' h, hbody]
        exact fun h => nomatch h
      · next vars hbody =>
        rw [hbody] at hstate
        refine .inr ⟨vars, (Option.some.inj hs).symm, hstate, fun msg' vars' h => ?_⟩
        rw [hmsg msg' h, hbody]
        exact fun h => nomatch h
      · next vars hbody =>
        rw [hbody] at hstate
        refine .inr ⟨vars, (Option.some.inj hs).symm, hstate, fun msg' vars' h => ?_⟩
        rw [hmsg msg' h, hbody]
        exact fun h => nomatch h
    · next e hframe =>
      refine .inr ⟨s.vars, (Option.some.inj hs).symm, rfl, fun msg' vars' h => ?_⟩
      rw [hframe] at h
      cases h
    · next hframe =>
      refine .inr ⟨s.vars, (Option.some.inj hs).symm, rfl, fun msg' vars' h => ?_⟩
      rw [hframe] at h
      cases h
  · cases hs

/-- The receive task goes on behind its send, whatever came of it. -/
theorem recvDone_cases (hs : s.recvDone = some s') :
    ∃ call c r, s.recvTask = .sending call ∧ s.sender.calls[call]? = some c ∧
      c.phase = .returned r ∧ s' = { s with recvTask := .recv } := by
  unfold recvDone at hs
  split at hs
  · next call htask =>
    split at hs
    · next r hresult =>
      obtain ⟨c, hc, hphase⟩ := result_eq_some.mp hresult
      exact ⟨call, c, r, htask, hc, hphase, (Option.some.inj hs).symm⟩
    · cases hs
  · cases hs

/-- The framer sends the frame it holds, or fails with one that is too long. -/
theorem sendFrame_cases (hs : s.sendFrame = some s') :
    ∃ data i sender, s.sender.framer = .sending data i ∧
      s.sender.send (framerOk data) = some sender ∧ s' = { s with sender } := by
  unfold sendFrame at hs
  split at hs
  · next data i hsending =>
    obtain ⟨sender, hsender, rfl⟩ := Option.map_eq_some_iff.mp hs
    exact ⟨data, i, sender, hsending, hsender, rfl⟩
  · cases hs

end AgentTasks

/-- An agent whose target is `T`; what the receive task makes of a payload is up to `fromBytes`.
SRC: client_agent.rs:92-184, 205-207; communator.rs:28-71 -/
def agentMachine (fromBytes : FromBytes) (T : Target) : Machine AgentTasks AgentOp where
  init := ⟨[], .new, .recv, .recv, ⟨.connected, ∅, []⟩, []⟩
  step s
    | .publish data => s.publish data
    | .takeChunk => s.takeChunk
    | .sendDone => s.sendDone
    | .recvMsg frame order => s.recvMsg fromBytes T frame order
    | .recvDone => s.recvDone
    | .enqueue i => (s.sender.enqueue i).map fun sender => { s with sender }
    | .await i => (s.sender.await i).map fun sender => { s with sender }
    | .takeFrame => s.sender.take.map fun sender => { s with sender }
    | .sendFrame => s.sendFrame

end PtkGenerator

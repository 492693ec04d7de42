import PtkGenerator.Library.Machine
import PtkGenerator.Model.RecvLoop

/-!
# Sending messages

`CommunatorSender::new` starts a task that owns the framer.  A call of `send_data` puts its frame
with a one-shot channel into the queue of the task and awaits the reply; the task takes the frames
one after the other, hands each to the framer and replies with the result.  The reply is sent with
an `unwrap`, so when nobody is there to receive it, the task panics: the queue is dropped, and with
it the one-shot channels of all requests in it.

A call is a record in the list of all calls, in the order in which they began; any task may make
any number of them.  `entered`, `handed` and `written` record the frames that entered the queue,
were handed to the framer, and were written.
-/

set_option autoImplicit false

namespace PtkGenerator

/-- Where a call of `send_data` is: at `tx.send`, at `rx.await`, at its end, or aborted. -/
inductive SendPhase where
  | acquiring (frame : Bytes)
  | waiting (frame : Bytes)
  | returned (r : Except IoError Unit)
  | aborted

/-- A call of `send_data`; `reply` is what is in its one-shot channel. -/
structure SendCall (D : Type) where
  data : D
  phase : SendPhase
  reply : Option (Except IoError Unit)

/-- Where the task with the framer is: at `rx.recv`, in `framer.send` for a call, or in a panic. -/
inductive FramerPhase where
  | idle
  | sending (data : Bytes) (call : ℕ)
  | panicked

/-- The calls on one `CommunatorSender` and its task. -/
structure CommunatorSender (D : Type) where
  calls : List (SendCall D)
  queue : List (Bytes × ℕ)
  framer : FramerPhase
  entered : List (Bytes × ℕ)
  handed : List (Bytes × ℕ)
  written : List (Bytes × ℕ)

/-- The steps of the calls and of the task. -/
inductive SenderOp (D : Type) where
  | call (data : D)
  | enqueue (i : ℕ)
  | await (i : ℕ)
  | abort (i : ℕ)
  | take
  | send (ok : Bool)

namespace CommunatorSender

variable {D : Type}

/-- A sender nobody has called yet, with its queue empty. -/
def new : CommunatorSender D := ⟨[], [], .idle, [], [], []⟩

/-- The sender with one of its calls in another phase. -/
def setPhase (s : CommunatorSender D) (i : ℕ) (c : SendCall D) (phase : SendPhase) :
    CommunatorSender D :=
  { s with calls := s.calls.set i { c with phase } }

/-- `send_data` up to `tx.send`.
SRC: communator.rs:44-46, 67-69 -/
def call (encode : D → Except Unit Bytes) (s : CommunatorSender D) (data : D) :
    CommunatorSender D :=
  match encode data with
  | .ok frame => { s with calls := s.calls ++ [⟨data, .acquiring frame, none⟩] }
  | .error _ => { s with calls := s.calls ++ [⟨data, .returned (.error ⟨"encode error"⟩), none⟩] }

/-- `tx.send`: it waits for room in the queue, and fails when the task has gone.
SRC: communator.rs:31, 47-48, 64-66 -/
def enqueue (s : CommunatorSender D) (i : ℕ) : Option (CommunatorSender D) :=
  match s.calls[i]? with
  | some c =>
    match c.phase with
    | .acquiring frame =>
      match s.framer with
      | .panicked => some (s.setPhase i c (.returned (.error ⟨"send error"⟩)))
      | _ =>
        if s.queue.length < 10 then
          some { s.setPhase i c (.waiting frame) with
            queue := s.queue ++ [(frame, i)]
            entered := s.entered ++ [(frame, i)] }
        else none
    | _ => none
  | none => none

/-- `rx.await`: it fails when the task has gone without a reply.
SRC: communator.rs:49-63 -/
def await (s : CommunatorSender D) (i : ℕ) : Option (CommunatorSender D) :=
  match s.calls[i]? with
  | some c =>
    match c.phase with
    | .waiting _ =>
      match c.reply with
      | some (.ok _) => some (s.setPhase i c (.returned (.ok ())))
      | some (.error _) => some (s.setPhase i c (.returned (.error ⟨"oh error"⟩)))
      | none =>
        match s.framer with
        | .panicked => some (s.setPhase i c (.returned (.error ⟨"send error"⟩)))
        | _ => none
    | _ => none
  | none => none

/-- The task of the caller is aborted at an await point of the call. -/
def abort (s : CommunatorSender D) (i : ℕ) : Option (CommunatorSender D) :=
  match s.calls[i]? with
  | some c =>
    match c.phase with
    | .acquiring _ | .waiting _ => some (s.setPhase i c .aborted)
    | _ => none
  | none => none

/-- `rx.recv` of the task.
SRC: communator.rs:32-33 -/
def take (s : CommunatorSender D) : Option (CommunatorSender D) :=
  match s.framer, s.queue with
  | .idle, (data, i) :: queue =>
    some { s with queue, framer := .sending data i, handed := s.handed ++ [(data, i)] }
  | _, _ => none

/-- `oh.send(r).unwrap()`: the receiver lives as long as the call awaits it.
SRC: communator.rs:38-40 -/
def reply (s : CommunatorSender D) (i : ℕ) (r : Except IoError Unit) : CommunatorSender D :=
  let gone := { s with framer := .panicked, queue := [] }
  match s.calls[i]? with
  | some c =>
    match c.phase with
    | .waiting _ =>
      { s with calls := s.calls.set i { c with reply := some r }, framer := .idle }
    | _ => gone
  | none => gone

/-- `framer.send` comes back.
SRC: communator.rs:33-41 -/
def send (s : CommunatorSender D) (ok : Bool) : Option (CommunatorSender D) :=
  match s.framer with
  | .sending data i =>
    if ok then some (reply { s with written := s.written ++ [(data, i)] } i (.ok ()))
    else some (s.reply i (.error ⟨"Send data failed"⟩))
  | _ => none

/-! ## What a step does -/

variable {s s' : CommunatorSender D} {i : ℕ}

/-- An enqueued frame takes its place in the queue; with the framer gone the call fails. -/
theorem enqueue_cases (hs : s.enqueue i = some s') :
    ∃ c frame, s.calls[i]? = some c ∧ c.phase = .acquiring frame ∧
      ((s.framer = .panicked ∧ s' = s.setPhase i c (.returned (.error ⟨"send error"⟩))) ∨
        (s.framer ≠ .panicked ∧ s.queue.length < 10 ∧
          s' = { s.setPhase i c (.waiting frame) with
            queue := s.queue ++ [(frame, i)]
            entered := s.entered ++ [(frame, i)] })) := by
  unfold enqueue at hs
  split at hs
  · next c hi =>
    split at hs
    · next frame hphase =>
      refine ⟨c, frame, hi, hphase, ?_⟩
      split at hs
      · next hpanicked => exact .inl ⟨hpanicked, (Option.some.inj hs).symm⟩
      · next hrunning =>
        split at hs
        · next hroom => exact .inr ⟨hrunning, hroom, (Option.some.inj hs).symm⟩
        · cases hs
    · cases hs
  · cases hs

/-- A waiting call returns its reply, or an error when the framer is gone without one. -/
theorem await_cases (hs : s.await i = some s') :
    ∃ c frame r, s.calls[i]? = some c ∧ c.phase = .waiting frame ∧
      s' = s.setPhase i c (.returned r) ∧
      ((c.reply = some (.ok ()) ∧ r = .ok ()) ∨
        (∃ e, c.reply = some (.error e) ∧ r = .error ⟨"oh error"⟩) ∨
        (c.reply = none ∧ s.framer = .panicked ∧ r = .error ⟨"send error"⟩)) := by
  unfold await at hs
  split at hs
  · next c hi =>
    split at hs
    · next frame hphase =>
      split at hs
      · next hreply =>
        exact ⟨c, frame, _, hi, hphase, (Option.some.inj hs).symm, .inl ⟨hreply, rfl⟩⟩
      · next e hreply =>
        exact ⟨c, frame, _, hi, hphase, (Option.some.inj hs).symm, .inr (.inl ⟨e, hreply, rfl⟩)⟩
      · next hreply =>
        split at hs
        · next hpanicked =>
          exact ⟨c, frame, _, hi, hphase, (Option.some.inj hs).symm,
            .inr (.inr ⟨hreply, hpanicked, rfl⟩)⟩
        · cases hs
    · cases hs
  · cases hs

/-- An aborted call was waiting, for room in the queue or for its reply. -/
theorem abort_cases (hs : s.abort i = some s') :
    ∃ c frame, s.calls[i]? = some c ∧ (c.phase = .acquiring frame ∨ c.phase = .waiting frame) ∧
      s' = s.setPhase i c .aborted := by
  unfold abort at hs
  split at hs
  · next c hi =>
    split at hs
    · next frame hphase => exact ⟨c, frame, hi, .inl hphase, (Option.some.inj hs).symm⟩
    · next frame hphase => exact ⟨c, frame, hi, .inr hphase, (Option.some.inj hs).symm⟩
    · cases hs
  · cases hs

/-- The framer takes the first frame of the queue when it is idle. -/
theorem take_cases (hs : s.take = some s') :
    ∃ data j queue, s.framer = .idle ∧ s.queue = (data, j) :: queue ∧
      s' = { s with queue, framer := .sending data j, handed := s.handed ++ [(data, j)] } := by
  unfold take at hs
  split at hs
  · next data j queue hidle hq =>
    exact ⟨data, j, queue, hidle, hq, (Option.some.inj hs).symm⟩
  · cases hs

/-- A send writes the frame or fails, and the call behind it is told. -/
theorem send_cases {ok : Bool} (hs : s.send ok = some s') :
    ∃ data j, s.framer = .sending data j ∧
      s' = reply { s with written := s.written ++ if ok then [(data, j)] else [] } j
        (if ok then .ok () else .error ⟨"Send data failed"⟩) := by
  unfold send at hs
  split at hs
  · next data j hsending =>
    refine ⟨data, j, hsending, ?_⟩
    cases ok with
    | true => exact (Option.some.inj hs).symm
    | false =>
      rw [if_neg Bool.false_ne_true, if_neg Bool.false_ne_true, List.append_nil]
      exact (Option.some.inj hs).symm
  · cases hs

/-- The reply to a call that awaits it. -/
theorem send_waiting {ok : Bool} {data : Bytes} {c : SendCall D} (hs : s.send ok = some s')
    (hsending : s.framer = .sending data i) (hi : s.calls[i]? = some c)
    (hphase : c.phase = .waiting data) :
    s' = { s with
      calls := s.calls.set i
        { c with reply := some (if ok then .ok () else .error ⟨"Send data failed"⟩) }
      framer := .idle
      written := s.written ++ if ok then [(data, i)] else [] } := by
  obtain ⟨data', i', hsending', rfl⟩ := send_cases hs
  obtain ⟨rfl, rfl⟩ := FramerPhase.sending.inj (hsending.symm.trans hsending')
  simp only [reply, hi]
  split
  · rfl
  · next hnot => exact absurd hphase (hnot data)

end CommunatorSender

/-- The calls on one sender with its task.
SRC: communator.rs:28-71 -/
def senderMachine {D : Type} (encode : D → Except Unit Bytes) :
    Machine (CommunatorSender D) (SenderOp D) where
  init := .new
  step s
    | .call data => some (s.call encode data)
    | .enqueue i => s.enqueue i
    | .await i => s.await i
    | .abort i => s.abort i
    | .take => s.take
    | .send ok => s.send ok

end PtkGenerator

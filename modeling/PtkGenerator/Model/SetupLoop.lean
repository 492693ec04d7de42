import PtkGenerator.Library.Driven
import PtkGenerator.Model.PtCtrl

/-!
# `setup_pt_no_pmi` and its processor

The processor is an argument of `setup_pt_no_pmi`: a closure with a state of its own, which answers
whether the loop is to go on and may panic.  The loop is run here with any processor and any
driver: when it takes a step, the driver may have made anything of the rings.

The answer of the driver to the start gives the number of the buffers and has room for the
addresses of `MAX_CPU_NUM` of them.  The loop looks up the address of each buffer, so it panics at
a buffer past the array.
-/

set_option autoImplicit false

namespace PtkGenerator

variable {n L : ℕ} {P : Type}

/-- SRC: pt_ctrl/mod.rs:22 -/
def maxCpuNum : ℕ := 32

/-- The contents of the rings. -/
abbrev Rings (n L : ℕ) := Fin n → Fin L → UInt8

/-- What a processor does when it is called with the number of a buffer, the output buffer and the
number of bytes in it: its state after the call and its answer, or a panic.
SRC: pt_ctrl/mod.rs:323 -/
abbrev Processor (P : Type) := P → ℕ → Bytes → ℕ → Option (P × Bool)

/-- The loop with the state of its processor.  `fetched` and `handed` record for each buffer the
calls of `fetch_data` and of the processor that have ended. -/
structure Setup (n L : ℕ) (P : Type) where
  capture : Capture n L
  processor : P
  panicked : Bool
  fetched : Fin n → ℕ
  handed : Fin n → ℕ

/-- One more for the member `i`. -/
def countUp (f : Fin n → ℕ) (i : ℕ) : Fin n → ℕ := fun b => f b + if i = b.val then 1 else 0

/-- The call of `fetch_data` that has ended and was not handed to the processor yet. -/
def Phase.ended : Phase → ℕ
  | .handing _ => 1
  | _ => 0

namespace Setup

/-- The loop has returned. -/
def Returned (s : Setup n L P) : Prop := s.panicked = false ∧ s.capture.phase = .returned

/-- The loop has neither returned nor panicked. -/
def running (s : Setup n L P) : Bool := !s.panicked && decide (s.capture.phase ≠ .returned)

/-- The driver has made `buffs` of the rings. -/
def withRings (s : Setup n L P) (buffs : Rings n L) : Setup n L P :=
  { s with capture := { s.capture with buffs } }

variable [NeZero L]

/-- The address of the buffer is looked up, and an iteration of `fetch_data`.
SRC: pt_ctrl/mod.rs:337-340 -/
def fetch (s : Setup n L P) : Setup n L P :=
  if s.capture.i < maxCpuNum then
    match s.capture.iterate with
    | some c => { s with
        capture := c
        fetched := if c.phase.ended = 1 then countUp s.fetched s.capture.i else s.fetched }
    | none => s
  else { s with panicked := true }

/-- The processor is called, and what follows.
SRC: pt_ctrl/mod.rs:341-347 -/
def call (processor : Processor P) (s : Setup n L P) (readSize : ℕ) : Setup n L P :=
  match processor s.processor s.capture.i s.capture.tmpBuff readSize with
  | none => { s with panicked := true }
  | some (p, answer) =>
    match s.capture.process answer with
    | some c => { s with
        capture := c
        processor := p
        handed := countUp s.handed s.capture.i }
    | none => s

/-- The next step of the loop.
SRC: pt_ctrl/mod.rs:334-352 -/
def next (processor : Processor P) (s : Setup n L P) : Setup n L P :=
  match s.capture.phase with
  | .fetching _ => s.fetch
  | .handing readSize => s.call processor readSize
  | .returned => s

/-- Where the driver is asked, the loop goes on with what it has answered. -/
theorem next_of_iterate {s : Setup n L P} {k : ℕ} {c : Capture n L}
    (hphase : s.capture.phase = .fetching k) (hi : s.capture.i < maxCpuNum)
    (hc : s.capture.iterate = some c) (processor : Processor P) :
    s.next processor = { s with
      capture := c
      fetched := if c.phase.ended = 1 then countUp s.fetched s.capture.i else s.fetched } := by
  simp only [next, hphase, fetch, if_pos hi, hc]

/-- Where a buffer is handed out, the loop goes on with the answer of the processor. -/
theorem next_of_process {s : Setup n L P} {processor : Processor P} {readSize : ℕ} {p : P}
    {answer : Bool} {c : Capture n L} (hphase : s.capture.phase = .handing readSize)
    (hp : processor s.processor s.capture.i s.capture.tmpBuff readSize = some (p, answer))
    (hc : s.capture.process answer = some c) :
    s.next processor = { s with
      capture := c
      processor := p
      handed := countUp s.handed s.capture.i } := by
  simp only [next, hphase, call, hp, hc]

/-- What a step of the loop can do: it has ended, it panics, it goes on with `fetch_data`, or it
calls the processor. -/
theorem next_cases (processor : Processor P) (s : Setup n L P) :
    s.next processor = s ∨ s.next processor = { s with panicked := true } ∨
      (∃ c, s.capture.iterate = some c ∧ s.next processor = { s with
        capture := c
        fetched := if c.phase.ended = 1 then countUp s.fetched s.capture.i else s.fetched }) ∨
      ∃ r p answer c, s.capture.phase = .handing r ∧
        processor s.processor s.capture.i s.capture.tmpBuff r = some (p, answer) ∧
        s.capture.process answer = some c ∧ s.next processor = { s with
          capture := c
          processor := p
          handed := countUp s.handed s.capture.i } := by
  rw [next]
  split
  · rw [fetch]
    split
    · split
      · next c hc => exact .inr (.inr (.inl ⟨c, hc, rfl⟩))
      · exact .inl rfl
    · exact .inr (.inl rfl)
  · next r hphase =>
    rw [call]
    split
    · exact .inr (.inl rfl)
    · next p answer hp =>
      split
      · next c hc => exact .inr (.inr (.inr ⟨r, p, answer, c, hphase, hp, hc, rfl⟩))
      · exact .inl rfl
  · exact .inl rfl

end Setup

/-- `setup_pt_no_pmi` after a start that gave it `n` buffers of length `L`, with an output buffer of
`outLen` bytes (1024 * 800 in the source).  An event is what the rings hold when the loop takes its
next step.
SRC: pt_ctrl/mod.rs:310-354 -/
def setupMachine (n L outLen : ℕ) [NeZero L] (processor : Processor P) (p : P) :
    Machine (Setup n L P) (Rings n L) where
  init :=
    { capture := (captureMachine n L outLen).init
      processor := p
      panicked := false
      fetched := fun _ => 0
      handed := fun _ => 0 }
  step s buffs := if s.running then some ((s.withRings buffs).next processor) else none

/-- A driver says at each time what becomes of the rings before the loop takes its next step. -/
def drivenBy (driver : ℕ → Rings n L → Rings n L) :
    Machine.Environment (Setup n L P) (Rings n L) ℕ :=
  fun time s => if s.running then some (driver time s.capture.buffs, time + 1) else none

/-- The loop after `k` steps, or fewer when it has ended. -/
def setupAt [NeZero L] (outLen : ℕ) (processor : Processor P) (p : P)
    (driver : ℕ → Rings n L → Rings n L) (k : ℕ) : Setup n L P :=
  ((setupMachine n L outLen processor p).run (drivenBy driver) 0 k).state

end PtkGenerator

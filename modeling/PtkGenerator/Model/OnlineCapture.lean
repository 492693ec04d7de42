import PtkGenerator.Model.CaptureProgram
import PtkGenerator.Model.Pipeline

/-!
# `online_proc` from the rings to the report

`main` sets up the threads and goes into the capture with `processor`, which gives what was fetched
to the splitter of its CPU and answers whether Ctrl-C was pressed.  When the capture has returned,
`main` waits for the threads, merges their maps and writes the report.  The driver has a ring for
each CPU.

The receivers of the chunks are with the workers.  With one CPU there is no worker, and `create_env`
drops the only receiver when it returns: a splitter that sends panics in its `unwrap`, and with it
whoever sends to that splitter or joins it.
-/

set_option autoImplicit false

namespace PtkGenerator

/-- The threads of `online_proc`, which of the splitters have panicked, `G_STOP`, and whether `main`
has panicked behind the capture. -/
structure Online (cpuNums : ℕ) where
  pipeline : Pipeline cpuNums
  crashed : Fin cpuNums → Bool
  gStop : Bool
  panicked : Bool

/-- The handler of Ctrl-C, and the steps of the threads and of `main`. -/
inductive OnlineOp (cpuNums : ℕ) where
  | ctrlC
  | thread (op : PipelineOp cpuNums)

variable {n L : ℕ}

namespace Online

/-- Go on with other threads. -/
def withPipeline (s : Online n) (pipeline : Pipeline n) : Online n := { s with pipeline }

/-- A splitter sends the next chunk of the buffer; without a worker the `unwrap` panics.
SRC: online_proc.rs:75-77, 125-126, 155-165 -/
def spliterSend (s : Online n) (i : Fin n) : Option (Online n) :=
  if s.crashed i = true then none
  else if 0 < n - 1 then (s.pipeline.spliterSend i).map s.withPipeline
  else if (s.pipeline.spliters i).outgoing = [] then none
  else some { s with crashed := Function.update s.crashed i true }

/-- The splitter that `main` joins has panicked. -/
def joinsCrashed (s : Online n) : Bool :=
  match s.pipeline.main with
  | .waitSpliter i =>
    if hi : i < n then s.crashed ⟨i, hi⟩ && !(s.pipeline.spliters ⟨i, hi⟩).txAlive else false
  | _ => false

/-- `h.join().unwrap()` of a splitter, which panics when the splitter did.
SRC: online_proc.rs:213-222 -/
def joinSpliter (s : Online n) : Option (Online n) :=
  if s.joinsCrashed = true then some { s with panicked := true }
  else s.pipeline.joinSpliter.map s.withPipeline

end Online

/-- `processor`.
SRC: online_proc.rs:99-113 -/
def onlineProcessor (n : ℕ) : Processor (Online n) := fun s i buff size =>
  if hi : i < n then
    if size ≤ buff.length then
      if 0 < size ∧ s.crashed ⟨i, hi⟩ = true then none
      else (s.pipeline.processor ⟨i, hi⟩ (buff.take size)).map fun pipeline =>
        (s.withPipeline pipeline, !s.gStop)
    else none
  else none

/-- What runs beside the capture, until `main` panics; `main` is behind `setup_pt_no_pmi` for its
steps, and `processor` is called by the capture.
SRC: online_proc.rs:303-308, 377-394 -/
def onlineBeside (split : Bytes → List ℕ) (yields : Bytes → List Usize) (s : Setup n L (Online n))
    (op : OnlineOp n) : Option (Online n) :=
  let p := s.processor
  if s.panicked = true ∨ p.panicked = true then none
  else
    match op with
    | .ctrlC => some { p with gStop := true }
    | .thread (.processor _ _) => none
    | .thread .stop =>
      if s.capture.phase = .returned then p.pipeline.stop.map p.withPipeline else none
    | .thread .joinSpliter => p.joinSpliter
    | .thread (.spliterRecv i) =>
      if p.crashed i = true then none else (p.pipeline.spliterRecv split i).map p.withPipeline
    | .thread (.spliterSend i) => p.spliterSend i
    | .thread (.spliterEnd i) =>
      if p.crashed i = true then none else (p.pipeline.spliterEnd i).map p.withPipeline
    | .thread op => ((pipelineMachine n split yields).step p.pipeline op).map p.withPipeline

/-- `online_proc` with its driver.
SRC: online_proc.rs:302-395 -/
def onlineProgram (n L outLen : ℕ) [NeZero L] (split : Bytes → List ℕ)
    (yields : Bytes → List Usize) :
    Machine (Setup n L (Online n)) (ProgramOp n (OnlineOp n)) :=
  captureProgram n L outLen (onlineProcessor n) (fun _ => true) (onlineBeside split yields)
    ⟨(pipelineMachine n split yields).init, fun _ => false, false, false⟩

end PtkGenerator

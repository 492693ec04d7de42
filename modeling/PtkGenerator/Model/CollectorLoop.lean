import PtkGenerator.Model.CaptureProgram
import PtkGenerator.Model.FileWriter

/-!
# The collector in its loop

`main` of the collector creates a writer for each CPU and goes into `setup_pt_no_pmi` with
`processor`, which never asks it to return.  In between come the steps of the tasks of the
writers, each at the end of a queue with room for 10000 buffers.  `DataWriter::write` unwraps the
answer of `try_send`, so the collector panics when the queue is full, and when the task has gone
because the file system refused it something.
-/

set_option autoImplicit false

namespace PtkGenerator

variable {n L : ℕ}

/-- The buffers that a queue has room for.
SRC: file_writer/mod.rs:14 -/
def queueLen : ℕ := 10000

namespace WriterTask

/-- `try_send` succeeds: the task is there to receive, and the queue has room.
SRC: file_writer/mod.rs:53 -/
def accepts (t : WriterTask) : Bool :=
  decide (t.phase ≠ .ended ∧ t.phase ≠ .failed ∧ t.rx.length < queueLen)

/-- The file system refuses the task the file, a write, the flush or the new name, and the task
panics.
SRC: file_writer/mod.rs:18-25 -/
def fail (t : WriterTask) : Option WriterTask :=
  match t.phase with
  | .spawned => some { t with phase := .failed }
  | .writing _ _ => if t.rx ≠ [] ∨ t.txDropped then some { t with phase := .failed } else none
  | .flushed => some { t with phase := .failed }
  | .ended => none
  | .failed => none

end WriterTask

namespace Collector

/-- The task of the writer of a CPU. -/
def current (s : Collector) (i : ℕ) : Option WriterTask :=
  match s.wt[i]? with
  | some (some wt) => (s.tasks i)[wt.tx]?
  | _ => none

/-- `processor` with queues that can be full.  It answers `true` at any rate.
SRC: collector.rs:13-35, file_writer/mod.rs:51-55 -/
def boundedProcessor (fileSize : ℕ) : Processor Collector := fun s i buff size =>
  if (s.current i).all WriterTask.accepts then
    (s.processor fileSize i buff size).map fun s => (s, true)
  else none

/-- An answer of `boundedProcessor` is a call of `processor`. -/
theorem boundedProcessor_eq_some {fileSize : ℕ} {s s' : Collector} {i : ℕ} {buff : Bytes} {size : ℕ}
    {answer : Bool} (h : boundedProcessor fileSize s i buff size = some (s', answer)) :
    s.processor fileSize i buff size = some s' := by
  obtain ⟨-, hmap⟩ := Option.ite_none_right_eq_some.mp h
  obtain ⟨t, ht, heq⟩ := Option.map_eq_some_iff.mp hmap
  obtain rfl := (Prod.mk.inj heq).1
  exact ht

/-- The file system refuses a task something. -/
def fail (s : Collector) (i k : ℕ) : Option Collector :=
  ((s.tasks i)[k]?.bind WriterTask.fail).map fun t =>
    { s with tasks := Function.update s.tasks i ((s.tasks i).set k t) }

end Collector

/-- The steps of `create_env`, of the loop with what the rings hold when it takes the step, and of
the tasks. -/
inductive CollectorLoopOp (n L : ℕ) where
  | tick (secs : ℕ)
  | createWriter
  | loop (buffs : Rings n L)
  | task (i k : ℕ)
  | fail (i k : ℕ)

/-- The state of the collector has become what it is after a step that is not one of the loop. -/
def Setup.withProcessor {P : Type} (s : Setup n L P) (p : P) : Setup n L P :=
  { s with processor := p }

/-- The collector with `cpuNums` CPUs, for which the driver has `n` buffers of length `L`.  The loop
begins when every CPU has its writer.
SRC: collector.rs:37-62, 153-170 -/
def collectorLoop (n L outLen cpuNums fileSize : ℕ) (outDir : String) [NeZero L] :
    Machine (Setup n L Collector) (CollectorLoopOp n L) where
  init :=
    (setupMachine n L outLen (Collector.boundedProcessor fileSize)
      (collectorMachine cpuNums fileSize outDir).init).init
  step s
    | .tick secs => some (s.withProcessor { s.processor with clock := s.processor.clock + secs })
    | .createWriter => (s.processor.createWriter cpuNums outDir).map s.withProcessor
    | .loop buffs =>
      if s.processor.wt.length = cpuNums ∧ s.running then
        some ((s.withRings buffs).next (Collector.boundedProcessor fileSize))
      else none
    | .task i k => (s.processor.task i k).map s.withProcessor
    | .fail i k => (s.processor.fail i k).map s.withProcessor

/-! ## The collector with its driver -/

/-- What runs beside the loop of the collector, with a file system that refuses nothing. -/
inductive CollectorTaskOp where
  | tick (secs : ℕ)
  | createWriter
  | task (i k : ℕ)

/-- SRC: collector.rs:37-62, file_writer/mod.rs:13-28 -/
def collectorBeside (cpuNums : ℕ) (outDir : String) (s : Setup n L Collector) :
    CollectorTaskOp → Option Collector
  | .tick secs => some { s.processor with clock := s.processor.clock + secs }
  | .createWriter => s.processor.createWriter cpuNums outDir
  | .task i k => s.processor.task i k

/-- The collector with a driver that writes its streams.
SRC: collector.rs:37-62, 153-170 -/
def collectorProgram (n L outLen cpuNums fileSize : ℕ) (outDir : String) [NeZero L] :
    Machine (Setup n L Collector) (ProgramOp n CollectorTaskOp) :=
  captureProgram n L outLen (Collector.boundedProcessor fileSize)
    (fun p => decide (p.wt.length = cpuNums)) (collectorBeside cpuNums outDir)
    (collectorMachine cpuNums fileSize outDir).init

end PtkGenerator

import PtkGenerator.Library.Decimal
import PtkGenerator.Library.Machine
import PtkGenerator.Model.Types

/-!
# The files of the collector

`processor` hands each buffer to the writer of its CPU and replaces the writer when it has passed
on more than `FILE_SIZE` bytes.  A `DataWriter` is the sending end of a queue; at the other end a
task creates the file, writes what comes, and renames the file when the writer has been dropped.
The name of a file is made of the clock in seconds and of the number of the CPU.

The tasks of a CPU are kept in the order of their creation, each with the bytes that were sent to
it and the second in which it was created.  The queues never fill up here, and the file system
does not fail but where a file is missing.
-/

set_option autoImplicit false

namespace PtkGenerator

/-! ## Files -/

/-- The names in use with their files, and the contents of the files.  `overwrote` records that a
file that held data was created anew or was replaced by another. -/
structure FileSystem where
  dir : HashMap String ℕ
  content : ℕ → Bytes
  next : ℕ
  overwrote : Bool

namespace FileSystem

/-- The file of this name holds data. -/
def holds (fs : FileSystem) (name : String) : Bool :=
  match fs.dir.lookup name with
  | some f => decide (fs.content f ≠ [])
  | none => false

/-- `File::create`: a file of this name is truncated. -/
def create (fs : FileSystem) (name : String) : FileSystem × ℕ :=
  match fs.dir.lookup name with
  | some f =>
    ({ fs with
      content := Function.update fs.content f []
      overwrote := fs.overwrote || fs.holds name }, f)
  | none =>
    ({ fs with
      dir := fs.dir.insert name fs.next
      content := Function.update fs.content fs.next []
      next := fs.next + 1 }, fs.next)

/-- `write_all` at a position of an open file. -/
def writeAt (fs : FileSystem) (f pos : ℕ) (d : Bytes) : FileSystem :=
  let old := fs.content f
  let before := (old ++ List.replicate (pos - old.length) 0).take pos
  { fs with content := Function.update fs.content f (before ++ d ++ old.drop (pos + d.length)) }

/-- `rename`: a file of the new name is replaced. -/
def rename (fs : FileSystem) (name newName : String) : Option FileSystem :=
  match fs.dir.lookup name with
  | some f =>
    some { fs with
      dir := (fs.dir.erase name).insert newName f
      overwrote := fs.overwrote || fs.holds newName }
  | none => none

end FileSystem

/-! ## Writers -/

/-- Where the task of a writer is: not yet run, in its loop with the file at a position, behind
the flush, or at its end; `failed` is the panic of a rename. -/
inductive TaskPhase where
  | spawned
  | writing (f pos : ℕ)
  | flushed
  | ended
  | failed
  deriving DecidableEq

/-- The task that `create_async_writer` spawns, with its queue. -/
structure WriterTask where
  fName : String
  completeName : String
  rx : List Bytes
  txDropped : Bool
  phase : TaskPhase
  created : ℕ
  sent : Bytes

/-- `DataWriter`; `tx` is the number of its task among those of the CPU. -/
structure DataWriter where
  tx : ℕ
  fileName : String
  dir : String
  writeSize : ℕ

/-- `get_file_name`, at the time `time`.
SRC: file_writer/mod.rs:30-37 -/
def getFileName (time : ℕ) (idx : ℕ) (dir suffix : String) : String :=
  dir ++ Nat.repr time ++ "-" ++ Nat.repr idx ++ "." ++ suffix

/-- `format!("{}data", &name[..name.len() - suffix.len()])`.
SRC: file_writer/mod.rs:42 -/
def getCompleteName (name suffix : String) : String :=
  String.ofList (name.toList.take (name.length - suffix.length)) ++ "data"

/-- One step of the task of a writer.
SRC: file_writer/mod.rs:16-25 -/
def WriterTask.step (t : WriterTask) (fs : FileSystem) : Option (FileSystem × WriterTask) :=
  match t.phase with
  | .spawned =>
    let (fs, f) := fs.create t.fName
    some (fs, { t with phase := .writing f 0 })
  | .writing f pos =>
    match t.rx with
    | d :: rx => some (fs.writeAt f pos d, { t with rx, phase := .writing f (pos + d.length) })
    | [] => if t.txDropped then some (fs, { t with phase := .flushed }) else none
  | .flushed =>
    match fs.rename t.fName t.completeName with
    | some fs => some (fs, { t with phase := .ended })
    | none => some (fs, { t with phase := .failed })
  | .ended => none
  | .failed => none

/-- What a step of the task can do: it creates its file, writes the first of what was sent, comes to
the end of that, or renames the file, which may fail. -/
theorem WriterTask.step_cases {t t' : WriterTask} {fs fs' : FileSystem}
    (h : t.step fs = some (fs', t')) :
    (∃ f, t.phase = .spawned ∧ fs.create t.fName = (fs', f) ∧
        t' = { t with phase := .writing f 0 }) ∨
      (∃ f pos d rx, t.phase = .writing f pos ∧ t.rx = d :: rx ∧ fs' = fs.writeAt f pos d ∧
        t' = { t with rx, phase := .writing f (pos + d.length) }) ∨
      (∃ f pos, t.phase = .writing f pos ∧ t.rx = [] ∧ t.txDropped = true ∧ fs' = fs ∧
        t' = { t with phase := .flushed }) ∨
      (t.phase = .flushed ∧ fs.rename t.fName t.completeName = some fs' ∧
        t' = { t with phase := .ended }) ∨
      (t.phase = .flushed ∧ fs.rename t.fName t.completeName = none ∧ fs' = fs ∧
        t' = { t with phase := .failed }) := by
  unfold step at h
  split at h
  · next hp =>
    obtain ⟨hfs, ht⟩ := Prod.mk.inj (Option.some.inj h)
    exact .inl ⟨_, hp, Prod.ext hfs rfl, ht.symm⟩
  · next f pos hp =>
    split at h
    · next d rx hrx =>
      obtain ⟨hfs, ht⟩ := Prod.mk.inj (Option.some.inj h)
      exact .inr (.inl ⟨f, pos, d, rx, hp, hrx, hfs.symm, ht.symm⟩)
    · next hrx =>
      obtain ⟨hdrop, h⟩ := Option.ite_none_right_eq_some.mp h
      obtain ⟨hfs, ht⟩ := Prod.mk.inj (Option.some.inj h)
      exact .inr (.inr (.inl ⟨f, pos, hp, hrx, hdrop, hfs.symm, ht.symm⟩))
  · next hp =>
    split at h
    · next hrename =>
      obtain ⟨rfl, ht⟩ := Prod.mk.inj (Option.some.inj h)
      exact .inr (.inr (.inr (.inl ⟨hp, hrename, ht.symm⟩)))
    · next hrename =>
      obtain ⟨hfs, ht⟩ := Prod.mk.inj (Option.some.inj h)
      exact .inr (.inr (.inr (.inr ⟨hp, hrename, hfs.symm, ht.symm⟩)))
  · cases h
  · cases h

/-! ## The collector -/

/-- The writers, their tasks, the files and the clock; `passed` records the bytes that were passed
for each CPU. -/
structure Collector where
  wt : List (Option DataWriter)
  tasks : ℕ → List WriterTask
  fs : FileSystem
  clock : ℕ
  closed : Bool
  passed : ℕ → Bytes

/-- The steps of the collector and of the tasks. -/
inductive CollectorOp where
  | tick (secs : ℕ)
  | createWriter
  | processor (i : ℕ) (buff : Bytes) (size : ℕ)
  | close
  | task (i k : ℕ)
  deriving DecidableEq

/-- The step is one of the collector. -/
def CollectorOp.isInput : CollectorOp → Bool
  | .task _ _ => false
  | _ => true

namespace Collector

/-- The collector with one of its writer tasks changed. -/
def modifyTask (s : Collector) (i k : ℕ) (g : WriterTask → WriterTask) : Collector :=
  { s with tasks := Function.update s.tasks i ((s.tasks i).modify k g) }

/-- `DataWriter::new`.
SRC: file_writer/mod.rs:39-50, 13-28 -/
def newWriter (s : Collector) (idx : ℕ) (dir suffix : String) : Collector × DataWriter :=
  let name := getFileName s.clock idx dir suffix
  let completeName := getCompleteName name suffix
  let task : WriterTask := ⟨name, completeName, [], false, .spawned, s.clock, []⟩
  ({ s with tasks := Function.update s.tasks idx (s.tasks idx ++ [task]) },
    ⟨(s.tasks idx).length, name, dir, 0⟩)

/-- A writer is dropped. -/
def dropWriter (s : Collector) (idx : ℕ) (wt : DataWriter) : Collector :=
  s.modifyTask idx wt.tx fun t => { t with txDropped := true }

/-- `DataWriter::write`; `data[..len]` panics when `len` is out of range.
SRC: file_writer/mod.rs:51-55 -/
def write (s : Collector) (idx : ℕ) (wt : DataWriter) (data : Bytes) (len : ℕ) :
    Option (Collector × DataWriter) :=
  if len ≤ data.length then
    let d := data.take len
    some (s.modifyTask idx wt.tx fun t => { t with rx := t.rx ++ [d], sent := t.sent ++ d },
      { wt with writeSize := wt.writeSize + len })
  else none

/-- One turn of the loop of `create_env`.
SRC: collector.rs:54-56 -/
def createWriter (cpuNums : ℕ) (outDir : String) (s : Collector) : Option Collector :=
  if s.wt.length < cpuNums ∧ s.closed = false then
    let (s, wt) := s.newWriter s.wt.length outDir "tmp"
    some { s with wt := s.wt ++ [some wt] }
  else none

/-- `processor`, called by the capture until the writers are closed.
SRC: collector.rs:13-35 -/
def processor (fileSize : ℕ) (s : Collector) (i : ℕ) (buff : Bytes) (size : ℕ) :
    Option Collector :=
  if s.closed then none
  else
    match s.wt[i]? with
    | none => none
    | some none => some s
    | some (some wt) =>
      match s.write i wt buff size with
      | none => none
      | some (s, wt) =>
        let s := { s with passed := Function.update s.passed i (s.passed i ++ buff.take size) }
        if fileSize < wt.writeSize then
          let (s, wt') := s.newWriter i wt.dir "tmp"
          let s := s.dropWriter i wt
          some { s with wt := s.wt.set i (some wt') }
        else some { s with wt := s.wt.set i (some wt) }

/-- The writers are dropped. -/
def close (s : Collector) : Option Collector :=
  if s.closed then none
  else
    some { s with
      wt := s.wt.map fun _ => none
      tasks := fun i => (s.tasks i).map fun t => { t with txDropped := true }
      closed := true }

/-- One step of a task. -/
def task (s : Collector) (i k : ℕ) : Option Collector :=
  match (s.tasks i)[k]? with
  | none => none
  | some t =>
    match t.step s.fs with
    | none => none
    | some (fs, t') =>
      some { s with fs, tasks := Function.update s.tasks i ((s.tasks i).set k t') }

end Collector

/-- The collector with its tasks.
SRC: collector.rs:13-62, file_writer/mod.rs:13-56 -/
def collectorMachine (cpuNums fileSize : ℕ) (outDir : String) :
    Machine Collector CollectorOp where
  init := ⟨[], fun _ => [], ⟨∅, fun _ => [], 0, false⟩, 0, false, fun _ => []⟩
  step s
    | .tick secs => some { s with clock := s.clock + secs }
    | .createWriter => s.createWriter cpuNums outDir
    | .processor i buff size => s.processor fileSize i buff size
    | .close => s.close
    | .task i k => s.task i k

end PtkGenerator

import PtkGenerator.Analysis.CollectorStreams

/-!
# The writers catch up

The tasks of the writers only empty their queues: left to themselves they come to an end after so
many steps, in whatever order they take them.  Then the files hold what had come out of the rings,
and a writer that was replaced has its file under its final name.  The writer in use keeps its
sender for ever, since `WT` is a static, so its file never gets that name.
-/

set_option autoImplicit false

namespace PtkGenerator

open Collector

variable {n L outLen cpuNums fileSize : ℕ} {outDir : String}

/-! ## The steps that are left -/

/-- Every step of a task is one that was left to it. -/
theorem WriterTask.remaining_lt_of_step {fs fs' : FileSystem} {t t' : WriterTask}
    (h : t.step fs = some (fs', t')) : t'.remaining < t.remaining := by
  unfold step at h
  cases hp : t.phase with
  | spawned =>
    simp only [hp] at h
    obtain ⟨-, rfl⟩ := Prod.mk.inj (Option.some.inj h)
    simp [remaining, hp]
  | writing f pos =>
    cases hrx : t.rx with
    | cons d rx =>
      simp only [hp, hrx] at h
      obtain ⟨-, rfl⟩ := Prod.mk.inj (Option.some.inj h)
      simp [remaining, hp, hrx]
    | nil =>
      simp only [hp, hrx] at h
      obtain ⟨-, h⟩ := Option.ite_none_right_eq_some.mp h
      obtain ⟨-, rfl⟩ := Prod.mk.inj (Option.some.inj h)
      simp [remaining, hp, hrx]
  | flushed =>
    simp only [hp] at h
    split at h
    · obtain ⟨-, rfl⟩ := Prod.mk.inj (Option.some.inj h)
      simp [remaining, hp]
    · obtain ⟨-, rfl⟩ := Prod.mk.inj (Option.some.inj h)
      simp [remaining, hp]
  | ended => simp [hp] at h
  | failed => simp [hp] at h

namespace Collector

/-- The steps that are left to the tasks. -/
def work (s : Collector) : ℕ := s.remaining s.wt.length

/-- INTERNAL: **a step of a task** is one of those that were left.
SRC: file_writer/mod.rs:16-25 -/
theorem work_lt_of_task {s s' : Collector} (hw : WritersOk outDir s) {i k : ℕ}
    (h : s.task i k = some s') : s'.work < s.work := by
  obtain ⟨t, fs, t', ht, hstep, rfl⟩ := task_cases h
  have hi : i < s.wt.length := by
    by_contra hge
    have hcpu := hw i
    rw [List.getElem?_eq_none (not_lt.mp hge)] at hcpu
    have hnil := List.map_eq_nil_iff.mp (hcpu.unused rfl)
    rw [hnil] at ht
    cases ht
  exact remaining_lt hi ht (WriterTask.remaining_lt_of_step hstep) rfl

/-! ## Which writers are dropped -/

/-- Every writer of a CPU but the last one was dropped. -/
def Replaced (s : Collector) : Prop := ∀ i, ∀ c ∈ (s.cores i).dropLast, c.txDropped = true

/-- A created writer is the last one of its CPU. -/
theorem Replaced.createWriter {s s' : Collector} (h : s.Replaced) (hw : WritersOk outDir s)
    (hs : s.createWriter cpuNums outDir = some s') : s'.Replaced := by
  obtain ⟨-, rfl⟩ := createWriter_cases hs
  intro j
  show ∀ c ∈ (Collector.cores (newWriter _ _ _ _).1 j).dropLast, _
  rw [cores_newWriter]
  by_cases hj : j = s.wt.length
  · subst hj
    have hcpu := hw s.wt.length
    rw [List.getElem?_eq_none le_rfl] at hcpu
    rw [Function.update_self, hcpu.unused rfl]
    exact fun c hc => absurd hc List.not_mem_nil
  · rw [Function.update_of_ne hj]
    exact h j

/-- INTERNAL: **a writer is dropped when another takes its place.**
SRC: collector.rs:26-31 -/
theorem Replaced.processor {s s' : Collector} (h : s.Replaced) (hw : WritersOk outDir s) {i : ℕ}
    {buff : Bytes} {size : ℕ} (hs : s.processor fileSize i buff size = some s') :
    s'.Replaced := by
  obtain ⟨hopen, ⟨-, rfl⟩ | ⟨w, hwt, hsize⟩⟩ := exists_writer_of_processor hs
  · exact h
  · obtain ⟨-, pre, c, hcores, htx, -, -⟩ := (hw i).writer w hwt
    have hpre : ∀ c' ∈ pre, c'.txDropped = true := by
      have hi := h i
      rwa [hcores, List.dropLast_concat] at hi
    intro j
    obtain ⟨-, -, -, ⟨-, -, hcs⟩ | ⟨-, -, hcs⟩⟩ := cores_processor hopen hwt hsize hs
    · by_cases hj : j = i
      · subst hj
        rw [hcs, Function.update_self, hcores, htx, modify_append_length, List.dropLast_concat]
        exact hpre
      · rw [hcs, Function.update_of_ne hj]
        exact h j
    · by_cases hj : j = i
      · subst hj
        rw [hcs, Function.update_self, hcores, htx, modify_append_length, List.append_assoc,
          List.singleton_append, modify_append_length, List.append_cons, List.dropLast_concat]
        intro c' hc'
        rcases List.mem_append.mp hc' with hold | hlast
        · exact hpre c' hold
        · rw [List.mem_singleton.mp hlast]
          rfl
      · rw [hcs, Function.update_of_ne hj]
        exact h j

/-- Until the closing a writer is dropped when the next one is created. -/
theorem Replaced.step {s s' : Collector} (h : s.Replaced) (hw : WritersOk outDir s)
    {op : CollectorOp} (hop : op ≠ .close)
    (hs : (collectorMachine cpuNums fileSize outDir).step s op = some s') : s'.Replaced := by
  cases op with
  | tick secs =>
    obtain rfl := Option.some.inj hs
    exact h
  | createWriter => exact h.createWriter hw hs
  | processor i buff size => exact h.processor hw hs
  | close => exact absurd rfl hop
  | task i k =>
    intro j
    rw [(agree_task hs).cores]
    exact h j

/-- The writers that were replaced, and the one in use. -/
theorem Staffed.tasks_eq {s : Collector} (h : s.Staffed) (hw : WritersOk outDir s)
    (hr : s.Replaced) (i : ℕ) : s.tasks i = [] ∨ ∃ pre t, s.tasks i = pre ++ [t] ∧
      (∀ u ∈ pre, u.txDropped = true) ∧ t.txDropped = false := by
  cases hwt : s.wt[i]? with
  | none =>
    have hcpu := hw i
    rw [hwt] at hcpu
    exact .inl (List.map_eq_nil_iff.mp (hcpu.unused rfl))
  | some o =>
    cases o with
    | none => exact absurd rfl (h.wt none (List.mem_of_getElem? hwt))
    | some w =>
      obtain ⟨-, pre, c, hcores, -, hopen, -⟩ := (hw i).writer w hwt
      obtain ⟨us, ts, htasks, hus, hts⟩ := List.map_eq_append_iff.mp hcores
      obtain ⟨t, rfl, rfl⟩ := List.map_eq_singleton_iff.mp hts
      refine .inr ⟨us, t, htasks, fun u hu => ?_, hopen⟩
      have hi := hr i
      rw [hcores, List.dropLast_concat, ← hus] at hi
      exact hi u.core (List.mem_map_of_mem hu)

end Collector

/-! ## Files of tasks that have nothing to do -/

/-- INTERNAL: **a task that cannot go on** has written all that was sent to it, and has renamed the
file if its writer was dropped.
SRC: file_writer/mod.rs:16-25 -/
theorem TaskOk.file_of_step_eq_none {fs : FileSystem} {t : WriterTask} (h : TaskOk fs t)
    (hstep : t.step fs = none) : t.file fs = t.sent ∧
      (t.txDropped = true → t.completeName ∈ fs.dir ∧ t.fName ∉ fs.dir) := by
  unfold TaskOk at h
  unfold WriterTask.file
  unfold WriterTask.step at hstep
  cases hp : t.phase with
  | spawned =>
    simp only [hp] at hstep
    cases hstep
  | writing f pos =>
    simp only [hp] at h hstep
    obtain ⟨hf, -, -, hsent⟩ := h
    cases hrx : t.rx with
    | cons d rx =>
      simp only [hrx] at hstep
      cases hstep
    | nil =>
      simp only [hrx] at hstep
      rw [hrx, List.flatten_nil, List.append_nil] at hsent
      rw [hf, hsent]
      refine ⟨rfl, fun hdrop => ?_⟩
      rw [if_pos hdrop] at hstep
      cases hstep
  | flushed =>
    simp only [hp] at hstep
    split at hstep <;> cases hstep
  | ended =>
    simp only [hp] at h
    obtain ⟨hf, ⟨f, hc, hsent⟩, -⟩ := h
    rw [hf, hc, hsent]
    refine ⟨rfl, fun _ => ⟨?_, ?_⟩⟩
    · rw [← Finmap.lookup_isSome, hc]
      rfl
    · rw [← Finmap.lookup_isSome, hf]
      exact Bool.false_ne_true
  | failed =>
    simp only [hp] at h

/-- A file does not get its final name as long as its writer is there. -/
theorem TaskOk.completeName_notMem {fs : FileSystem} {t : WriterTask} (h : TaskOk fs t)
    (hopen : t.txDropped = false) : t.completeName ∉ fs.dir := by
  have hnone : fs.dir.lookup t.completeName = none := by
    unfold TaskOk at h
    split at h
    · exact h.2.1
    · exact h.2.1
    · rw [h.2.2] at hopen
      cases hopen
    · rw [h.2.2] at hopen
      cases hopen
    · exact h.elim
  rw [← Finmap.lookup_isSome, hnone]
  exact Bool.false_ne_true

/-! ## The program -/

section Program

variable [NeZero L]

/-- In every reachable program the writers are in order and the older ones dropped. -/
theorem collectorProgram_replaced {s : Setup n L Collector}
    (hs : (collectorProgram n L outLen cpuNums fileSize outDir).Reachable s) :
    WritersOk outDir s.processor ∧ s.processor.Replaced := by
  have hinit : WritersOk outDir (collectorMachine cpuNums fileSize outDir).init := writersOk_init
  refine Machine.invariant _
    (P := fun s : Setup n L Collector => WritersOk outDir s.processor ∧ s.processor.Replaced)
    ⟨hinit, fun _ _ hc => absurd hc List.not_mem_nil⟩ ?_ hs
  rintro s op t ⟨hw, hr⟩ h
  rcases collectorProgram_step h with hsame | ⟨o, ho, hstep⟩
  · rw [hsame]
    exact ⟨hw, hr⟩
  · exact ⟨hw.step hstep, hr.step hw ho hstep⟩

/-- The step is one of a task. -/
def ProgramOp.isTask : ProgramOp n CollectorTaskOp → Bool
  | .beside (.task _ _) => true
  | _ => false

/-- A step of a task in the program. -/
theorem task_of_isTask {s t : Setup n L Collector} {op : ProgramOp n CollectorTaskOp}
    (hop : op.isTask = true)
    (h : (collectorProgram n L outLen cpuNums fileSize outDir).step s op = some t) :
    t.capture = s.capture ∧ ∃ i k, s.processor.task i k = some t.processor := by
  cases op with
  | write b x => cases hop
  | loop => cases hop
  | beside op =>
    cases op with
    | tick secs => cases hop
    | createWriter => cases hop
    | task i k =>
      obtain ⟨p, hp, rfl⟩ := Option.map_eq_some_iff.mp h
      exact ⟨rfl, i, k, hp⟩

/-- INTERNAL: **the tasks by themselves** fetch nothing and change no writer. -/
theorem tasks_exec {s t : Setup n L Collector} {ops : List (ProgramOp n CollectorTaskOp)}
    (hops : ∀ op ∈ ops, op.isTask = true)
    (h : (collectorProgram n L outLen cpuNums fileSize outDir).exec s ops = some t) :
    t.capture = s.capture ∧ t.processor.Agree s.processor := by
  refine Machine.exec_induct _ (C := fun _ op => op.isTask = true)
    (P := fun u => u.capture = s.capture ∧ u.processor.Agree s.processor) ?_
    ⟨rfl, Agree.refl _⟩ (Machine.meets_of_forall_mem _ (fun _ => hops) _) h
  rintro u op v ⟨hcapture, hagree⟩ hop hv
  obtain ⟨hsame, i, k, htask⟩ := task_of_isTask hop hv
  exact ⟨hsame.trans hcapture, (agree_task htask).trans hagree⟩

/-- MAIN: **the writers catch up.**  In every run in which no CPU gets two writers in one second:
left to themselves, the tasks of the writers take only so many steps, in any order, and where none
of them can go on, the files of a CPU hold, one after the other, what had come out of its ring, and
each writer that was replaced has its file under its final name and no other.  The file of the
writer in use does not get its final name at any moment of such a run.
SRC: collector.rs:13-62, 153-170, file_writer/mod.rs:13-56, pt_ctrl/mod.rs:284-354 -/
theorem writers_catch_up {s : Setup n L Collector}
    (hs : (collectorProgram n L outLen cpuNums fileSize outDir).Reachable s)
    (hdistinct : s.processor.Distinct) :
    (∀ ops t, (∀ op ∈ ops, op.isTask = true) →
      (collectorProgram n L outLen cpuNums fileSize outDir).exec s ops = some t →
      ops.length + t.processor.work ≤ s.processor.work ∧
        ((∀ i k, t.processor.task i k = none) → ∀ b : Fin n,
          ((t.processor.tasks b).map (WriterTask.file · t.processor.fs)).flatten =
              s.capture.delivered b ∧
            ∀ u ∈ (t.processor.tasks b).dropLast, u.completeName ∈ t.processor.fs.dir ∧
              u.fName ∉ t.processor.fs.dir)) ∧
    ∀ b : Fin n, ∀ u ∈ (s.processor.tasks b).getLast?, u.completeName ∉ s.processor.fs.dir := by
  have hlower : ∀ (u : Setup n L Collector) op v, WritersOk outDir u.processor →
      op.isTask = true → (collectorProgram n L outLen cpuNums fileSize outDir).step u op = some v →
        WritersOk outDir v.processor ∧ v.processor.work < u.processor.work := by
    intro u op v hu hop hv
    obtain ⟨-, i, k, htask⟩ := task_of_isTask hop hv
    exact ⟨hu.of_agree (agree_task htask), work_lt_of_task hu htask⟩
  constructor
  · intro ops t hops ht
    have hreach := Machine.Reachable.exec _ hs ht
    obtain ⟨hcapture, hagree⟩ := tasks_exec hops ht
    have hdistinct' : t.processor.Distinct := by
      intro i
      rw [created, hagree.cores]
      exact hdistinct i
    obtain ⟨hw, hr⟩ := collectorProgram_replaced hreach
    refine ⟨?_, fun hquiet b => ?_⟩
    · exact Machine.length_add_le_of_inv _ hlower (collectorProgram_replaced hs).1 hops ht
    · have hfiles := collectorProgram_files hreach hdistinct'
      have hdone : ∀ u ∈ t.processor.tasks b, u.file t.processor.fs = u.sent ∧
          (u.txDropped = true → u.completeName ∈ t.processor.fs.dir ∧
            u.fName ∉ t.processor.fs.dir) := by
        intro u hu
        obtain ⟨k, hk⟩ := List.mem_iff_getElem?.mp hu
        refine (hfiles.task b u hu).file_of_step_eq_none ?_
        have hnone := hquiet b k
        simp only [task, hk] at hnone
        cases hstep : u.step t.processor.fs with
        | none => rfl
        | some r =>
          rw [hstep] at hnone
          cases hnone
      constructor
      · rw [List.map_congr_left fun u hu => (hdone u hu).1, collectorProgram_sent hreach b,
          hcapture]
      · intro u hu
        refine (hdone u (List.mem_of_mem_dropLast hu)).2 ?_
        rcases (collectorProgram_staffed hreach).tasks_eq hw hr b with hnil | ⟨pre, v, heq, hpre, -⟩
        · rw [hnil] at hu
          cases hu
        · rw [heq, List.dropLast_concat] at hu
          exact hpre u hu
  · intro b u hu
    obtain ⟨hw, hr⟩ := collectorProgram_replaced hs
    rcases (collectorProgram_staffed hs).tasks_eq hw hr b with hnil | ⟨pre, v, heq, -, hopen⟩
    · rw [hnil] at hu
      cases hu
    · rw [heq, List.getLast?_concat] at hu
      obtain rfl := Option.some.inj hu
      refine TaskOk.completeName_notMem ?_ hopen
      refine (collectorProgram_files hs hdistinct).task b v ?_
      rw [heq]
      exact List.mem_append_right _ (List.mem_singleton_self v)

end Program

/-- A task that has ended, or waits at an empty queue, cannot go on. -/
theorem task_eq_none {s : Collector} {i k : ℕ}
    (h : ∀ t ∈ s.tasks i, t.phase = .ended ∨
      (∃ f pos, t.phase = .writing f pos) ∧ t.rx = [] ∧ t.txDropped = false) :
    s.task i k = none := by
  cases hk : (s.tasks i)[k]? with
  | none => simp only [task, hk]
  | some t =>
    have hstep : t.step s.fs = none := by
      rcases h t (List.mem_of_getElem? hk) with hp | ⟨⟨f, pos, hp⟩, hrx, hopen⟩
      · simp only [WriterTask.step, hp]
      · simp [WriterTask.step, hp, hrx, hopen]
    simp only [task, hk, hstep]

/-- The second file of `oneByteRun` is created. -/
def secondFile : List (ProgramOp 1 CollectorTaskOp) := [.beside (.task 0 1)]

/-- The task of the second file catches up, and the byte of the ring is in the files. -/
theorem writers_catch_up_oneByte : ∃ s t,
    (collectorProgram 1 2 1 1 0 "out/").exec (collectorProgram 1 2 1 1 0 "out/").init oneByteRun =
        some s ∧
      (collectorProgram 1 2 1 1 0 "out/").exec s secondFile = some t ∧
      ((t.processor.tasks 0).map (WriterTask.file · t.processor.fs)).flatten =
        s.capture.delivered 0 ∧ s.capture.delivered 0 = [7] := by
  have hrun : ((collectorProgram 1 2 1 1 0 "out/").exec (collectorProgram 1 2 1 1 0 "out/").init
      oneByteRun).map (fun s => (s.processor.created 0, s.processor.wt.length,
        s.capture.delivered 0)) = some ([0, 1], 1, [7]) := by
    decide +kernel
  have hnext : ((collectorProgram 1 2 1 1 0 "out/").exec (collectorProgram 1 2 1 1 0 "out/").init
      (oneByteRun ++ secondFile)).map (fun t => (t.processor.tasks 0).map fun u =>
        (u.phase, u.rx, u.txDropped)) =
      some [(.ended, [], true), (.writing 1 0, [], false)] := by
    decide +kernel
  obtain ⟨s, hs, hfacts⟩ := Option.map_eq_some_iff.mp hrun
  obtain ⟨t, ht, htasks⟩ := Option.map_eq_some_iff.mp hnext
  simp only [Prod.mk.injEq] at hfacts
  obtain ⟨hcreated, hlen, hdelivered⟩ := hfacts
  obtain ⟨s', hs', hst⟩ := (Machine.exec_append _).mp ht
  obtain rfl : s' = s := Option.some.inj (hs'.symm.trans hs)
  have hdistinct := distinct_of_oneWriter ⟨oneByteRun, hs⟩ hlen (by
    rw [hcreated]
    decide)
  have hwt := (tasks_exec (by decide) hst).2.wt
  have hquiet : ∀ i k, t.processor.task i k = none := by
    intro i k
    apply task_eq_none
    intro u hu
    rcases Nat.eq_zero_or_pos i with rfl | hi
    · have hmem := List.mem_map_of_mem (f := fun u => (u.phase, u.rx, u.txDropped)) hu
      rw [htasks, List.mem_pair, Prod.mk.injEq, Prod.mk.injEq, Prod.mk.injEq, Prod.mk.injEq] at hmem
      rcases hmem with ⟨hp, -, -⟩ | ⟨hp, hrx, hopen⟩
      · exact .inl hp
      · exact .inr ⟨⟨1, 0, hp⟩, hrx, hopen⟩
    · rw [collectorProgram_unused ⟨oneByteRun ++ secondFile, ht⟩ (by rw [hwt]; omega)] at hu
      cases hu
  have hcaught := ((writers_catch_up ⟨oneByteRun, hs⟩ hdistinct).1 secondFile t
    (by decide) hst).2 hquiet 0
  exact ⟨s', t, hs, hst, hcaught.1, hdelivered⟩

end PtkGenerator

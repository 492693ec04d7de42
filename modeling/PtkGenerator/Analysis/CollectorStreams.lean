import PtkGenerator.Analysis.CollectedFiles
import PtkGenerator.Analysis.ProgramStreams
import PtkGenerator.Model.CollectorLoop

/-!
# The files of a collector that is stopped at any moment

The collector never returns from its loop: it ends when it is killed, or panics at a full queue.
So what counts is what the files hold at any moment.  The bytes sent to the writers of a CPU are
what came out of its ring, in order, and the file of a writer holds a beginning of what was sent to
it, and all of that once it has its final name.
-/

set_option autoImplicit false

namespace PtkGenerator

variable {n L outLen cpuNums fileSize : ℕ} [NeZero L] {outDir : String}

namespace Collector

/-- The writers are there. -/
structure Staffed (s : Collector) : Prop where
  opened : s.closed = false
  wt : ∀ wt ∈ s.wt, wt ≠ none

/-- Until the closing every CPU keeps its writer. -/
theorem Staffed.step {s s' : Collector} (h : s.Staffed) {op : CollectorOp} (hop : op ≠ .close)
    (hstep : (collectorMachine cpuNums fileSize outDir).step s op = some s') : s'.Staffed := by
  cases op with
  | tick secs =>
    obtain rfl := Option.some.inj hstep
    exact ⟨h.opened, h.wt⟩
  | createWriter =>
    obtain ⟨-, rfl⟩ := createWriter_cases hstep
    refine ⟨h.opened, fun wt hwt => ?_⟩
    rcases List.mem_append.mp hwt with hold | hnew
    · exact h.wt wt hold
    · rw [List.mem_singleton.mp hnew]
      exact Option.some_ne_none _
  | processor i buff size =>
    have hs : s.processor fileSize i buff size = some s' := hstep
    obtain ⟨hopen, ⟨-, rfl⟩ | ⟨w, hw, hsize⟩⟩ := exists_writer_of_processor hs
    · exact h
    · obtain ⟨hopen', -, -, hwt⟩ := cores_processor hopen hw hsize hs
      refine ⟨hopen', fun wt hmem => ?_⟩
      rcases hwt with ⟨-, hwt, -⟩ | ⟨-, hwt, -⟩
      · rw [hwt] at hmem
        rcases List.mem_or_eq_of_mem_set hmem with hold | rfl
        · exact h.wt wt hold
        · exact Option.some_ne_none _
      · rw [hwt] at hmem
        rcases List.mem_or_eq_of_mem_set hmem with hold | rfl
        · exact h.wt wt hold
        · exact Option.some_ne_none _
  | close => exact absurd rfl hop
  | task i k =>
    obtain ⟨t, fs, t', -, -, rfl⟩ := task_cases hstep
    exact ⟨h.opened, h.wt⟩

/-- What a call passes for its CPU. -/
theorem Staffed.passed {s s' : Collector} (h : s.Staffed) {i : ℕ} {buff : Bytes} {size : ℕ}
    (hs : s.processor fileSize i buff size = some s') :
    s'.passed = Function.update s.passed i (s.passed i ++ buff.take size) := by
  obtain ⟨hopen, ⟨hnone, -⟩ | ⟨w, hw, hsize⟩⟩ := exists_writer_of_processor hs
  · exact absurd rfl (h.wt none (List.mem_of_getElem? hnone))
  · exact (cores_processor hopen hw hsize hs).2.2.1

end Collector

/-! ## The steps of the program are those of the collector -/

omit [NeZero L] in
/-- What runs beside the capture loop is a step of the collector, and does not close the writers. -/
theorem collectorBeside_step (fileSize : ℕ) {s : Setup n L Collector} {op : CollectorTaskOp}
    {p : Collector} (h : collectorBeside cpuNums outDir s op = some p) :
    ∃ o, o ≠ CollectorOp.close ∧ p.passed = s.processor.passed ∧
      (collectorMachine cpuNums fileSize outDir).step s.processor o = some p := by
  cases op with
  | tick secs =>
    obtain rfl := Option.some.inj h
    exact ⟨.tick secs, nofun, rfl, rfl⟩
  | createWriter =>
    refine ⟨.createWriter, nofun, ?_, h⟩
    obtain ⟨-, rfl⟩ := Collector.createWriter_cases h
    rfl
  | task i k => exact ⟨.task i k, nofun, (Collector.agree_task h).passed, h⟩

/-- A step of the program is one of the collector, or none. -/
theorem collectorProgram_step {s t : Setup n L Collector} {op : ProgramOp n CollectorTaskOp}
    (h : (collectorProgram n L outLen cpuNums fileSize outDir).step s op = some t) :
    t.processor = s.processor ∨ ∃ o, o ≠ CollectorOp.close ∧
      (collectorMachine cpuNums fileSize outDir).step s.processor o = some t.processor := by
  cases op with
  | write b x =>
    obtain ⟨c, -, rfl⟩ := Option.map_eq_some_iff.mp h
    exact .inl rfl
  | loop =>
    obtain ⟨-, hnext⟩ := Option.ite_none_right_eq_some.mp h
    obtain rfl := Option.some.inj hnext
    obtain hsame | hpanic | ⟨c, -, hnext⟩ | ⟨r, p, answer, c, -, hp, -, hnext⟩ :=
      Setup.next_cases (Collector.boundedProcessor fileSize) s
    · rw [hsame]
      exact .inl rfl
    · rw [hpanic]
      exact .inl rfl
    · rw [hnext]
      exact .inl rfl
    · rw [hnext]
      exact .inr ⟨.processor _ _ _, nofun, Collector.boundedProcessor_eq_some hp⟩
  | beside op =>
    obtain ⟨p, hp, rfl⟩ := Option.map_eq_some_iff.mp h
    obtain ⟨o, ho, -, hstep⟩ := collectorBeside_step fileSize hp
    exact .inr ⟨o, ho, hstep⟩

/-- A run of the program is one of the collector. -/
theorem collectorProgram_mapsTo (n L outLen cpuNums fileSize : ℕ) (outDir : String) [NeZero L] :
    (collectorProgram n L outLen cpuNums fileSize outDir).MapsTo
      (collectorMachine cpuNums fileSize outDir) Setup.processor where
  init := rfl
  step := by
    intro s op t _ h
    rcases collectorProgram_step h with hsame | ⟨o, -, hstep⟩
    · exact .inl hsame
    · exact .inr ⟨o, hstep⟩

/-- Before the end the writers of the program are there. -/
theorem collectorProgram_staffed {s : Setup n L Collector}
    (hs : (collectorProgram n L outLen cpuNums fileSize outDir).Reachable s) :
    s.processor.Staffed := by
  refine Machine.invariant _ (P := fun s : Setup n L Collector => s.processor.Staffed)
    ⟨rfl, fun wt hwt => absurd hwt List.not_mem_nil⟩ ?_ hs
  intro s op t hstaffed h
  rcases collectorProgram_step h with hsame | ⟨o, ho, hstep⟩
  · rw [hsame]
    exact hstaffed
  · exact hstaffed.step ho hstep

/-- INTERNAL: what is passed for a CPU is what came out of its ring.
SRC: collector.rs:13-35 -/
theorem collector_keeps (n L outLen cpuNums fileSize : ℕ) (outDir : String) [NeZero L] :
    Keeps (collectorProgram n L outLen cpuNums fileSize outDir)
      (Collector.boundedProcessor fileSize) (collectorBeside cpuNums outDir)
      fun p b => p.passed b.val where
  init _ := rfl
  call := by
    intro s hs i buff size q answer h b
    have hpassed := (collectorProgram_staffed hs).passed (Collector.boundedProcessor_eq_some h)
    rw [hpassed]
    by_cases hb : i = b.val
    · subst hb
      rw [Function.update_self, if_pos rfl]
    · rw [Function.update_of_ne (Ne.symm hb), if_neg hb, List.append_nil]
  beside := by
    intro s op q h b
    obtain ⟨-, -, hpassed, -⟩ := collectorBeside_step fileSize h
    rw [hpassed]

/-- INTERNAL: **what was sent to the writers of a CPU** is what came out of its ring.
SRC: collector.rs:13-35 -/
theorem collectorProgram_sent {s : Setup n L Collector}
    (hs : (collectorProgram n L outLen cpuNums fileSize outDir).Reachable s) (b : Fin n) :
    ((s.processor.tasks b).map WriterTask.sent).flatten = s.capture.delivered b := by
  obtain ⟨ops, hops⟩ :=
    (collectorProgram_mapsTo n L outLen cpuNums fileSize outDir).reachable hs
  have hkept := (collector_keeps n L outLen cpuNums fileSize outDir).delivered hs b
  rw [(Collector.writersOk_init.exec hops b.val).passed, Collector.cores, List.map_map] at hkept
  exact hkept

/-- INTERNAL: every file of the program is in step with what was sent to its task.
SRC: collector.rs:13-62, file_writer/mod.rs:13-56 -/
theorem collectorProgram_files {s : Setup n L Collector}
    (hs : (collectorProgram n L outLen cpuNums fileSize outDir).Reachable s)
    (hdistinct : s.processor.Distinct) : s.processor.FilesOk := by
  obtain ⟨ops, hops⟩ :=
    (collectorProgram_mapsTo n L outLen cpuNums fileSize outDir).reachable hs
  exact Collector.filesOk_init.exec Collector.writersOk_init hops hdistinct

/-- A CPU without a writer has no tasks. -/
theorem collectorProgram_unused {s : Setup n L Collector}
    (hs : (collectorProgram n L outLen cpuNums fileSize outDir).Reachable s) {i : ℕ}
    (hi : s.processor.wt.length ≤ i) : s.processor.tasks i = [] := by
  obtain ⟨ops, hops⟩ :=
    (collectorProgram_mapsTo n L outLen cpuNums fileSize outDir).reachable hs
  have hcpu := (Collector.writersOk_init.exec hops) i
  rw [List.getElem?_eq_none hi] at hcpu
  exact List.map_eq_nil_iff.mp (hcpu.unused rfl)

/-! ## The files -/

/-- What the file of a task holds, under whichever of its names. -/
def WriterTask.file (t : WriterTask) (fs : FileSystem) : Bytes :=
  match (fs.dir.lookup t.fName).or (fs.dir.lookup t.completeName) with
  | some f => fs.content f
  | none => []

/-- The file of a task holds a beginning of what was sent to it, and all of that under its final
name. -/
theorem TaskOk.file_written {fs : FileSystem} {t : WriterTask} (h : TaskOk fs t) :
    t.file fs <+: t.sent ∧ (t.completeName ∈ fs.dir → t.file fs = t.sent) := by
  have hmem : ∀ name, fs.dir.lookup name = none → name ∉ fs.dir := by
    intro name hname hin
    rw [← Finmap.lookup_isSome, hname] at hin
    cases hin
  unfold TaskOk at h
  unfold WriterTask.file
  split at h
  · obtain ⟨hf, hc, -⟩ := h
    rw [hf, hc]
    exact ⟨List.nil_prefix, fun hin => absurd hin (hmem _ hc)⟩
  · obtain ⟨hf, hc, -, hsent⟩ := h
    rw [hf, hsent]
    exact ⟨List.prefix_append _ _, fun hin => absurd hin (hmem _ hc)⟩
  · obtain ⟨⟨f, hf, hsent⟩, hc, -⟩ := h
    rw [hf, hsent]
    exact ⟨List.prefix_rfl, fun _ => rfl⟩
  · obtain ⟨hf, ⟨f, hc, hsent⟩, -⟩ := h
    rw [hf, hc, hsent]
    exact ⟨List.prefix_rfl, fun _ => rfl⟩
  · exact h.elim

/-- MAIN: **the files of the collector hold the streams at any moment.**  Whatever the driver, the
writers and the clock do: what was sent to the writers of a CPU, one after the other, is what came
out of its ring, and that is a prefix of what the driver has written there.  As long as no CPU gets
two writers in one second, the file of a writer holds a beginning of what was sent to it, and all of
that once it has its final name, and no file that held data was overwritten.
SRC: collector.rs:13-62, 153-170, file_writer/mod.rs:13-56, pt_ctrl/mod.rs:284-354 -/
theorem collector_keeps_streams {s : Setup n L Collector}
    (hs : (collectorProgram n L outLen cpuNums fileSize outDir).Reachable s) :
    (∀ b : Fin n, s.capture.delivered b <+: s.capture.written b ∧
      ((s.processor.tasks b).map WriterTask.sent).flatten = s.capture.delivered b) ∧
    (s.processor.Distinct → s.processor.fs.overwrote = false ∧
      ∀ b : Fin n, ∀ t ∈ s.processor.tasks b, t.file s.processor.fs <+: t.sent ∧
        (t.completeName ∈ s.processor.fs.dir → t.file s.processor.fs = t.sent)) := by
  refine ⟨fun b => ⟨delivered_written hs b, collectorProgram_sent hs b⟩, fun hdistinct => ?_⟩
  have hfiles := collectorProgram_files hs hdistinct
  exact ⟨hfiles.intact, fun b t ht => (hfiles.task b.val t ht).file_written⟩

/-- One CPU with its seconds. -/
theorem distinct_of_oneWriter {s : Setup n L Collector}
    (hs : (collectorProgram n L outLen cpuNums fileSize outDir).Reachable s)
    (hlen : s.processor.wt.length = 1) (h : (s.processor.created 0).Nodup) :
    s.processor.Distinct := by
  intro i
  rcases Nat.eq_zero_or_pos i with rfl | hi
  · exact h
  · rw [Collector.created, Collector.cores, collectorProgram_unused hs (by omega)]
    exact List.nodup_nil

/-- A byte fills the file of size zero, whose task comes to its end. -/
def oneByteRun : List (ProgramOp 1 CollectorTaskOp) :=
  [.beside .createWriter, .beside (.tick 1), .write (Fin.last 0) 7, .loop, .loop, .loop] ++
    List.replicate 4 (.beside (.task (Fin.last 0) 0))

/-- One byte is captured, one CPU; the stream is in its files. -/
theorem collector_keeps_streams_oneByte :
    ∃ s, (collectorProgram 1 2 1 1 0 "out/").exec (collectorProgram 1 2 1 1 0 "out/").init
        oneByteRun = some s ∧
      (s.processor.tasks 0).map (WriterTask.file · s.processor.fs) = [[7], []] ∧
      s.processor.fs.overwrote = false := by
  have hrun : ((collectorProgram 1 2 1 1 0 "out/").exec (collectorProgram 1 2 1 1 0 "out/").init
      oneByteRun).map (fun s => ((s.processor.tasks 0).map (WriterTask.file · s.processor.fs),
        s.processor.created 0, s.processor.wt.length)) = some ([[7], []], [0, 1], 1) := by
    decide +kernel
  obtain ⟨s, hs, hfacts⟩ := Option.map_eq_some_iff.mp hrun
  simp only [Prod.mk.injEq] at hfacts
  obtain ⟨hfile, hcreated, hlen⟩ := hfacts
  have hdistinct : s.processor.Distinct := distinct_of_oneWriter ⟨oneByteRun, hs⟩ hlen (by
    rw [hcreated]
    decide)
  exact ⟨s, hs, hfile, ((collector_keeps_streams ⟨oneByteRun, hs⟩).2 hdistinct).1⟩

end PtkGenerator

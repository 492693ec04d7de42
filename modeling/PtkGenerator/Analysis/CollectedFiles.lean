import PtkGenerator.Analysis.CollectorWriters

/-!
# What the files of the collector hold

As long as no CPU gets two writers in one second, every task has the two names of its file to
itself, so its file holds what was sent to it (`FilesOk`), and the files of a CPU together hold
what was passed for it, whatever the tasks do when.

Two writers of one CPU in one second have one name.  When the tasks run one after the other, the
second of the two renames its file onto that of the first.
-/

set_option autoImplicit false

namespace PtkGenerator

variable {cpuNums fileSize : ℕ} {outDir : String}

namespace Collector

/-! ## Every task and its file -/

/-- Every file holds what was sent to its task, and there are no others. -/
structure FilesOk (s : Collector) : Prop where
  ok : s.fs.Ok
  task : ∀ i, ∀ t ∈ s.tasks i, TaskOk s.fs t
  used : ∀ n f, s.fs.dir.lookup n = some f →
    ∃ i, ∃ t ∈ s.tasks i, n = t.fName ∨ n = t.completeName
  intact : s.fs.overwrote = false

/-- The names of the files are made of the CPUs and the seconds. -/
def Named (outDir : String) (s : Collector) : Prop :=
  ∀ i, ∀ c ∈ s.cores i, c.fName = getFileName c.created i outDir "tmp" ∧
    c.completeName = getFileName c.created i outDir "data"

/-- Writers in order have names made of their clocks and CPUs. -/
theorem WritersOk.named {s : Collector} (h : WritersOk outDir s) : Named outDir s :=
  fun i => (h i).named

/-- A task counts among those created for its CPU. -/
theorem mem_created {s : Collector} {i : ℕ} {t : WriterTask} (ht : t ∈ s.tasks i) :
    t.created ∈ s.created i :=
  List.mem_map_of_mem (f := TaskCore.created) (List.mem_map_of_mem (f := WriterTask.core) ht)

/-- Tasks whose CPUs or seconds differ have no name in common. -/
theorem Named.names_ne {s : Collector} (h : Named outDir s) {i : ℕ} {t : WriterTask}
    (ht : t ∈ s.tasks i) (j time : ℕ) (hne : i = j → t.created ≠ time) :
    t.fName ≠ getFileName time j outDir "tmp" ∧ t.fName ≠ getFileName time j outDir "data" ∧
      t.completeName ≠ getFileName time j outDir "tmp" ∧
      t.completeName ≠ getFileName time j outDir "data" := by
  have hf : t.fName = getFileName t.created i outDir "tmp" :=
    (h i t.core (List.mem_map_of_mem ht)).1
  have hc : t.completeName = getFileName t.created i outDir "data" :=
    (h i t.core (List.mem_map_of_mem ht)).2
  rw [hf, hc]
  have hsuffix : ∀ suffix : String,
      getFileName t.created i outDir suffix ≠ getFileName time j outDir suffix := by
    intro suffix he
    obtain ⟨htime, hidx⟩ := getFileName_inj he
    exact hne hidx htime
  exact ⟨hsuffix "tmp", tmp_ne_data _ _ _ _ _, (tmp_ne_data _ _ _ _ _).symm, hsuffix "data"⟩

/-- The two names of a task differ. -/
theorem Named.fName_ne {s : Collector} (h : Named outDir s) {i : ℕ} {t : WriterTask}
    (ht : t.core ∈ s.cores i) : t.fName ≠ t.completeName := by
  obtain ⟨hf, hc⟩ := h i t.core ht
  intro he
  exact tmp_ne_data _ _ _ _ _ (hf.symm.trans (he.trans hc))

/-- No other writer of the CPU has the second of a writer. -/
theorem Distinct.index_eq {s : Collector} (h : s.Distinct) {i k m : ℕ} {t u : WriterTask}
    (ht : (s.tasks i)[k]? = some t) (hu : (s.tasks i)[m]? = some u)
    (hcreated : u.created = t.created) : k = m := by
  have hk : (s.created i)[k]? = some t.created := by
    simp only [created, cores, List.getElem?_map, ht]
    rfl
  have hm : (s.created i)[m]? = some t.created := by
    simp only [created, cores, List.getElem?_map, hu, ← hcreated]
    rfl
  exact (List.getElem?_inj (List.getElem?_eq_some_iff.mp hk).1 (h i)).mp (hk.trans hm.symm)

/-- The tasks keep their names when one of them goes on. -/
theorem exists_task_update {s : Collector} {i k j : ℕ} {t t' u : WriterTask}
    (ht : (s.tasks i)[k]? = some t) (hsame : t.Same t') (hu : u ∈ s.tasks j) :
    ∃ u' ∈ Function.update s.tasks i ((s.tasks i).set k t') j,
      u'.fName = u.fName ∧ u'.completeName = u.completeName := by
  by_cases hj : j = i
  · subst hj
    rw [Function.update_self]
    obtain ⟨m, hm⟩ := List.mem_iff_getElem?.mp hu
    by_cases hkm : k = m
    · subst hkm
      obtain rfl := Option.some.inj (ht.symm.trans hm)
      refine ⟨t', ?_, hsame.fName, hsame.completeName⟩
      exact List.mem_of_getElem? (List.getElem?_set_self (List.getElem?_eq_some_iff.mp ht).1)
    · exact ⟨u, List.mem_of_getElem? ((List.getElem?_set_ne hkm).trans hm), rfl, rfl⟩
  · rw [Function.update_of_ne hj]
    exact ⟨u, hu, rfl, rfl⟩

namespace FilesOk

variable {s : Collector}

/-- A change of one task keeps the files, if its own file is kept. -/
theorem modifyTask (h : s.FilesOk) {i k : ℕ} (g : WriterTask → WriterTask)
    (hname : ∀ t, (g t).fName = t.fName ∧ (g t).completeName = t.completeName)
    (hg : ∀ t, (s.tasks i)[k]? = some t → TaskOk s.fs t → TaskOk s.fs (g t)) :
    (s.modifyTask i k g).FilesOk := by
  refine ⟨h.ok, ?_, ?_, h.intact⟩
  · apply Families.forall_update (P := fun _ (l : List WriterTask) => ∀ t ∈ l, TaskOk s.fs t) h.task
    exact forall_mem_modify (h.task i) fun t ht => hg t ht (h.task i t (List.mem_of_getElem? ht))
  · intro n f hn
    obtain ⟨j, t, ht, hnames⟩ := h.used n f hn
    refine ⟨j, ?_⟩
    by_cases hj : j = i
    · subst hj
      obtain ⟨m, hm⟩ := List.mem_iff_getElem?.mp ht
      refine ⟨if k = m then g t else t, ?_, ?_⟩
      · apply List.mem_of_getElem? (i := m)
        simp only [Collector.modifyTask, Function.update_self, List.getElem?_modify, hm]
        rfl
      · split
        · rw [(hname t).1, (hname t).2]
          exact hnames
        · exact hnames
    · refine ⟨t, ?_, hnames⟩
      simp only [Collector.modifyTask, Function.update_of_ne hj]
      exact ht

/-- A new task keeps the files, if its second is new. -/
theorem newWriter (h : s.FilesOk) (hw : Named outDir s) {i : ℕ} (hnew : s.clock ∉ s.created i) :
    (s.newWriter i outDir "tmp").1.FilesOk := by
  have hunused : ∀ suffix ∈ ["tmp", "data"],
      s.fs.dir.lookup (getFileName s.clock i outDir suffix) = none := by
    intro suffix hsuffix
    rw [Option.eq_none_iff_forall_ne_some]
    intro f hf
    obtain ⟨j, t, ht, hnames⟩ := h.used _ f hf
    have hne := hw.names_ne ht i s.clock fun hij htime => by
      subst hij
      exact hnew (htime ▸ mem_created ht)
    rcases List.mem_pair.mp hsuffix with rfl | rfl
    · rcases hnames with hn | hn
      · exact hne.1 hn.symm
      · exact hne.2.2.1 hn.symm
    · rcases hnames with hn | hn
      · exact hne.2.1 hn.symm
      · exact hne.2.2.2 hn.symm
  have htask : TaskOk s.fs ⟨getFileName s.clock i outDir "tmp",
      getCompleteName (getFileName s.clock i outDir "tmp") "tmp", [], false, .spawned, s.clock,
      []⟩ := by
    refine ⟨hunused "tmp" (by simp), ?_, rfl⟩
    rw [getCompleteName_getFileName]
    exact hunused "data" (by simp)
  refine ⟨h.ok, ?_, ?_, h.intact⟩
  · apply Families.forall_update (P := fun _ (l : List WriterTask) => ∀ t ∈ l, TaskOk s.fs t) h.task
    intro t ht
    rcases List.mem_append.mp ht with hold | hlast
    · exact h.task i t hold
    · rw [List.mem_singleton.mp hlast]
      exact htask
  · intro n f hn
    obtain ⟨j, t, ht, hnames⟩ := h.used n f hn
    refine ⟨j, t, ?_, hnames⟩
    by_cases hj : j = i
    · subst hj
      simp only [Collector.newWriter, Function.update_self]
      exact List.mem_append_left _ ht
    · simp only [Collector.newWriter, Function.update_of_ne hj]
      exact ht

/-- The files do not depend on the writers that are held, nor on what was passed. -/
theorem setWt (h : s.FilesOk) (wt : List (Option DataWriter)) (passed : ℕ → Bytes) :
    FilesOk { s with wt, passed } := ⟨h.ok, h.task, h.used, h.intact⟩

/-- A call of the processor keeps the files, if a new writer gets a new second. -/
theorem processor (h : s.FilesOk) (hw : WritersOk outDir s) {s' : Collector} {i : ℕ} {buff : Bytes}
    {size : ℕ} (hs : s.processor fileSize i buff size = some s')
    (hfresh : s.Fresh fileSize (.processor i buff size)) : s'.FilesOk := by
  obtain ⟨hopen, ⟨-, rfl⟩ | ⟨w, hwt, hsize⟩⟩ := exists_writer_of_processor hs
  · exact h
  · have hi := hw i
    rw [hopen, hwt] at hi
    obtain ⟨hdir, pre, c, hcs, htx, hdrop, -⟩ := hi.writer w rfl
    -- the writer's task has its writer
    have hsent : (s.modifyTask i w.tx (·.send (buff.take size))).FilesOk := by
      apply h.modifyTask (WriterTask.send (buff.take size)) (fun _ => ⟨rfl, rfl⟩)
      intro t ht htask
      apply htask.send
      have hcore : (s.cores i)[w.tx]? = some t.core := by
        rw [Collector.cores, List.getElem?_map, ht]
        rfl
      rw [hcs, htx, List.getElem?_concat_length, Option.some.injEq] at hcore
      show t.core.txDropped = false
      rw [← hcore]
      exact hdrop
    rw [processor_eq hopen hwt hsize] at hs
    split at hs
    · next hfull =>
      obtain rfl := Option.some.inj hs
      have hcores := cores_modifyTask (g := (·.send (buff.take size)))
        (m := TaskCore.send (buff.take size)) (fun _ => rfl) s i w.tx
      have hnamed : Named outDir (s.modifyTask i w.tx (·.send (buff.take size))) := by
        unfold Named
        rw [hcores]
        exact Families.forall_update (P := fun j (cs : List TaskCore) => ∀ c ∈ cs,
          c.fName = getFileName c.created j outDir "tmp" ∧
            c.completeName = getFileName c.created j outDir "data")
          hw.named (hi.send (buff.take size)).named
      have hcreated : s.clock ∉ (s.modifyTask i w.tx (·.send (buff.take size))).created i := by
        rw [created_update hcores, Function.update_self,
          created_modify (TaskCore.send (buff.take size)) (fun _ => rfl)]
        exact hfresh w hwt hfull
      have hnew := hsent.newWriter hnamed hcreated
      rw [hdir]
      exact (hnew.modifyTask (i := i) (k := w.tx) WriterTask.drop (fun _ => ⟨rfl, rfl⟩)
        fun t _ ht => ht.drop).setWt _ _
    · obtain rfl := Option.some.inj hs
      exact hsent.setWt _ _

/-- A created writer keeps the files, if its second is new. -/
theorem createWriter (h : s.FilesOk) (hw : WritersOk outDir s) {s' : Collector}
    (hs : s.createWriter cpuNums outDir = some s') : s'.FilesOk := by
  obtain ⟨-, rfl⟩ := createWriter_cases hs
  have hi := hw s.wt.length
  rw [List.getElem?_eq_none le_rfl] at hi
  refine (h.newWriter hw.named ?_).setWt _ _
  rw [created, hi.unused rfl]
  exact List.not_mem_nil

/-- The closing of the writers keeps the files. -/
theorem close (h : s.FilesOk) {s' : Collector} (hs : s.close = some s') : s'.FilesOk := by
  obtain ⟨-, rfl⟩ := close_cases hs
  refine ⟨h.ok, ?_, ?_, h.intact⟩
  · intro i t ht
    obtain ⟨t', ht', rfl⟩ := List.mem_map.mp ht
    exact (h.task i t' ht').drop
  · intro n f hn
    obtain ⟨i, t, ht, hnames⟩ := h.used n f hn
    exact ⟨i, t.drop, List.mem_map_of_mem (f := WriterTask.drop) ht, hnames⟩

/-- INTERNAL: **a step of a task** with names of its own leaves the files of the others alone.
SRC: file_writer/mod.rs:16-25 -/
theorem task_step (h : s.FilesOk) (hw : WritersOk outDir s) (hdistinct : s.Distinct)
    {s' : Collector} {i k : ℕ} (hs : s.task i k = some s') : s'.FilesOk := by
  obtain ⟨t, fs, t', ht, hstep, rfl⟩ := task_cases hs
  have hmem := List.mem_of_getElem? ht
  have hnames : t.fName = getFileName t.created i outDir "tmp" ∧
      t.completeName = getFileName t.created i outDir "data" :=
    hw.named i t.core (List.mem_map_of_mem hmem)
  have hne : t.fName ≠ t.completeName := hw.named.fName_ne (List.mem_map_of_mem hmem)
  obtain ⟨hok, htask, hsame, hover, hframe⟩ := (h.task i t hmem).step h.ok hne hstep
  -- another task has other names, so its file is as it was
  have hother : ∀ j, ∀ u ∈ s.tasks j, (i = j → u.created ≠ t.created) → TaskOk fs u := by
    intro j u hu hcreated
    have hdiff := hw.named.names_ne hu i t.created fun hji => hcreated hji.symm
    rw [← hnames.1, ← hnames.2] at hdiff
    exact (h.task j u hu).frame (hframe _ hdiff.1 hdiff.2.1) (hframe _ hdiff.2.2.1 hdiff.2.2.2)
  refine ⟨hok, ?_, ?_, hover.trans h.intact⟩
  · intro j u hu
    by_cases hj : j = i
    · subst hj
      simp only [Function.update_self] at hu
      obtain ⟨m, hm⟩ := List.mem_iff_getElem?.mp hu
      refine Families.forall_set (P := fun _ => TaskOk fs) htask (fun m u hkm hm => ?_) m u hm
      exact hother j u (List.mem_of_getElem? hm) fun _ hcreated =>
        hkm (Distinct.index_eq hdistinct ht hm hcreated)
    · simp only [Function.update_of_ne hj] at hu
      exact hother j u hu fun hij => absurd hij.symm hj
  · -- a name in use is one of the two of the task, or was in use
    intro n f hn
    have hkept : ∀ j, ∀ u ∈ s.tasks j, n = u.fName ∨ n = u.completeName → ∃ j',
        ∃ u' ∈ Function.update s.tasks i ((s.tasks i).set k t') j',
          n = u'.fName ∨ n = u'.completeName := by
      intro j u hu hnu
      obtain ⟨u', hu', hnames'⟩ := exists_task_update ht hsame hu
      exact ⟨j, u', hu', hnames'.1.symm ▸ hnames'.2.symm ▸ hnu⟩
    by_cases hnt : n = t.fName ∨ n = t.completeName
    · exact hkept i t hmem hnt
    · obtain ⟨hnf, hnc⟩ := not_or.mp hnt
      rw [(hframe n hnf hnc).1] at hn
      obtain ⟨j, u, hu, hnu⟩ := h.used n f hn
      exact hkept j u hu hnu

/-- INTERNAL: **the files stay in step with what was sent**, as long as no CPU has two writers in
one second.
SRC: collector.rs:13-35, file_writer/mod.rs:13-56 -/
theorem exec {s' : Collector} {ops : List CollectorOp} (h : s.FilesOk) (hw : WritersOk outDir s)
    (hs : (collectorMachine cpuNums fileSize outDir).exec s ops = some s')
    (hdistinct : s'.Distinct) : s'.FilesOk := by
  induction ops generalizing s with
  | nil => exact Option.some.inj hs ▸ h
  | cons op ops ih =>
    obtain ⟨u, hu, hrest⟩ := (Machine.exec_cons_eq_some _).mp hs
    have hwu := hw.step hu
    have hud := ((distinct_exec_iff hwu hrest).mp hdistinct).1
    obtain ⟨hsd, hfresh⟩ := (distinct_step_iff hw hu).mp hud
    refine ih ?_ hwu hrest
    cases op with
    | tick secs =>
      obtain rfl := Option.some.inj hu
      exact ⟨h.ok, h.task, h.used, h.intact⟩
    | createWriter => exact h.createWriter hw hu
    | processor i buff size => exact h.processor hw hu hfresh
    | close => exact h.close hu
    | task i k => exact h.task_step hw hsd hu

end FilesOk

/-! ## The completed files -/

/-- The tasks of the writers have ended. -/
def AllEnded (s : Collector) : Prop :=
  ∀ i, ∀ t ∈ s.tasks i, t.phase = .ended ∨ t.phase = .failed

/-- What the completed files of a CPU hold, in the order of their creation. -/
def dataFiles (s : Collector) (i : ℕ) : List Bytes :=
  ((s.tasks i).map WriterTask.completeName).dedup.filterMap fun n =>
    (s.fs.dir.lookup n).map s.fs.content

/-- The files of each CPU hold what was passed for it, and no data was overwritten. -/
def Collected (s : Collector) : Prop :=
  (∀ i, (s.dataFiles i).flatten = s.passed i) ∧ s.fs.overwrote = false

/-- Filtering a list after a map keeps everything that the filter does not drop. -/
theorem filterMap_map_eq_map {α β γ : Type} {f : α → β} {g : β → Option γ} {h : α → γ}
    {l : List α} (hl : ∀ a ∈ l, g (f a) = some (h a)) : (l.map f).filterMap g = l.map h := by
  induction l with
  | nil => rfl
  | cons a l ih =>
    rw [List.map_cons, List.filterMap_cons_some (hl a List.mem_cons_self), List.map_cons,
      ih fun b hb => hl b (List.mem_cons_of_mem a hb)]

/-- Where all tasks have ended, each stream is in its files. -/
theorem FilesOk.collected {s : Collector} (h : s.FilesOk) (hw : WritersOk outDir s)
    (hdistinct : s.Distinct) (hended : s.AllEnded) : s.Collected := by
  refine ⟨fun i => ?_, h.intact⟩
  have hnodup : ((s.tasks i).map WriterTask.completeName).Nodup := by
    have hcreated : (s.created i).map (fun time => getFileName time i outDir "data") =
        (s.tasks i).map WriterTask.completeName := by
      rw [created, cores, List.map_map, List.map_map]
      apply List.map_congr_left
      intro t ht
      exact (hw.named i t.core (List.mem_map_of_mem ht)).2.symm
    rw [← hcreated]
    exact (hdistinct i).map fun time time' he => (getFileName_inj he).1
  have hsent : ∀ t ∈ s.tasks i,
      (s.fs.dir.lookup t.completeName).map s.fs.content = some t.sent := by
    intro t ht
    have htask := h.task i t ht
    unfold TaskOk at htask
    rcases hended i t ht with hp | hp
    · rw [hp] at htask
      obtain ⟨-, ⟨f, hlookup, hcontent⟩, -⟩ := htask
      rw [hlookup, hcontent]
      rfl
    · rw [hp] at htask
      exact htask.elim
  have hfiles : s.dataFiles i = (s.tasks i).map WriterTask.sent := by
    rw [dataFiles, hnodup.dedup]
    exact filterMap_map_eq_map hsent
  rw [hfiles, (hw i).passed, cores, List.map_map]
  rfl

/-! ## Schedules -/

/-- A task whose sender is dropped takes its next step, whatever the others do. -/
theorem exists_task_step {u : Collector} {i k : ℕ} {t : WriterTask}
    (hk : (u.tasks i)[k]? = some t) (hdrop : t.txDropped = true) (hne : t.remaining ≠ 0) :
    ∃ u' t', u.task i k = some u' ∧ u'.Agree u ∧ t.step u.fs = some (u'.fs, t') ∧
      t'.remaining < t.remaining ∧
      u'.tasks = Function.update u.tasks i ((u.tasks i).set k t') := by
  obtain ⟨fs, t', hstep, hlt⟩ := WriterTask.exists_step u.fs hdrop hne
  have htask : u.task i k = some { u with
      fs, tasks := Function.update u.tasks i ((u.tasks i).set k t') } := by
    simp only [task, hk, hstep]
  exact ⟨_, t', htask, agree_task htask, hstep, hlt, rfl⟩

variable (cpuNums fileSize outDir) in
/-- INTERNAL: **a task runs to its end** with no other step in between, and keeps what its steps
keep. -/
theorem run_task {Q : FileSystem → WriterTask → Prop} {s : Collector} {i k : ℕ} {t : WriterTask}
    (hQ : ∀ fs u fs' u', Q fs u → u.core = t.core → u.step fs = some (fs', u') → Q fs' u')
    (ht : (s.tasks i)[k]? = some t) (hs : Q s.fs t) (hdrop : t.txDropped = true) :
    ∃ ops s' t', (∀ op ∈ ops, op.isInput = false) ∧
      (collectorMachine cpuNums fileSize outDir).exec s ops = some s' ∧ s'.Agree s ∧
      (s'.tasks i)[k]? = some t' ∧ t'.core = t.core ∧ Q s'.fs t' ∧ t'.remaining = 0 ∧
      ∀ m, m ≠ k → (s'.tasks i)[m]? = (s.tasks i)[m]? := by
  let P : Collector → Prop := fun u => u.Agree s ∧
    (∃ t', (u.tasks i)[k]? = some t' ∧ t'.core = t.core ∧ Q u.fs t') ∧
      ∀ m, m ≠ k → (u.tasks i)[m]? = (s.tasks i)[m]?
  let μ : Collector → ℕ := fun u => ((u.tasks i)[k]?.map WriterTask.remaining).getD 0
  have hnearer : ∀ u, P u → μ u ≠ 0 → ∃ op u', op.isInput = false ∧
      (collectorMachine cpuNums fileSize outDir).step u op = some u' ∧ P u' ∧ μ u' < μ u := by
    rintro u ⟨hagree, ⟨t', ht', hcore, hQt⟩, hsame⟩ hμ
    have hμu : μ u = t'.remaining := by simp only [μ, ht', Option.map_some, Option.getD_some]
    have hdrop' : t'.txDropped = true := by
      show t'.core.txDropped = true
      rw [hcore]
      exact hdrop
    obtain ⟨u', t'', htask, hu, hstep, hlt, htasks⟩ := exists_task_step ht' hdrop' (hμu ▸ hμ)
    have hself : (u'.tasks i)[k]? = some t'' := by
      rw [htasks, Function.update_self]
      exact List.getElem?_set_self (List.getElem?_eq_some_iff.mp ht').1
    refine ⟨.task i k, u', rfl, htask, ⟨hu.trans hagree, ⟨t'', hself, ?_, ?_⟩, fun m hm => ?_⟩, ?_⟩
    · exact (core_of_step hstep).trans hcore
    · exact hQ _ _ _ _ hQt hcore hstep
    · rw [htasks, Function.update_self, List.getElem?_set_ne (Ne.symm hm)]
      exact hsame m hm
    · rw [hμu]
      simp only [μ, hself, Option.map_some, Option.getD_some]
      exact hlt
  obtain ⟨ops, s', hops, hexec, ⟨hagree, ⟨t', ht', hcore, hQ'⟩, hsame⟩, hzero⟩ :=
    (collectorMachine cpuNums fileSize outDir).exists_exec_of_measure (P := P) μ hnearer
      ⟨Agree.refl s, ⟨t, ht, rfl, hs⟩, fun _ _ => rfl⟩
  simp only [μ, ht', Option.map_some, Option.getD_some] at hzero
  exact ⟨ops, s', t', hops, hexec, hagree, ht', hcore, hQ', hzero, hsame⟩

/-- The steps that are left to the tasks of the first `n` CPUs. -/
def remaining (n : ℕ) (s : Collector) : ℕ :=
  ∑ i ∈ Finset.range n, ((s.tasks i).map WriterTask.remaining).sum

/-- A step of one task leaves less to be done. -/
theorem remaining_lt {n i k : ℕ} {u u' : Collector} {t t' : WriterTask} (hi : i < n)
    (hk : (u.tasks i)[k]? = some t) (hlt : t'.remaining < t.remaining)
    (htasks : u'.tasks = Function.update u.tasks i ((u.tasks i).set k t')) :
    remaining n u' < remaining n u := by
  have hset := Families.sum_map_set (b := t') hk WriterTask.remaining
  have hself : ((u'.tasks i).map WriterTask.remaining).sum <
      ((u.tasks i).map WriterTask.remaining).sum := by
    rw [htasks, Function.update_self]
    omega
  apply Finset.sum_lt_sum
  · intro j _
    by_cases hj : j = i
    · subst hj
      exact hself.le
    · rw [htasks, Function.update_of_ne hj]
  · exact ⟨i, Finset.mem_range.mpr hi, hself⟩

variable (cpuNums fileSize) in
/-- INTERNAL: **all tasks run to their ends** once the writers are closed, and what was overwritten
stays overwritten. -/
theorem run_rest {s : Collector} (hw : WritersOk outDir s) (hclosed : s.closed = true)
    (hover : s.fs.overwrote = true) :
    ∃ ops s', (∀ op ∈ ops, op.isInput = false) ∧
      (collectorMachine cpuNums fileSize outDir).exec s ops = some s' ∧ s'.AllEnded ∧
      s'.fs.overwrote = true := by
  have hnearer : ∀ u : Collector, u.Agree s ∧ u.fs.overwrote = true →
      remaining s.wt.length u ≠ 0 → ∃ op u', op.isInput = false ∧
        (collectorMachine cpuNums fileSize outDir).step u op = some u' ∧
          (u'.Agree s ∧ u'.fs.overwrote = true) ∧
            remaining s.wt.length u' < remaining s.wt.length u := by
    rintro u ⟨hagree, hov⟩ hμ
    obtain ⟨i, hi, hsum⟩ := Finset.exists_ne_zero_of_sum_ne_zero hμ
    obtain ⟨x, hx, hne⟩ := List.exists_mem_ne_zero_of_sum_ne_zero hsum
    obtain ⟨t, ht, rfl⟩ := List.mem_map.mp hx
    obtain ⟨k, hk⟩ := List.mem_iff_getElem?.mp ht
    have hdrop : t.txDropped = true := by
      have hcpu := (hw i).closed hclosed
      rw [← hagree.cores] at hcpu
      exact hcpu t.core (List.mem_map_of_mem ht)
    obtain ⟨u', t', htask, hu, hstep, hlt, htasks⟩ := exists_task_step hk hdrop hne
    exact ⟨.task i k, u', rfl, htask, ⟨hu.trans hagree, WriterTask.overwrote_of_step hstep hov⟩,
      remaining_lt (Finset.mem_range.mp hi) hk hlt htasks⟩
  obtain ⟨ops, s', hops, hexec, ⟨hagree, hover'⟩, hzero⟩ :=
    (collectorMachine cpuNums fileSize outDir).exists_exec_of_measure
      (remaining s.wt.length) hnearer ⟨Agree.refl s, hover⟩
  refine ⟨ops, s', hops, hexec, fun i t ht => ?_, hover'⟩
  apply WriterTask.phase_of_remaining
  rcases Nat.lt_or_ge i s.wt.length with hi | hi
  · have hi' := Finset.sum_eq_zero_iff.mp hzero i (Finset.mem_range.mpr hi)
    exact List.sum_eq_zero_iff.mp hi' _ (List.mem_map_of_mem ht)
  · -- beyond the writers there are no tasks
    have hcpu := hw i
    rw [List.getElem?_eq_none hi, ← hagree.cores] at hcpu
    rw [List.map_eq_nil_iff.mp (hcpu.unused rfl)] at ht
    cases ht

/-! ## Before the tasks run -/

/-- There are no files yet, and what was sent is in the queues. -/
structure Unrun (s : Collector) : Prop where
  dir : s.fs.dir = ∅
  task : ∀ i, ∀ t ∈ s.tasks i, t.phase = .spawned ∧ t.sent = t.rx.flatten

namespace Unrun

variable {s s' : Collector}

/-- A change of one task that has not run leaves it not run. -/
theorem modifyTask (h : s.Unrun) (i k : ℕ) (g : WriterTask → WriterTask)
    (hg : ∀ t, t.phase = .spawned ∧ t.sent = t.rx.flatten →
      (g t).phase = .spawned ∧ (g t).sent = (g t).rx.flatten) : (s.modifyTask i k g).Unrun := by
  refine ⟨h.dir, ?_⟩
  apply Families.forall_update (P := fun _ (l : List WriterTask) =>
    ∀ t ∈ l, t.phase = .spawned ∧ t.sent = t.rx.flatten) h.task
  exact forall_mem_modify (h.task i) fun t ht => hg t (h.task i t (List.mem_of_getElem? ht))

/-- A new task has not run. -/
theorem newWriter (h : s.Unrun) (i : ℕ) (dir : String) : (s.newWriter i dir "tmp").1.Unrun := by
  refine ⟨h.dir, ?_⟩
  apply Families.forall_update (P := fun _ (l : List WriterTask) =>
    ∀ t ∈ l, t.phase = .spawned ∧ t.sent = t.rx.flatten) h.task
  intro t ht
  rcases List.mem_append.mp ht with hold | hlast
  · exact h.task i t hold
  · rw [List.mem_singleton.mp hlast]
    exact ⟨rfl, rfl⟩

/-- Whether tasks have run does not depend on what was passed. -/
theorem setWt (h : s.Unrun) (wt : List (Option DataWriter)) (passed : ℕ → Bytes) :
    Unrun { s with wt, passed } := ⟨h.dir, h.task⟩

/-- The calls of the collector run no task. -/
theorem step {op : CollectorOp} (h : s.Unrun) (hop : op.isInput = true)
    (hs : (collectorMachine cpuNums fileSize outDir).step s op = some s') : s'.Unrun := by
  cases op with
  | tick secs =>
    obtain rfl := Option.some.inj hs
    exact ⟨h.dir, h.task⟩
  | createWriter =>
    obtain ⟨-, rfl⟩ := createWriter_cases hs
    exact (h.newWriter _ _).setWt _ _
  | processor i buff size =>
    have hstep : s.processor fileSize i buff size = some s' := hs
    obtain ⟨hopen, ⟨-, rfl⟩ | ⟨w, hw, hsize⟩⟩ := exists_writer_of_processor hstep
    · exact h
    · have hsent := h.modifyTask i w.tx (WriterTask.send (buff.take size)) fun t ht =>
        ⟨ht.1, by simp [WriterTask.send, ht.2]⟩
      rw [processor_eq hopen hw hsize] at hstep
      split at hstep
      · obtain rfl := Option.some.inj hstep
        exact ((hsent.newWriter i w.dir).modifyTask i w.tx WriterTask.drop fun _ ht => ht).setWt _ _
      · obtain rfl := Option.some.inj hstep
        exact hsent.setWt _ _
  | close =>
    obtain ⟨-, rfl⟩ := close_cases hs
    refine ⟨h.dir, fun i t ht => ?_⟩
    obtain ⟨t', ht', rfl⟩ := List.mem_map.mp ht
    exact h.task i t' ht'
  | task i k => cases hop

/-- Calls of the collector run no task. -/
theorem exec {ops : List CollectorOp} (h : s.Unrun) (hops : ∀ op ∈ ops, op.isInput = true)
    (hs : (collectorMachine cpuNums fileSize outDir).exec s ops = some s') : s'.Unrun := by
  induction ops generalizing s with
  | nil => exact Option.some.inj hs ▸ h
  | cons op ops ih =>
    obtain ⟨u, hu, hrest⟩ := (Machine.exec_cons_eq_some _).mp hs
    exact ih (h.step (hops op List.mem_cons_self) hu)
      (fun o ho => hops o (List.mem_cons_of_mem op ho)) hrest

/-- There is no file, so every task can create its own. -/
theorem taskOk (h : s.Unrun) {i : ℕ} {t : WriterTask} (ht : t ∈ s.tasks i) : TaskOk s.fs t := by
  obtain ⟨hphase, hsent⟩ := h.task i t ht
  unfold TaskOk
  rw [hphase, h.dir]
  exact ⟨Finmap.lookup_empty _, Finmap.lookup_empty _, hsent⟩

/-- Without a file the file system is in order. -/
theorem ok (h : s.Unrun) : s.fs.Ok := by
  have hnone : ∀ n f, s.fs.dir.lookup n ≠ some f := by
    intro n f hn
    rw [h.dir, Finmap.lookup_empty] at hn
    cases hn
  exact ⟨fun m n f hm => absurd hm (hnone m f), fun n f hn => absurd hn (hnone n f)⟩

end Unrun

/-- In the beginning no task has run. -/
theorem unrun_init : (collectorMachine cpuNums fileSize outDir).init.Unrun :=
  ⟨rfl, fun _ _ ht => absurd ht List.not_mem_nil⟩

/-- In the beginning there is no file. -/
theorem filesOk_init : (collectorMachine cpuNums fileSize outDir).init.FilesOk where
  ok := unrun_init.ok
  task _ _ ht := absurd ht List.not_mem_nil
  used n f hn := by
    rw [unrun_init.dir, Finmap.lookup_empty] at hn
    cases hn
  intact := rfl

/-- A writer that was replaced was sent something. -/
theorem WritersOk.sent_ne_nil {s : Collector} (hw : WritersOk outDir s) {i a b : ℕ}
    {t : WriterTask} (ht : (s.tasks i)[a]? = some t) (hab : a < b)
    (hb : b < (s.tasks i).length) : t.sent ≠ [] := by
  have hcore : (s.cores i)[a]? = some t.core := by
    rw [cores, List.getElem?_map, ht]
    rfl
  have hlen : b < (s.cores i).length := by
    rw [length_cores]
    exact hb
  apply (hw i).rotated t.core
  apply List.mem_of_getElem? (i := a)
  rw [List.getElem?_dropLast, if_pos (by omega)]
  exact hcore

/-- INTERNAL: **the second of two writers of one second** can rename its file onto that of the
first.
SRC: file_writer/mod.rs:16-25, 30-37, 39-50 -/
theorem exists_overwrite {s : Collector} {i a b : ℕ} {t u : WriterTask} (hunrun : s.Unrun)
    (hw : WritersOk outDir s) (hclosed : s.closed = true) (hab : a < b)
    (ht : (s.tasks i)[a]? = some t) (hu : (s.tasks i)[b]? = some u)
    (htime : t.created = u.created) :
    ∃ ops s', (∀ op ∈ ops, op.isInput = false) ∧
      (collectorMachine cpuNums fileSize outDir).exec s ops = some s' ∧ s'.AllEnded ∧
      s'.fs.overwrote = true := by
  have hmemt := List.mem_of_getElem? ht
  have hmemu := List.mem_of_getElem? hu
  have htn := hw.named i t.core (List.mem_map_of_mem hmemt)
  have hun := hw.named i u.core (List.mem_map_of_mem hmemu)
  have hname : t.completeName = u.completeName :=
    htn.2.trans ((congrArg (fun c => getFileName c i outDir "data") htime).trans hun.2.symm)
  have hne : ∀ v : WriterTask, v.core = t.core ∨ v.core = u.core → v.fName ≠ v.completeName := by
    rintro v (hv | hv)
    · exact hw.named.fName_ne (i := i) (by rw [hv]; exact List.mem_map_of_mem hmemt)
    · exact hw.named.fName_ne (i := i) (by rw [hv]; exact List.mem_map_of_mem hmemu)
  have hdrop : ∀ v ∈ s.tasks i, v.txDropped = true := fun v hv =>
    (hw i).closed hclosed v.core (List.mem_map_of_mem hv)
  have hsent : t.sent ≠ [] := hw.sent_ne_nil ht hab (List.getElem?_eq_some_iff.mp hu).1
  -- the first runs to its end, and then the second
  obtain ⟨ops₁, s₁, t₁, hops₁, hexec₁, hagree₁, -, hcore₁, ⟨hok₁, htask₁⟩, hzero₁, hother₁⟩ :=
    run_task cpuNums fileSize outDir
      (Q := fun fs v => fs.Ok ∧ TaskOk fs v)
      (fun _ v _ _ hQ hv hstep =>
        have hnext := hQ.2.step hQ.1 (hne v (.inl hv)) hstep
        ⟨hnext.1, hnext.2.1⟩)
      ht ⟨hunrun.ok, hunrun.taskOk hmemt⟩ (hdrop t hmemt)
  have hholds : s₁.fs.holds u.completeName = true := by
    rcases WriterTask.phase_of_remaining hzero₁ with hp | hp
    · simp only [TaskOk, hp] at htask₁
      obtain ⟨-, ⟨f, hlookup, hcontent⟩, -⟩ := htask₁
      have hname₁ : t₁.completeName = u.completeName :=
        (congrArg TaskCore.completeName hcore₁).trans hname
      have hsent₁ : t₁.sent = t.sent := congrArg TaskCore.sent hcore₁
      rw [FileSystem.holds, ← hname₁, hlookup]
      simp only [decide_eq_true_eq]
      rw [← hcontent, hsent₁]
      exact hsent
    · simp only [TaskOk, hp] at htask₁
  have hu₁ : (s₁.tasks i)[b]? = some u := (hother₁ b hab.ne').trans hu
  obtain ⟨ops₂, s₂, u₂, hops₂, hexec₂, hagree₂, -, -, ⟨-, hover₂⟩, hzero₂, -⟩ :=
    run_task cpuNums fileSize outDir
      (Q := fun fs v => fs.Ok ∧ TaskOver fs v)
      (fun _ v _ _ hQ hv hstep => hQ.2.step hQ.1 (hne v (.inr hv)) hstep)
      hu₁ ⟨hok₁, by simp only [TaskOver, (hunrun.task i u hmemu).1]; exact hholds⟩ (hdrop u hmemu)
  have hoverwrote : s₂.fs.overwrote = true := by
    rcases WriterTask.phase_of_remaining hzero₂ with hp | hp
    · simp only [TaskOver, hp] at hover₂
      exact hover₂
    · simp only [TaskOver, hp] at hover₂
  have hagree := hagree₂.trans hagree₁
  obtain ⟨ops₃, s₃, hops₃, hexec₃, hended, hover₃⟩ :=
    run_rest cpuNums fileSize (hw.of_agree hagree)
      (hagree.closed.trans hclosed) hoverwrote
  refine ⟨ops₁ ++ (ops₂ ++ ops₃), s₃, ?_, ?_, hended, hover₃⟩
  · intro op hop
    rcases List.mem_append.mp hop with h₁ | h₂₃
    · exact hops₁ op h₁
    · rcases List.mem_append.mp h₂₃ with h₂ | h₃
      · exact hops₂ op h₂
      · exact hops₃ op h₃
  · exact (Machine.exec_append _).mpr ⟨s₁, hexec₁, (Machine.exec_append _).mpr ⟨s₂, hexec₂, hexec₃⟩⟩

/-- A run keeps the writers in order. -/
theorem WritersOk.exec {s s' : Collector} {ops : List CollectorOp} (hw : WritersOk outDir s)
    (hs : (collectorMachine cpuNums fileSize outDir).exec s ops = some s') : WritersOk outDir s' :=
  Machine.exec_induct _ (C := fun _ _ => True) (fun _ _ _ h _ => h.step) hw
    (Machine.meets_of_forall _ (fun _ _ => trivial) _ _) hs

/-- Where the names are not distinct, two tasks of a CPU have the same second. -/
theorem exists_same_second {s : Collector} (h : ¬ s.Distinct) :
    ∃ i a b : ℕ, ∃ t u : WriterTask, a < b ∧ (s.tasks i)[a]? = some t ∧
      (s.tasks i)[b]? = some u ∧ t.created = u.created := by
  obtain ⟨i, hi⟩ := not_forall.mp h
  rw [List.Nodup, List.pairwise_iff_getElem] at hi
  push Not at hi
  obtain ⟨a, b, ha, hb, hab, heq⟩ := hi
  simp only [created, cores, List.getElem_map] at heq
  simp only [created, cores, List.length_map] at ha hb
  exact ⟨i, a, b, _, _, hab, List.getElem?_eq_getElem ha, List.getElem?_eq_getElem hb, heq⟩

/-- MAIN: **the files hold what was collected**, whatever the tasks do when, exactly for the runs
of the collector in which no call of `processor` fills the file of a CPU within a second in which
a writer of that CPU was created.
SRC: collector.rs:13-35, file_writer/mod.rs:13-56 -/
theorem collected_files_iff {inputs : List CollectorOp} {s₀ : Collector}
    (hinputs : ∀ op ∈ inputs, op.isInput = true)
    (hs₀ : (collectorMachine cpuNums fileSize outDir).exec
      (collectorMachine cpuNums fileSize outDir).init inputs = some s₀)
    (hclosed : s₀.closed = true) :
    (∀ ops s, ops.filter CollectorOp.isInput = inputs →
      (collectorMachine cpuNums fileSize outDir).exec
        (collectorMachine cpuNums fileSize outDir).init ops = some s →
      s.AllEnded → s.Collected) ↔
    (collectorMachine cpuNums fileSize outDir).Meets (Fresh fileSize)
      (collectorMachine cpuNums fileSize outDir).init inputs := by
  have hw₀ := writersOk_init.exec hs₀
  have hdistinct : s₀.Distinct ↔ (collectorMachine cpuNums fileSize outDir).Meets (Fresh fileSize)
      (collectorMachine cpuNums fileSize outDir).init inputs := by
    rw [distinct_exec_iff writersOk_init hs₀]
    exact and_iff_right fun _ => List.nodup_nil
  rw [← hdistinct]
  constructor
  · intro hall
    by_contra hnot
    obtain ⟨i, a, b, t, u, hab, ht, hu, htime⟩ := exists_same_second hnot
    obtain ⟨ops, s, hops, hexec, hended, hover⟩ := exists_overwrite
      (unrun_init.exec hinputs hs₀) hw₀ hclosed hab ht hu htime
    have hfilter : (inputs ++ ops).filter CollectorOp.isInput = inputs := by
      have hnone : ops.filter CollectorOp.isInput = [] :=
        List.filter_eq_nil_iff.mpr fun op hop => by simp [hops op hop]
      rw [List.filter_append, List.filter_eq_self.mpr hinputs, hnone, List.append_nil]
    have hcollected := hall (inputs ++ ops) s hfilter
      ((Machine.exec_append _).mpr ⟨s₀, hs₀, hexec⟩) hended
    rw [hcollected.2] at hover
    cases hover
  · rintro hd ops s hfilter hexec hended
    -- the schedule leaves what the collector does as it is
    obtain ⟨t, ht, hagree⟩ := Agree.exec (Agree.refl _) hexec
    rw [hfilter] at ht
    obtain rfl := Option.some.inj (hs₀.symm.trans ht)
    have hds : s.Distinct := by
      refine (distinct_congr ?_).mpr hd
      funext i
      rw [created, hagree.cores]
      rfl
    exact (filesOk_init.exec writersOk_init hexec hds).collected (writersOk_init.exec hexec) hds
      hended

/-- Two files for one stream: the second writer is created a second later. -/
theorem collected_files_twoSeconds : (∀ ops s,
    ops.filter CollectorOp.isInput = [.createWriter, .tick 1, .processor 0 [1, 2, 3] 3, .close] →
    (collectorMachine 1 2 "out/").exec (collectorMachine 1 2 "out/").init ops = some s →
    s.AllEnded → s.Collected) ↔
    (collectorMachine 1 2 "out/").Meets (Fresh 2) (collectorMachine 1 2 "out/").init
      [.createWriter, .tick 1, .processor 0 [1, 2, 3] 3, .close] :=
  collected_files_iff (by decide) rfl rfl

/-- Three bytes fill the file of size two in the second of its creation, and the empty file of the
next writer takes their place. -/
theorem same_second_overwrites : ∃ s,
    (collectorMachine 1 2 "out/").exec (collectorMachine 1 2 "out/").init
      [.createWriter, .processor 0 [1, 2, 3] 3, .close, .task 0 0, .task 0 0, .task 0 0,
        .task 0 0, .task 0 1, .task 0 1, .task 0 1] = some s ∧
      s.AllEnded ∧ ¬ s.Collected := by
  have hrun : ((collectorMachine 1 2 "out/").exec (collectorMachine 1 2 "out/").init
      [.createWriter, .processor 0 [1, 2, 3] 3, .close, .task 0 0, .task 0 0, .task 0 0,
        .task 0 0, .task 0 1, .task 0 1, .task 0 1]).map
      (fun s => ((s.tasks 0).map WriterTask.phase, s.wt.length, s.passed 0, s.dataFiles 0)) =
      some ([.ended, .ended], 1, [1, 2, 3], [[]]) := by decide +kernel
  obtain ⟨s, hs, hfacts⟩ := Option.map_eq_some_iff.mp hrun
  simp only [Prod.mk.injEq] at hfacts
  obtain ⟨hphase, hlen, hpassed, hfiles⟩ := hfacts
  refine ⟨s, hs, fun i t ht => ?_, fun hcollected => ?_⟩
  · have hp : t.phase ∈ (s.tasks i).map WriterTask.phase := List.mem_map_of_mem ht
    rcases Nat.eq_zero_or_pos i with rfl | hi
    · rw [hphase] at hp
      exact .inl (by simpa using hp)
    · have hcpu := (writersOk_init.exec hs) i
      rw [List.getElem?_eq_none (by omega)] at hcpu
      rw [List.map_eq_nil_iff.mp (hcpu.unused rfl)] at ht
      cases ht
  · have hzero := hcollected.1 0
    rw [hfiles, hpassed] at hzero
    cases hzero

end Collector

end PtkGenerator

import PtkGenerator.Analysis.WriterFiles
import PtkGenerator.Library.Families

/-!
# The writers of the collector

What the collector does does not depend on what the tasks do: it looks at the clock, the writers
and the sizes only.  `Collector.cores` is the part of the tasks that the collector writes, and
`WritersOk` says of it that the writers and the bytes that were passed stay in step.
-/

set_option autoImplicit false

namespace PtkGenerator

open Families

variable {cpuNums fileSize : ℕ} {outDir : String}

/-! ## What the collector writes -/

/-- The part of a task that is its writer's. -/
structure TaskCore where
  fName : String
  completeName : String
  txDropped : Bool
  created : ℕ
  sent : Bytes

namespace WriterTask

/-- What does not change when a task runs. -/
def core (t : WriterTask) : TaskCore := ⟨t.fName, t.completeName, t.txDropped, t.created, t.sent⟩

/-- A buffer is sent to a task. -/
def send (d : Bytes) (t : WriterTask) : WriterTask :=
  { t with rx := t.rx ++ [d], sent := t.sent ++ d }

/-- The sender of a task is dropped. -/
def drop (t : WriterTask) : WriterTask := { t with txDropped := true }

end WriterTask

namespace TaskCore

/-- A buffer is sent to a task. -/
def send (d : Bytes) (c : TaskCore) : TaskCore := { c with sent := c.sent ++ d }

/-- The sender of a task is dropped. -/
def drop (c : TaskCore) : TaskCore := { c with txDropped := true }

/-- A task for a CPU, created at some second. -/
def new (time idx : ℕ) (dir : String) : TaskCore :=
  ⟨getFileName time idx dir "tmp", getCompleteName (getFileName time idx dir "tmp") "tmp", false,
    time, []⟩

end TaskCore

/-- A map of a changed list is the change of the mapped list. -/
theorem map_modify {α β : Type} {f : α → β} {g : α → α} {m : β → β}
    (h : ∀ a, f (g a) = m (f a)) (l : List α) (k : ℕ) :
    (l.modify k g).map f = (l.map f).modify k m := by
  apply List.ext_getElem?
  intro j
  simp only [List.getElem?_map, List.getElem?_modify]
  cases l[j]? with
  | none => rfl
  | some a =>
    by_cases hj : k = j
    · simp [hj, h]
    · simp [hj]

/-- A change behind a prefix is a change at its place. -/
theorem modify_append_length {α : Type} (pre : List α) (a : α) (post : List α) (g : α → α) :
    (pre ++ a :: post).modify pre.length g = pre ++ g a :: post := by
  induction pre with
  | nil => rfl
  | cons b pre ih => simp [ih]

/-- What holds of every member holds behind a change that it gives. -/
theorem forall_mem_modify {α : Type} {P : α → Prop} {g : α → α} {l : List α} {k : ℕ}
    (h : ∀ a ∈ l, P a) (hk : ∀ a, l[k]? = some a → P (g a)) : ∀ a ∈ l.modify k g, P a := by
  intro a ha
  obtain ⟨j, hj⟩ := List.mem_iff_getElem?.mp ha
  rw [List.getElem?_modify] at hj
  obtain ⟨b, hb, rfl⟩ := Option.map_eq_some_iff.mp hj
  by_cases hkj : k = j
  · subst hkj
    rw [if_pos rfl]
    exact hk b hb
  · rw [if_neg hkj]
    exact h b (List.mem_of_getElem? hb)

namespace Collector

/-- The writers' part of the tasks of each CPU. -/
def cores (s : Collector) : ℕ → List TaskCore := fun i => (s.tasks i).map WriterTask.core

/-- A change of one task changes its core. -/
theorem cores_modifyTask {g : WriterTask → WriterTask} {m : TaskCore → TaskCore}
    (h : ∀ t, (g t).core = m t.core) (s : Collector) (i k : ℕ) :
    (s.modifyTask i k g).cores = Function.update s.cores i ((s.cores i).modify k m) := by
  funext j
  by_cases hj : j = i
  · subst hj
    simp only [cores, modifyTask, Function.update_self]
    exact map_modify h _ _
  · simp only [cores, modifyTask, Function.update_of_ne hj]

/-- A new task adds its core. -/
theorem cores_newWriter (s : Collector) (idx : ℕ) (dir : String) :
    (s.newWriter idx dir "tmp").1.cores =
      Function.update s.cores idx (s.cores idx ++ [TaskCore.new s.clock idx dir]) := by
  funext j
  by_cases hj : j = idx
  · subst hj
    simp only [cores, newWriter, Function.update_self, List.map_append]
    rfl
  · simp only [cores, newWriter, Function.update_of_ne hj]

/-- The states agree in what the collector looks at and writes. -/
structure Agree (s t : Collector) : Prop where
  wt : s.wt = t.wt
  clock : s.clock = t.clock
  closed : s.closed = t.closed
  passed : s.passed = t.passed
  cores : s.cores = t.cores

/-- A state agrees with itself. -/
theorem Agree.refl (s : Collector) : s.Agree s := ⟨rfl, rfl, rfl, rfl, rfl⟩

/-- Agreement is transitive. -/
theorem Agree.trans {s t u : Collector} (h : s.Agree t) (h' : t.Agree u) : s.Agree u :=
  ⟨h.wt.trans h'.wt, h.clock.trans h'.clock, h.closed.trans h'.closed, h.passed.trans h'.passed,
    h.cores.trans h'.cores⟩

/-- There are as many cores as tasks. -/
theorem length_cores (s : Collector) (i : ℕ) : (s.cores i).length = (s.tasks i).length :=
  List.length_map _

/-- INTERNAL: what `processor` does for a CPU with a writer.
SRC: collector.rs:13-35 -/
theorem processor_eq {s : Collector} {i : ℕ} {w : DataWriter} {buff : Bytes} {size : ℕ}
    (hopen : s.closed = false) (hw : s.wt[i]? = some (some w)) (hsize : size ≤ buff.length) :
    let s₁ := { s.modifyTask i w.tx (·.send (buff.take size)) with
      passed := Function.update s.passed i (s.passed i ++ buff.take size) }
    let w₁ := { w with writeSize := w.writeSize + size }
    s.processor fileSize i buff size =
      if fileSize < w.writeSize + size then
        some { (s₁.newWriter i w.dir "tmp").1.dropWriter i w₁ with
          wt := s.wt.set i (some (s₁.newWriter i w.dir "tmp").2) }
      else some { s₁ with wt := s.wt.set i (some w₁) } := by
  intro s₁ w₁
  simp only [processor, hopen, hw, write, if_pos hsize]
  rfl

/-- The collector creates a writer while there are CPUs without one. -/
theorem createWriter_eq (s : Collector) : s.createWriter cpuNums outDir =
    if s.wt.length < cpuNums ∧ s.closed = false then
      some { (s.newWriter s.wt.length outDir "tmp").1 with
        wt := s.wt ++ [some (s.newWriter s.wt.length outDir "tmp").2] }
    else none := rfl

/-- A new writer is the last of the writers. -/
theorem createWriter_cases {s s' : Collector} (h : s.createWriter cpuNums outDir = some s') :
    (s.wt.length < cpuNums ∧ s.closed = false) ∧
      s' = { (s.newWriter s.wt.length outDir "tmp").1 with
        wt := s.wt ++ [some (s.newWriter s.wt.length outDir "tmp").2] } := by
  rw [createWriter_eq] at h
  obtain ⟨hroom, h⟩ := Option.ite_none_right_eq_some.mp h
  exact ⟨hroom, (Option.some.inj h).symm⟩

/-- The writers are dropped once, all of them. -/
theorem close_cases {s s' : Collector} (h : s.close = some s') :
    ¬ s.closed = true ∧ s' = { s with
      wt := s.wt.map fun _ => none
      tasks := fun i => (s.tasks i).map fun t => { t with txDropped := true }
      closed := true } := by
  obtain ⟨hopen, h⟩ := Option.ite_none_left_eq_some.mp h
  exact ⟨hopen, (Option.some.inj h).symm⟩

/-- A call of the processor has a writer to give the buffer to, or none. -/
theorem exists_writer_of_processor {s s' : Collector} {i : ℕ} {buff : Bytes} {size : ℕ}
    (h : s.processor fileSize i buff size = some s') : s.closed = false ∧
      (s.wt[i]? = some none ∧ s' = s ∨
        ∃ w, s.wt[i]? = some (some w) ∧ size ≤ buff.length) := by
  unfold processor at h
  split at h
  · cases h
  · next hopen =>
    refine ⟨by simpa using hopen, ?_⟩
    split at h
    · cases h
    · next hw => exact .inl ⟨hw, (Option.some.inj h).symm⟩
    · next w hw =>
      by_cases hsize : size ≤ buff.length
      · exact .inr ⟨w, hw, hsize⟩
      · simp [write, hsize] at h

/-! ## The collector does not look at the tasks -/

namespace Agree

variable {s t : Collector}

/-- A change of one task keeps the agreement. -/
theorem modifyTask (h : s.Agree t) {g : WriterTask → WriterTask} {m : TaskCore → TaskCore}
    (hg : ∀ t, (g t).core = m t.core) (i k : ℕ) :
    (s.modifyTask i k g).Agree (t.modifyTask i k g) := by
  refine ⟨h.wt, h.clock, h.closed, h.passed, ?_⟩
  rw [cores_modifyTask hg, cores_modifyTask hg, h.cores]

/-- A new task keeps the agreement, and gets the same name. -/
theorem newWriter (h : s.Agree t) (i : ℕ) (dir : String) :
    (s.newWriter i dir "tmp").1.Agree (t.newWriter i dir "tmp").1 ∧
      (s.newWriter i dir "tmp").2 = (t.newWriter i dir "tmp").2 := by
  constructor
  · refine ⟨h.wt, h.clock, h.closed, h.passed, ?_⟩
    rw [cores_newWriter, cores_newWriter, h.cores, h.clock]
  · have hlen := congrArg List.length (congrFun h.cores i)
    rw [length_cores, length_cores] at hlen
    simp only [Collector.newWriter, hlen, h.clock]

/-- The agreement does not depend on the writers held. -/
theorem setWt (h : s.Agree t) (wt : List (Option DataWriter)) :
    ({ s with wt } : Collector).Agree { t with wt } :=
  ⟨rfl, h.clock, h.closed, h.passed, h.cores⟩

/-- The agreement does not depend on what was passed. -/
theorem setPassed (h : s.Agree t) (passed : ℕ → Bytes) :
    ({ s with passed } : Collector).Agree { t with passed } :=
  ⟨h.wt, h.clock, h.closed, rfl, h.cores⟩

/-- A call of the processor keeps the agreement. -/
theorem processor {s' : Collector} {i : ℕ} {buff : Bytes} {size : ℕ} (h : s.Agree t)
    (hs : s.processor fileSize i buff size = some s') :
    ∃ t', t.processor fileSize i buff size = some t' ∧ s'.Agree t' := by
  obtain ⟨hopen, hcases⟩ := exists_writer_of_processor hs
  have hopen' : t.closed = false := h.closed ▸ hopen
  rcases hcases with ⟨hw, rfl⟩ | ⟨w, hw, hsize⟩
  · refine ⟨t, ?_, h⟩
    have hw' : t.wt[i]? = some none := h.wt ▸ hw
    simp only [Collector.processor, hopen', hw']
    rfl
  · have hw' : t.wt[i]? = some (some w) := h.wt ▸ hw
    rw [processor_eq hopen hw hsize] at hs
    rw [processor_eq hopen' hw' hsize, ← h.wt, ← h.passed]
    have hsent := (h.modifyTask (g := (·.send (buff.take size))) (m := (·.send (buff.take size)))
      (fun _ => rfl) i w.tx).setPassed (Function.update s.passed i (s.passed i ++ buff.take size))
    split at hs
    · next hrotate =>
      obtain rfl := Option.some.inj hs
      rw [if_pos hrotate]
      obtain ⟨hnew, hwriter⟩ := hsent.newWriter i w.dir
      rw [← hwriter]
      exact ⟨_, rfl, (hnew.modifyTask (m := TaskCore.drop) (fun _ => rfl) i w.tx).setWt _⟩
    · next hrotate =>
      obtain rfl := Option.some.inj hs
      rw [if_neg hrotate]
      exact ⟨_, rfl, hsent.setWt _⟩

/-- A created writer keeps the agreement. -/
theorem createWriter {s' : Collector} (h : s.Agree t)
    (hs : s.createWriter cpuNums outDir = some s') :
    ∃ t', t.createWriter cpuNums outDir = some t' ∧ s'.Agree t' := by
  obtain ⟨hroom, rfl⟩ := createWriter_cases hs
  rw [createWriter_eq, ← h.wt, ← h.closed, if_pos hroom]
  obtain ⟨hnew, hwriter⟩ := h.newWriter s.wt.length outDir
  rw [← hwriter]
  exact ⟨_, rfl, hnew.setWt _⟩

/-- The closing keeps the agreement. -/
theorem close {s' : Collector} (h : s.Agree t) (hs : s.close = some s') :
    ∃ t', t.close = some t' ∧ s'.Agree t' := by
  obtain ⟨hopen, rfl⟩ := close_cases hs
  refine ⟨_, if_neg (h.closed ▸ hopen), ?_, h.clock, rfl, h.passed, ?_⟩
  · rw [h.wt]
  · funext i
    have hdrop : ∀ u : Collector, ((u.tasks i).map WriterTask.drop).map WriterTask.core =
        (u.cores i).map TaskCore.drop := by
      intro u
      rw [Collector.cores, List.map_map, List.map_map]
      rfl
    exact (hdrop s).trans ((congrArg _ (congrFun h.cores i)).trans (hdrop t).symm)

end Agree

/-- A step of a task is its own step, with the file system it leaves. -/
theorem task_cases {s s' : Collector} {i k : ℕ} (h : s.task i k = some s') :
    ∃ t fs t', (s.tasks i)[k]? = some t ∧ t.step s.fs = some (fs, t') ∧
      s' = { s with fs, tasks := Function.update s.tasks i ((s.tasks i).set k t') } := by
  unfold task at h
  split at h
  · cases h
  · next t ht =>
    split at h
    · cases h
    · next fs t' hstep => exact ⟨t, fs, t', ht, hstep, (Option.some.inj h).symm⟩

/-- A step of a task keeps its core. -/
theorem core_of_step {fs fs' : FileSystem} {t t' : WriterTask} (h : t.step fs = some (fs', t')) :
    t'.core = t.core := by
  obtain ⟨f, -, -, rfl⟩ | ⟨f, pos, d, rx, -, -, -, rfl⟩ | ⟨f, pos, -, -, -, -, rfl⟩ |
    ⟨-, -, rfl⟩ | ⟨-, -, -, rfl⟩ := WriterTask.step_cases h
  · rfl
  · rfl
  · rfl
  · rfl
  · rfl

/-- A change of a task that leaves its writer's part is none for the collector. -/
theorem agree_set {s : Collector} {i k : ℕ} {t t' : WriterTask} (ht : (s.tasks i)[k]? = some t)
    (hcore : t'.core = t.core) (fs : FileSystem) :
    ({ s with fs, tasks := Function.update s.tasks i ((s.tasks i).set k t') } : Collector).Agree
      s := by
  refine ⟨rfl, rfl, rfl, rfl, ?_⟩
  funext j
  by_cases hj : j = i
  · subst hj
    simp only [cores, Function.update_self]
    rw [List.map_set, hcore]
    apply List.ext_getElem?
    intro m
    rw [List.getElem?_set]
    split
    · next hm =>
      subst hm
      rw [List.getElem?_map, ht]
      simp [(List.getElem?_eq_some_iff.mp ht).1]
    · rfl
  · simp only [cores, Function.update_of_ne hj]

/-- Behind a step of a task everything but the files is as before. -/
theorem agree_task {s s' : Collector} {i k : ℕ} (h : s.task i k = some s') : s'.Agree s := by
  obtain ⟨t, fs, t', ht, hstep, rfl⟩ := task_cases h
  exact agree_set ht (core_of_step hstep) fs

/-- INTERNAL: **what the collector does is the same for every schedule of the tasks.** -/
theorem Agree.exec {s s' t : Collector} {ops : List CollectorOp} (h : s.Agree t)
    (hs : (collectorMachine cpuNums fileSize outDir).exec s ops = some s') :
    ∃ t', (collectorMachine cpuNums fileSize outDir).exec t (ops.filter CollectorOp.isInput) =
      some t' ∧ s'.Agree t' := by
  induction ops generalizing s t with
  | nil => exact ⟨t, rfl, Option.some.inj hs ▸ h⟩
  | cons op ops ih =>
    obtain ⟨u, hu, hrest⟩ := (Machine.exec_cons_eq_some _).mp hs
    -- an input is taken on both sides, a step of a task on the one only
    have hinput : op.isInput = true →
        (∃ v, (collectorMachine cpuNums fileSize outDir).step t op = some v ∧ u.Agree v) →
        ∃ t', (collectorMachine cpuNums fileSize outDir).exec t
          ((op :: ops).filter CollectorOp.isInput) = some t' ∧ s'.Agree t' := by
      rintro hop ⟨v, hv, huv⟩
      obtain ⟨t', ht', hagree⟩ := ih huv hrest
      rw [List.filter_cons_of_pos hop]
      exact ⟨t', (Machine.exec_cons_eq_some _).mpr ⟨v, hv, ht'⟩, hagree⟩
    cases op with
    | tick secs =>
      obtain rfl := Option.some.inj hu
      refine hinput rfl ⟨_, rfl, h.wt, ?_, h.closed, h.passed, h.cores⟩
      exact congrArg (· + secs) h.clock
    | createWriter => exact hinput rfl (h.createWriter hu)
    | processor i buff size => exact hinput rfl (h.processor hu)
    | close => exact hinput rfl (h.close hu)
    | task i k =>
      rw [List.filter_cons_of_neg (by exact Bool.false_ne_true)]
      exact ih ((agree_task hu).trans h) hrest

/-! ## The writers and their cores -/

/-- What holds of a CPU, its writer, the writers' part of its tasks and what was passed for it. -/
structure CpuOk (outDir : String) (closed : Bool) (i : ℕ) (wt : Option (Option DataWriter))
    (cs : List TaskCore) (passed : Bytes) : Prop where
  named : ∀ c ∈ cs, c.fName = getFileName c.created i outDir "tmp" ∧
    c.completeName = getFileName c.created i outDir "data"
  writer : ∀ w, wt = some (some w) → w.dir = outDir ∧ ∃ pre c, cs = pre ++ [c] ∧
    w.tx = pre.length ∧ c.txDropped = false ∧ w.writeSize = c.sent.length
  rotated : ∀ c ∈ cs.dropLast, c.sent ≠ []
  unused : wt = none → cs = []
  passed : passed = (cs.map TaskCore.sent).flatten
  closed : closed = true → ∀ c ∈ cs, c.txDropped = true

namespace CpuOk

variable {i : ℕ} {w : DataWriter} {cs : List TaskCore} {passed : Bytes}

/-- A new task has the names of its clock and CPU. -/
theorem named_new (time : ℕ) : (TaskCore.new time i outDir).fName =
      getFileName (TaskCore.new time i outDir).created i outDir "tmp" ∧
    (TaskCore.new time i outDir).completeName =
      getFileName (TaskCore.new time i outDir).created i outDir "data" :=
  ⟨rfl, getCompleteName_getFileName ..⟩

/-- The first writer of a CPU. -/
theorem first (time : ℕ) : CpuOk outDir false i
    (some (some ⟨0, getFileName time i outDir "tmp", outDir, 0⟩)) [TaskCore.new time i outDir]
    [] where
  named c hc := by
    rw [List.mem_singleton.mp hc]
    exact named_new time
  writer w hw := by
    obtain rfl := Option.some.inj (Option.some.inj hw)
    exact ⟨rfl, [], _, rfl, rfl, rfl, rfl⟩
  rotated c hc := absurd hc List.not_mem_nil
  unused h := by cases h
  passed := rfl
  closed h := by cases h

/-- Bytes are sent through the writer. -/
theorem send (h : CpuOk outDir false i (some (some w)) cs passed) (d : Bytes) :
    CpuOk outDir false i (some (some { w with writeSize := w.writeSize + d.length }))
      (cs.modify w.tx (TaskCore.send d)) (passed ++ d) := by
  obtain ⟨hdir, pre, c, rfl, htx, hopen, hsize⟩ := h.writer w rfl
  rw [htx, modify_append_length]
  constructor
  · intro c' hc'
    rcases List.mem_append.mp hc' with hpre | hlast
    · exact h.named c' (List.mem_append_left _ hpre)
    · rw [List.mem_singleton.mp hlast]
      exact h.named c (List.mem_append_right _ (List.mem_singleton_self c))
  · intro w' hw'
    obtain rfl := Option.some.inj (Option.some.inj hw')
    refine ⟨hdir, pre, c.send d, rfl, rfl, hopen, ?_⟩
    rw [TaskCore.send, List.length_append, hsize]
  · have hrotated := h.rotated
    rw [List.dropLast_concat] at hrotated ⊢
    exact hrotated
  · intro h
    cases h
  · rw [h.passed]
    simp [TaskCore.send]
  · intro h
    cases h

/-- The file is full, and a new writer takes the place of the old one. -/
theorem rotate (h : CpuOk outDir false i (some (some w)) cs passed) (hfull : 0 < w.writeSize)
    (time : ℕ) : CpuOk outDir false i
      (some (some ⟨cs.length, getFileName time i outDir "tmp", outDir, 0⟩))
      ((cs ++ [TaskCore.new time i outDir]).modify w.tx TaskCore.drop) passed := by
  obtain ⟨-, pre, c, rfl, htx, -, hsize⟩ := h.writer w rfl
  have hcs : (pre ++ [c] ++ [TaskCore.new time i outDir]).modify w.tx TaskCore.drop =
      pre ++ [c.drop] ++ [TaskCore.new time i outDir] := by
    rw [htx, List.append_assoc, List.singleton_append, modify_append_length, List.append_assoc,
      List.singleton_append]
  rw [hcs]
  constructor
  · intro c' hc'
    rcases List.mem_append.mp hc' with hold | hnew
    · rcases List.mem_append.mp hold with hpre | hlast
      · exact h.named c' (List.mem_append_left _ hpre)
      · rw [List.mem_singleton.mp hlast]
        exact h.named c (List.mem_append_right _ (List.mem_singleton_self c))
    · rw [List.mem_singleton.mp hnew]
      exact named_new time
  · intro w' hw'
    obtain rfl := Option.some.inj (Option.some.inj hw')
    refine ⟨rfl, pre ++ [c.drop], _, rfl, ?_, rfl, rfl⟩
    simp only [List.length_append, List.length_singleton]
  · rw [List.dropLast_concat]
    intro c' hc'
    rcases List.mem_append.mp hc' with hpre | hlast
    · apply h.rotated
      rw [List.dropLast_concat]
      exact hpre
    · rw [List.mem_singleton.mp hlast]
      show c.sent ≠ []
      apply List.ne_nil_of_length_pos
      rw [← hsize]
      exact hfull
  · intro h
    cases h
  · rw [h.passed]
    simp [TaskCore.drop, TaskCore.new]
  · intro h
    cases h

/-- The closing of the writers keeps a CPU all right. -/
theorem close {wt : Option (Option DataWriter)} {closed : Bool}
    (h : CpuOk outDir closed i wt cs passed) :
    CpuOk outDir true i (wt.map fun _ => none) (cs.map TaskCore.drop) passed where
  named c hc := by
    obtain ⟨c', hc', rfl⟩ := List.mem_map.mp hc
    exact h.named c' hc'
  writer w hw := by
    cases wt <;> cases hw
  rotated c hc := by
    rw [← List.map_dropLast] at hc
    obtain ⟨c', hc', rfl⟩ := List.mem_map.mp hc
    exact h.rotated c' hc'
  unused hwt := by
    rw [h.unused (Option.map_eq_none_iff.mp hwt)]
    rfl
  passed := by
    rw [h.passed, List.map_map]
    rfl
  closed _ c hc := by
    obtain ⟨c', -, rfl⟩ := List.mem_map.mp hc
    rfl

end CpuOk

/-- Every CPU is as `CpuOk` says. -/
def WritersOk (outDir : String) (s : Collector) : Prop :=
  ∀ i, CpuOk outDir s.closed i s.wt[i]? (s.cores i) (s.passed i)

/-- The order of the writers does not depend on what the tasks have done. -/
theorem WritersOk.of_agree {s t : Collector} (h : WritersOk outDir t) (hst : s.Agree t) :
    WritersOk outDir s := by
  intro i
  rw [hst.closed, hst.wt, hst.cores, hst.passed]
  exact h i

/-- The cores do not depend on what was passed. -/
theorem cores_setPassed (s : Collector) (passed : ℕ → Bytes) :
    Collector.cores { s with passed } = s.cores := rfl

/-- INTERNAL: what a call of `processor` leaves of the writers' part of the tasks of its CPU. -/
theorem cores_processor {s s' : Collector} {i : ℕ} {w : DataWriter} {buff : Bytes} {size : ℕ}
    (hopen : s.closed = false) (hw : s.wt[i]? = some (some w)) (hsize : size ≤ buff.length)
    (h : s.processor fileSize i buff size = some s') :
    s'.closed = false ∧ s'.clock = s.clock ∧
      s'.passed = Function.update s.passed i (s.passed i ++ buff.take size) ∧
      ((w.writeSize + size ≤ fileSize ∧
          s'.wt = s.wt.set i (some { w with writeSize := w.writeSize + size }) ∧
          s'.cores = Function.update s.cores i
            ((s.cores i).modify w.tx (TaskCore.send (buff.take size)))) ∨
        (fileSize < w.writeSize + size ∧
          s'.wt = s.wt.set i (some ⟨(s.cores i).length, getFileName s.clock i w.dir "tmp", w.dir,
            0⟩) ∧
          s'.cores = Function.update s.cores i
            (((s.cores i).modify w.tx (TaskCore.send (buff.take size)) ++
              [TaskCore.new s.clock i w.dir]).modify w.tx TaskCore.drop))) := by
  rw [processor_eq hopen hw hsize] at h
  have hsend := cores_modifyTask (g := (·.send (buff.take size)))
    (m := TaskCore.send (buff.take size)) (fun _ => rfl) s i w.tx
  split at h
  · next hfull =>
    obtain rfl := Option.some.inj h
    refine ⟨hopen, rfl, rfl, .inr ⟨hfull, ?_, ?_⟩⟩
    · rw [length_cores]
      simp only [newWriter, modifyTask, Function.update_self, List.length_modify]
    · show Collector.cores (Collector.dropWriter _ _ _) = _
      rw [dropWriter, cores_modifyTask (m := TaskCore.drop) (fun _ => rfl), cores_newWriter,
        cores_setPassed, hsend]
      simp only [Function.update_self, Function.update_idem]
      rfl
  · next hroom =>
    obtain rfl := Option.some.inj h
    exact ⟨hopen, rfl, rfl, .inl ⟨not_lt.mp hroom, rfl, hsend⟩⟩

/-- A call of the processor keeps the writers in order. -/
theorem WritersOk.processor {s s' : Collector} {i : ℕ} {buff : Bytes} {size : ℕ}
    (hs : WritersOk outDir s) (h : s.processor fileSize i buff size = some s') :
    WritersOk outDir s' := by
  obtain ⟨hopen, ⟨-, rfl⟩ | ⟨w, hw, hsize⟩⟩ := exists_writer_of_processor h
  · exact hs
  · obtain ⟨hopen', -, hpassed, hcores⟩ := cores_processor hopen hw hsize h
    have hi := hs i
    rw [hopen, hw] at hi
    have hlen : (buff.take size).length = size := List.length_take_of_le hsize
    have hsent := hi.send (buff.take size)
    have hlt : i < s.wt.length := (List.getElem?_eq_some_iff.mp hw).1
    intro j
    rw [hopen', hpassed]
    by_cases hj : j = i
    · subst hj
      rw [Function.update_self]
      rcases hcores with ⟨-, hwt, hcores⟩ | ⟨hfull, hwt, hcores⟩
      · rw [hwt, hcores, Function.update_self, List.getElem?_set_self hlt, ← hlen]
        rw [hlen] at hsent ⊢
        exact hsent
      · rw [hwt, hcores, Function.update_self, List.getElem?_set_self hlt]
        have hdir := (hi.writer w rfl).1
        rw [hdir]
        have hrotate := hsent.rotate (by show 0 < w.writeSize + _; omega) s.clock
        rw [List.length_modify] at hrotate
        exact hrotate
    · have hj' := hs j
      rw [hopen] at hj'
      rw [Function.update_of_ne hj]
      rcases hcores with ⟨-, hwt, hcores⟩ | ⟨-, hwt, hcores⟩
      · rw [hwt, hcores, Function.update_of_ne hj, List.getElem?_set_ne (Ne.symm hj)]
        exact hj'
      · rw [hwt, hcores, Function.update_of_ne hj, List.getElem?_set_ne (Ne.symm hj)]
        exact hj'

/-- A created writer keeps the writers in order. -/
theorem WritersOk.createWriter {s s' : Collector} (hs : WritersOk outDir s)
    (h : s.createWriter cpuNums outDir = some s') : WritersOk outDir s' := by
  obtain ⟨hroom, rfl⟩ := createWriter_cases h
  intro j
  have hj' := hs j
  show CpuOk outDir s.closed j (s.wt ++ [_])[j]? (Collector.cores (newWriter _ _ _ _).1 j)
    (s.passed j)
  rw [cores_newWriter, hroom.2]
  rw [hroom.2] at hj'
  by_cases hj : j = s.wt.length
  · subst hj
    rw [List.getElem?_eq_none le_rfl] at hj'
    have hnil := hj'.unused rfl
    have htasks : (s.tasks s.wt.length).length = 0 := by
      rw [← length_cores, hnil, List.length_nil]
    have hpassed := hj'.passed
    rw [hnil] at hpassed
    rw [Function.update_self, hnil, List.getElem?_concat_length, hpassed]
    simp only [newWriter, htasks]
    exact CpuOk.first s.clock
  · rw [Function.update_of_ne hj]
    rcases Nat.lt_or_gt_of_ne hj with hlt | hgt
    · rw [List.getElem?_append_left hlt]
      exact hj'
    · rw [List.getElem?_eq_none hgt.le] at hj'
      rw [List.getElem?_eq_none (by rw [List.length_append, List.length_singleton]; omega)]
      exact hj'

/-- The closing keeps the writers in order. -/
theorem WritersOk.close {s s' : Collector} (hs : WritersOk outDir s) (h : s.close = some s') :
    WritersOk outDir s' := by
  obtain ⟨-, rfl⟩ := close_cases h
  intro j
  have hj := (hs j).close
  rw [← List.getElem?_map] at hj
  have hcores : Collector.cores { s with
      wt := s.wt.map fun _ => none
      tasks := fun i => (s.tasks i).map fun t => { t with txDropped := true }
      closed := true } j = (s.cores j).map TaskCore.drop := by
    simp only [Collector.cores, List.map_map]
    rfl
  rw [hcores]
  exact hj

/-- In the beginning there is no writer. -/
theorem writersOk_init :
    WritersOk outDir (collectorMachine cpuNums fileSize outDir).init := by
  intro i
  constructor
  · exact fun c hc => absurd hc List.not_mem_nil
  · exact fun w hw => nomatch hw
  · exact fun c hc => absurd hc List.not_mem_nil
  · exact fun _ => rfl
  · rfl
  · exact fun h => nomatch h

/-- INTERNAL: **the writers and what was sent** stay in step, in every run.
SRC: collector.rs:13-35, 54-56, file_writer/mod.rs:39-56 -/
theorem WritersOk.step {s s' : Collector} {op : CollectorOp} (hs : WritersOk outDir s)
    (h : (collectorMachine cpuNums fileSize outDir).step s op = some s') :
    WritersOk outDir s' := by
  cases op with
  | tick secs =>
    obtain rfl := Option.some.inj h
    exact hs
  | createWriter => exact hs.createWriter h
  | processor i buff size => exact hs.processor h
  | close => exact hs.close h
  | task i k => exact hs.of_agree (agree_task h)

/-! ## The seconds of the writers -/

/-- The seconds in which the writers of each CPU were created. -/
def created (s : Collector) : ℕ → List ℕ := fun i => (s.cores i).map TaskCore.created

/-- No CPU has had two writers in one second. -/
def Distinct (s : Collector) : Prop := ∀ i, (s.created i).Nodup

/-- The step does not fill the file of a CPU in a second in which a writer of the CPU was
created. -/
def Fresh (fileSize : ℕ) (s : Collector) : CollectorOp → Prop
  | .processor i _ size => ∀ w, s.wt[i]? = some (some w) → fileSize < w.writeSize + size →
      s.clock ∉ s.created i
  | _ => True

/-- A change that keeps the second keeps the seconds. -/
theorem created_modify (g : TaskCore → TaskCore) (h : ∀ c, (g c).created = c.created)
    (cs : List TaskCore) (k : ℕ) :
    (cs.modify k g).map TaskCore.created = cs.map TaskCore.created := by
  rw [map_modify (m := id) h]
  exact List.modify_id _ _

/-- A further second is distinct from the others if it is none of them. -/
theorem distinct_of_created_update {s s' : Collector} {i x : ℕ}
    (h : s'.created = Function.update s.created i (s.created i ++ [x])) :
    s'.Distinct ↔ s.Distinct ∧ x ∉ s.created i := by
  unfold Distinct
  rw [h]
  constructor
  · intro hs
    have hi := hs i
    rw [Function.update_self, ← List.concat_eq_append, List.nodup_concat] at hi
    refine ⟨fun j => ?_, hi.1⟩
    by_cases hj : j = i
    · subst hj
      exact hi.2
    · have hj' := hs j
      rw [Function.update_of_ne hj] at hj'
      exact hj'
  · rintro ⟨hs, hx⟩
    apply Families.forall_update (P := fun _ (l : List ℕ) => l.Nodup) hs
    rw [← List.concat_eq_append, List.nodup_concat]
    exact ⟨hx, hs i⟩

/-- The seconds are updated with the cores. -/
theorem created_update {s s' : Collector} {i : ℕ} {cs : List TaskCore}
    (h : s'.cores = Function.update s.cores i cs) :
    s'.created = Function.update s.created i (cs.map TaskCore.created) := by
  funext j
  rw [created, h]
  by_cases hj : j = i
  · subst hj
    rw [Function.update_self, Function.update_self]
  · rw [Function.update_of_ne hj, Function.update_of_ne hj]
    rfl

/-- Distinctness depends on the seconds only. -/
theorem distinct_congr {s s' : Collector} (h : s'.created = s.created) :
    s'.Distinct ↔ s.Distinct := by
  unfold Distinct
  rw [h]

/-- INTERNAL: a step keeps the seconds of the writers distinct exactly when it is fresh. -/
theorem distinct_step_iff {s s' : Collector} {op : CollectorOp} (hs : WritersOk outDir s)
    (h : (collectorMachine cpuNums fileSize outDir).step s op = some s') :
    s'.Distinct ↔ s.Distinct ∧ s.Fresh fileSize op := by
  cases op with
  | tick secs =>
    obtain rfl := Option.some.inj h
    exact (and_iff_left trivial).symm
  | createWriter =>
    obtain ⟨-, rfl⟩ := createWriter_cases h
    have hi := hs s.wt.length
    rw [List.getElem?_eq_none le_rfl] at hi
    have hnil : s.created s.wt.length = [] := by
      rw [created, hi.unused rfl]
      rfl
    rw [distinct_of_created_update (i := s.wt.length) (x := s.clock)]
    · rw [hnil]
      exact and_congr_right fun _ => ⟨fun _ => trivial, fun _ => List.not_mem_nil⟩
    · refine (created_update (cores_newWriter s s.wt.length outDir)).trans ?_
      rw [List.map_append]
      rfl
  | processor i buff size =>
    obtain ⟨hopen, ⟨hw, rfl⟩ | ⟨w, hw, hsize⟩⟩ := exists_writer_of_processor h
    · refine (and_iff_left ?_).symm
      intro w' hw'
      rw [hw] at hw'
      cases hw'
    · obtain ⟨-, -, -, ⟨hroom, -, hcores⟩ | ⟨hfull, -, hcores⟩⟩ := cores_processor hopen hw hsize h
      · rw [distinct_congr (s := s)]
        · refine (and_iff_left ?_).symm
          intro w' hw' hfull'
          rw [hw] at hw'
          obtain rfl := Option.some.inj (Option.some.inj hw')
          omega
        · have hsame := created_modify (TaskCore.send (buff.take size)) (fun _ => rfl)
            (s.cores i) w.tx
          rw [created_update hcores, hsame]
          exact Function.update_eq_self i s.created
      · rw [distinct_of_created_update (i := i) (x := s.clock)]
        · refine and_congr_right fun _ => ⟨fun hx _ _ _ => hx, fun hfresh => ?_⟩
          exact hfresh w hw hfull
        · have hsame := created_modify (TaskCore.send (buff.take size)) (fun _ => rfl)
            (s.cores i) w.tx
          rw [created_update hcores, created_modify TaskCore.drop (fun _ => rfl),
            List.map_append, hsame]
          rfl
  | close =>
    obtain ⟨-, rfl⟩ := close_cases h
    refine (distinct_congr ?_).trans (and_iff_left trivial).symm
    funext i
    simp only [created, cores, List.map_map]
    rfl
  | task i k =>
    refine (distinct_congr ?_).trans (and_iff_left trivial).symm
    funext j
    rw [created, (agree_task h).cores]
    rfl

/-- The seconds stay distinct exactly as long as the new ones are new. -/
theorem distinct_exec_iff {s s' : Collector} {ops : List CollectorOp} (hs : WritersOk outDir s)
    (h : (collectorMachine cpuNums fileSize outDir).exec s ops = some s') :
    s'.Distinct ↔
      s.Distinct ∧ (collectorMachine cpuNums fileSize outDir).Meets (Fresh fileSize) s ops := by
  induction ops generalizing s with
  | nil =>
    rw [Option.some.inj h]
    exact (and_iff_left trivial).symm
  | cons op ops ih =>
    obtain ⟨u, hu, hrest⟩ := (Machine.exec_cons_eq_some _).mp h
    rw [ih (hs.step hu) hrest, distinct_step_iff hs hu, and_assoc]
    refine and_congr_right fun _ => and_congr_right fun _ => ⟨fun hmeets u' hu' => ?_, fun hmeets =>
      hmeets u hu⟩
    obtain rfl := Option.some.inj (hu.symm.trans hu')
    exact hmeets

end Collector

end PtkGenerator

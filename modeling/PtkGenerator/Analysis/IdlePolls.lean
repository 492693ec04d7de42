import PtkGenerator.Analysis.CollectorWriters
import PtkGenerator.Analysis.SweepStop
import PtkGenerator.Model.CollectorLoop

/-!
# When a poll makes the collector panic

`processor` hands on every buffer it is called with, the empty ones too, so a poll that fetched
nothing takes a place in the queue of the CPU like any other.  The other processors of the program
hand on nothing then.  `polls_harmless_iff` says which runs do not notice.
-/

set_option autoImplicit false

namespace PtkGenerator

variable {n L outLen cpuNums fileSize : ℕ} {outDir : String}

namespace Collector

/-- The non-empty buffers that wait in the queue of a CPU. -/
def waiting (s : Collector) (i : ℕ) : ℕ :=
  match s.current i with
  | some t => (t.rx.filter fun d => decide (d ≠ [])).length
  | none => 0

/-- The places that are taken in the queue of a CPU. -/
def places (s : Collector) (i : ℕ) : ℕ :=
  match s.current i with
  | some t => t.rx.length
  | none => 0

/-- After a call of `processor` for the CPU `i` with `size` bytes at most 10000 non-empty buffers
wait in the queue of each CPU. -/
def WithinLimit (s : Collector) (i size : ℕ) : Prop :=
  ∀ j, s.waiting j + (if j = i ∧ 0 < size then 1 else 0) ≤ queueLen

/-- The CPU has a writer, the task of the writer has not died, and fewer than 10000 buffers, empty
ones counted, wait in its queue. -/
def HasRoom (s : Collector) (i : ℕ) : Prop :=
  ∃ t, s.current i = some t ∧ t.phase ≠ .ended ∧ t.phase ≠ .failed ∧ t.rx.length < queueLen

/-! ## The writers -/

/-- What holds of the writers until they are closed, which the collector never does. -/
structure Open (fileSize : ℕ) (outDir : String) (s : Collector) : Prop where
  ok : WritersOk outDir s
  opened : s.closed = false
  kept : ∀ o ∈ s.wt, ∃ w, o = some w ∧ w.writeSize ≤ fileSize

/-- A writer sends to the current task of its CPU. -/
theorem Open.exists_current {s : Collector} (h : Open fileSize outDir s) {i : ℕ} {w : DataWriter}
    (hw : s.wt[i]? = some (some w)) : ∃ t, (s.tasks i)[w.tx]? = some t ∧ s.current i = some t := by
  obtain ⟨-, pre, c, hcs, htx, -⟩ := (h.ok i).writer w hw
  have hlen : (s.tasks i).length = pre.length + 1 := by
    rw [← length_cores, hcs, List.length_append, List.length_singleton]
  have ht := List.getElem?_eq_getElem (l := s.tasks i) (i := w.tx) (by omega)
  refine ⟨_, ht, ?_⟩
  simp only [current, hw, ht]

/-- In the beginning the writers are open, as there are none. -/
theorem Open.init (cpuNums fileSize : ℕ) (outDir : String) :
    Open fileSize outDir (collectorMachine cpuNums fileSize outDir).init where
  ok := writersOk_init
  opened := rfl
  kept _ ho := absurd ho List.not_mem_nil

/-- The writers are open in both of two states that agree. -/
theorem Open.agree {s t : Collector} (h : Open fileSize outDir t) (hst : s.Agree t) :
    Open fileSize outDir s where
  ok := h.ok.of_agree hst
  opened := hst.closed.trans h.opened
  kept := hst.wt ▸ h.kept

/-- A created writer is open. -/
theorem Open.createWriter {s s' : Collector} (h : Open fileSize outDir s)
    (hs : s.createWriter cpuNums outDir = some s') : Open fileSize outDir s' := by
  have hok := h.ok.createWriter hs
  obtain ⟨-, rfl⟩ := createWriter_cases hs
  refine ⟨hok, h.opened, fun o ho => ?_⟩
  rcases List.mem_append.mp ho with hold | hnew
  · exact h.kept o hold
  · exact ⟨_, List.mem_singleton.mp hnew, Nat.zero_le _⟩

/-- A call of the processor keeps the writers open. -/
theorem Open.processor {s s' : Collector} (h : Open fileSize outDir s) {i : ℕ} {buff : Bytes}
    {size : ℕ} (hs : s.processor fileSize i buff size = some s') : Open fileSize outDir s' := by
  obtain ⟨hopen, ⟨-, rfl⟩ | ⟨w, hw, hsize⟩⟩ := exists_writer_of_processor hs
  · exact h
  · obtain ⟨hopen', -, -, hcores⟩ := cores_processor hopen hw hsize hs
    refine ⟨h.ok.processor hs, hopen', fun o ho => ?_⟩
    rcases hcores with ⟨hle, hwt, -⟩ | ⟨-, hwt, -⟩
    · rw [hwt] at ho
      rcases List.mem_or_eq_of_mem_set ho with hold | hnew
      · exact h.kept o hold
      · exact ⟨_, hnew, hle⟩
    · rw [hwt] at ho
      rcases List.mem_or_eq_of_mem_set ho with hold | hnew
      · exact h.kept o hold
      · exact ⟨_, hnew, Nat.zero_le _⟩

/-- A task that fails changes its own phase. -/
theorem fail_cases {s s' : Collector} {i k : ℕ} (h : s.fail i k = some s') :
    ∃ t t', (s.tasks i)[k]? = some t ∧ t.fail = some t' ∧
      s' = { s with tasks := Function.update s.tasks i ((s.tasks i).set k t') } := by
  obtain ⟨t', ht', rfl⟩ := Option.map_eq_some_iff.mp h
  obtain ⟨t, ht, hfail⟩ := Option.bind_eq_some_iff.mp ht'
  exact ⟨t, t', ht, hfail, rfl⟩

/-- A task that fails leaves everything that the collector looks at. -/
theorem agree_fail {s s' : Collector} {i k : ℕ} (h : s.fail i k = some s') : s'.Agree s := by
  obtain ⟨t, t', ht, hfail, rfl⟩ := fail_cases h
  refine agree_set ht ?_ s.fs
  unfold WriterTask.fail at hfail
  split at hfail
  · exact Option.some.inj hfail ▸ rfl
  · split at hfail
    · exact Option.some.inj hfail ▸ rfl
    · cases hfail
  · exact Option.some.inj hfail ▸ rfl
  · cases hfail
  · cases hfail

/-- No CPU has lost its writer. -/
theorem Open.owned {s : Collector} (h : Open fileSize outDir s) (i : ℕ) :
    s.wt[i]? ≠ some none := by
  intro hnone
  obtain ⟨w, hsome, -⟩ := h.kept none (List.mem_of_getElem? hnone)
  cases hsome

/-- A call of the bounded processor keeps the writers open. -/
theorem Open.boundedProcessor {s s' : Collector} (h : Open fileSize outDir s) {i : ℕ} {buff : Bytes}
    {size : ℕ} {answer : Bool}
    (hs : Collector.boundedProcessor fileSize s i buff size = some (s', answer)) :
    Open fileSize outDir s' :=
  h.processor (boundedProcessor_eq_some hs)

/-- INTERNAL: **when a call of `processor` panics.**
SRC: collector.rs:13-35, file_writer/mod.rs:51-55 -/
theorem Open.boundedProcessor_isSome_iff {s : Collector} (h : Open fileSize outDir s) {i : ℕ}
    {buff : Bytes} {size : ℕ} (hsize : size ≤ buff.length) :
    (Collector.boundedProcessor fileSize s i buff size).isSome = true ↔ s.HasRoom i := by
  rw [Collector.boundedProcessor, HasRoom]
  rcases hw : s.wt[i]? with _ | _ | w
  · have hcurrent : s.current i = none := by simp only [current, hw]
    have hpanic : s.processor fileSize i buff size = none := by
      simp only [Collector.processor, h.opened, hw]
      rfl
    simp [hcurrent, hpanic]
  · exact absurd hw (h.owned i)
  · obtain ⟨t, -, ht⟩ := h.exists_current hw
    rw [ht, Option.all_some, processor_eq h.opened hw hsize]
    simp only [WriterTask.accepts, decide_eq_true_eq, Option.some.injEq, exists_eq_left']
    split
    · next hroom =>
      rw [Option.isSome_map]
      exact iff_of_true (by split <;> rfl) hroom
    · next hfull => exact iff_of_false Bool.false_ne_true hfull

/-- INTERNAL: **an empty buffer takes a place** like any other.
SRC: collector.rs:18, file_writer/mod.rs:51-53 -/
theorem Open.places_idle {s s' : Collector} (h : Open fileSize outDir s) {i : ℕ} {buff : Bytes}
    {answer : Bool} (hs : Collector.boundedProcessor fileSize s i buff 0 = some (s', answer)) :
    s'.places i = s.places i + 1 := by
  have hc := boundedProcessor_eq_some hs
  obtain ⟨-, ⟨hnone, -⟩ | ⟨w, hw, hsize⟩⟩ := exists_writer_of_processor hc
  · exact absurd hnone (h.owned i)
  · obtain ⟨w', hw', hkept⟩ := h.kept _ (List.mem_of_getElem? hw)
    obtain rfl := Option.some.inj hw'
    obtain ⟨t, ht, hcurrent⟩ := h.exists_current hw
    have hroom : ¬ fileSize < w.writeSize + 0 := not_lt.mpr hkept
    rw [processor_eq h.opened hw hsize, if_neg hroom, Option.some.injEq] at hc
    have hwt : s'.wt[i]? = some (some { w with writeSize := w.writeSize + 0 }) := by
      rw [← hc]
      exact List.getElem?_set_self (List.getElem?_eq_some_iff.mp hw).1
    have htasks : (s'.tasks i)[w.tx]? = some (t.send []) := by
      rw [← hc]
      simp only [modifyTask, Function.update_self, List.getElem?_modify, ht, List.take_zero]
      rfl
    have hcurrent' : s'.current i = some (t.send []) := by
      simp only [current, hwt, htasks]
    simp only [places, hcurrent, hcurrent', WriterTask.send, List.length_append,
      List.length_singleton]

end Collector

/-! ## The loop -/

/-- A call of the processor panics when the processor has no answer. -/
theorem Setup.panicked_call {P : Type} {processor : Processor P} {s : Setup n L P}
    (h : s.panicked = false) (r : ℕ) : (s.call processor r).panicked = false ↔
      (processor s.processor s.capture.i s.capture.tmpBuff r).isSome = true := by
  rw [call]
  split
  · next hnone => simp [hnone]
  · next p answer hsome =>
    rw [hsome]
    split <;> exact iff_of_true h rfl

variable [NeZero L]

/-- What holds of the collector and its loop. -/
structure Polling (outLen fileSize : ℕ) (outDir : String) (s : Setup n L Collector) : Prop where
  fits : s.Fits outLen
  writers : s.processor.Open fileSize outDir

omit [NeZero L] in
/-- What is done beside the loop keeps it polling, if the writers stay open. -/
theorem Polling.withProcessor {s : Setup n L Collector} (h : Polling outLen fileSize outDir s)
    {c : Collector} (hc : c.Open fileSize outDir) :
    Polling outLen fileSize outDir (s.withProcessor c) :=
  ⟨⟨h.fits.length, h.fits.copied_le, h.fits.i_lt⟩, hc⟩

/-- One round of the loop is a step of the capture. -/
theorem collectorLoop_loop {s : Setup n L Collector} (hlen : s.processor.wt.length = cpuNums)
    (hrun : s.running = true) (buffs : Rings n L) :
    (collectorLoop n L outLen cpuNums fileSize outDir).step s (.loop buffs) =
      some ((s.withRings buffs).next (Collector.boundedProcessor fileSize)) :=
  if_pos ⟨hlen, hrun⟩

/-- Every step keeps the loop polling. -/
theorem Polling.step {s s' : Setup n L Collector} {op : CollectorLoopOp n L}
    (h : Polling outLen fileSize outDir s)
    (hs : (collectorLoop n L outLen cpuNums fileSize outDir).step s op = some s') :
    Polling outLen fileSize outDir s' := by
  cases op with
  | tick secs =>
    obtain rfl := Option.some.inj hs
    exact h.withProcessor ⟨h.writers.ok, h.writers.opened, h.writers.kept⟩
  | createWriter =>
    obtain ⟨c, hc, rfl⟩ := Option.map_eq_some_iff.mp hs
    exact h.withProcessor (h.writers.createWriter hc)
  | loop buffs =>
    simp only [collectorLoop, Option.ite_none_right_eq_some, Option.some.injEq] at hs
    obtain ⟨-, rfl⟩ := hs
    refine ⟨(h.fits.withRings buffs).next _, ?_⟩
    obtain hsame | hpanic | ⟨c, -, hnext⟩ | ⟨r, p, answer, c, -, hp, -, hnext⟩ :=
      Setup.next_cases (Collector.boundedProcessor fileSize) (s.withRings buffs)
    · rw [hsame]
      exact h.writers
    · rw [hpanic]
      exact h.writers
    · rw [hnext]
      exact h.writers
    · rw [hnext]
      exact h.writers.boundedProcessor hp
  | task i k =>
    obtain ⟨c, hc, rfl⟩ := Option.map_eq_some_iff.mp hs
    exact h.withProcessor (h.writers.agree (Collector.agree_task hc))
  | fail i k =>
    obtain ⟨c, hc, rfl⟩ := Option.map_eq_some_iff.mp hs
    exact h.withProcessor (h.writers.agree (Collector.agree_fail hc))

/-- The loop starts polling. -/
theorem polling_init : Polling outLen fileSize outDir
    (collectorLoop n L outLen cpuNums fileSize outDir).init :=
  ⟨⟨List.length_replicate, Nat.zero_le _, .inr rfl⟩, Collector.Open.init cpuNums fileSize outDir⟩

/-- Every reachable loop polls. -/
theorem collectorLoop_polling {s : Setup n L Collector}
    (hs : (collectorLoop n L outLen cpuNums fileSize outDir).Reachable s) :
    Polling outLen fileSize outDir s :=
  Machine.invariant _ polling_init (fun _ _ _ => Polling.step) hs

/-- A call of `processor` within the limit does not panic. -/
def PollHarmless (s : Setup n L Collector) : CollectorLoopOp n L → Setup n L Collector → Prop
  | .loop _, s' => ∀ r, s.capture.phase = .handing r →
      s.processor.WithinLimit s.capture.i r → s'.panicked = false
  | _, _ => True

/-- A call of `processor` within the limit finds room in the queue of the CPU, empty buffers
counted. -/
def RoomForPoll (s : Setup n L Collector) : CollectorLoopOp n L → Prop
  | .loop _ => ∀ r, s.capture.phase = .handing r →
      s.processor.WithinLimit s.capture.i r → s.processor.HasRoom s.capture.i
  | _ => True

/-- A call of `processor` with no bytes that returns takes no place in the queue of the CPU. -/
def IdlePollFree (s : Setup n L Collector) : CollectorLoopOp n L → Setup n L Collector → Prop
  | .loop _, s' => s.capture.phase = .handing 0 → s'.panicked = false →
      s'.processor.places s.capture.i = s.processor.places s.capture.i
  | _, _ => True

/-- No call of `processor` with no bytes finds room in the queue of the CPU. -/
def NoIdlePoll (s : Setup n L Collector) : CollectorLoopOp n L → Prop
  | .loop _ => s.capture.phase = .handing 0 → ¬ s.processor.HasRoom s.capture.i
  | _ => True

/-- A loop that has a buffer to hand out hands it out. -/
theorem next_handing {s : Setup n L Collector} {r : ℕ} (hphase : s.capture.phase = .handing r)
    (buffs : Rings n L) : (s.withRings buffs).next (Collector.boundedProcessor fileSize) =
      (s.withRings buffs).call (Collector.boundedProcessor fileSize) r := by
  have hphase' : (s.withRings buffs).capture.phase = .handing r := hphase
  rw [Setup.next, hphase']

/-- A buffer that is handed out panics the loop when the queue of its CPU is full. -/
theorem Polling.panicked_iff {s : Setup n L Collector} (h : Polling outLen fileSize outDir s)
    (hpan : s.panicked = false) {r : ℕ} (hphase : s.capture.phase = .handing r)
    (buffs : Rings n L) :
    ((s.withRings buffs).next (Collector.boundedProcessor fileSize)).panicked = false ↔
      s.processor.HasRoom s.capture.i := by
  rw [next_handing hphase, Setup.panicked_call (s := s.withRings buffs) hpan]
  exact h.writers.boundedProcessor_isSome_iff (h.fits.handing hphase).2

/-- An empty buffer takes a place in the queue of its CPU. -/
theorem Polling.places_next {s : Setup n L Collector} (h : Polling outLen fileSize outDir s)
    (hphase : s.capture.phase = .handing 0) (hroom : s.processor.HasRoom s.capture.i)
    (buffs : Rings n L) :
    ((s.withRings buffs).next (Collector.boundedProcessor fileSize)).processor.places s.capture.i =
      s.processor.places s.capture.i + 1 := by
  have hfits := h.fits.handing hphase
  obtain ⟨⟨p, answer⟩, hp⟩ := Option.isSome_iff_exists.mp
    ((h.writers.boundedProcessor_isSome_iff hfits.2).mpr hroom)
  obtain ⟨c, hc⟩ := Capture.process_isSome (s := (s.withRings buffs).capture) hphase hfits.1 answer
  rw [Setup.next_of_process (s := s.withRings buffs) hphase hp hc]
  exact h.writers.places_idle hp

/-- A poll is harmless when there is room for it. -/
theorem pollHarmless_iff {s s' : Setup n L Collector} {op : CollectorLoopOp n L}
    (h : Polling outLen fileSize outDir s)
    (hs : (collectorLoop n L outLen cpuNums fileSize outDir).step s op = some s') :
    PollHarmless s op s' ↔ RoomForPoll s op := by
  cases op with
  | loop buffs =>
    simp only [collectorLoop, Option.ite_none_right_eq_some, Option.some.injEq] at hs
    obtain ⟨⟨-, hrun⟩, rfl⟩ := hs
    have hpan := (Setup.running_iff.mp hrun).1
    exact forall_congr' fun r => imp_congr_right fun hphase => imp_congr_right fun _ =>
      h.panicked_iff hpan hphase buffs
  | tick | createWriter | task | fail => exact Iff.rfl

/-- The loop gets no idle poll exactly when the driver has something each time. -/
theorem idlePollFree_iff {s s' : Setup n L Collector} {op : CollectorLoopOp n L}
    (h : Polling outLen fileSize outDir s)
    (hs : (collectorLoop n L outLen cpuNums fileSize outDir).step s op = some s') :
    IdlePollFree s op s' ↔ NoIdlePoll s op := by
  cases op with
  | loop buffs =>
    simp only [collectorLoop, Option.ite_none_right_eq_some, Option.some.injEq] at hs
    obtain ⟨⟨-, hrun⟩, rfl⟩ := hs
    refine imp_congr_right fun hphase => ?_
    rw [h.panicked_iff (Setup.running_iff.mp hrun).1 hphase buffs]
    refine imp_congr_right fun hroom => ?_
    rw [h.places_next hphase hroom buffs]
    exact iff_of_false (Nat.succ_ne_self _) id
  | tick | createWriter | task | fail => exact Iff.rfl

/-- MAIN: **when idle polls do no harm.**  For every number of rings and CPUs and every interleaving
of the loop, the driver and the tasks: `processor` does not panic while at most 10000 non-empty
buffers wait for each CPU, if and only if each of its calls then finds the task of the CPU alive and
room in its queue, empty buffers counted; and polls that fetched nothing take no place in a queue if
and only if no such poll finds room.
SRC: collector.rs:13-35, file_writer/mod.rs:13-28, 51-55, pt_ctrl/mod.rs:334-352 -/
theorem polls_harmless_iff {ops : List (CollectorLoopOp n L)} {t : Setup n L Collector}
    (h : (collectorLoop n L outLen cpuNums fileSize outDir).exec
      (collectorLoop n L outLen cpuNums fileSize outDir).init ops = some t) :
    ((collectorLoop n L outLen cpuNums fileSize outDir).EveryStep PollHarmless ops ↔
      (collectorLoop n L outLen cpuNums fileSize outDir).Meets RoomForPoll
        (collectorLoop n L outLen cpuNums fileSize outDir).init ops) ∧
    ((collectorLoop n L outLen cpuNums fileSize outDir).EveryStep IdlePollFree ops ↔
      (collectorLoop n L outLen cpuNums fileSize outDir).Meets NoIdlePoll
        (collectorLoop n L outLen cpuNums fileSize outDir).init ops) :=
  ⟨Machine.forall_steps_iff _ (I := Polling outLen fileSize outDir) (Q := PollHarmless)
      (fun _ _ _ => Polling.step) (fun _ _ _ => pollHarmless_iff) polling_init h,
    Machine.forall_steps_iff _ (I := Polling outLen fileSize outDir) (Q := IdlePollFree)
      (fun _ _ _ => Polling.step) (fun _ _ _ => idlePollFree_iff) polling_init h⟩

/-- A poll of an empty ring. -/
theorem polls_harmless_iff_once : ∃ t,
    (collectorLoop 1 1 4 1 100 "").exec (collectorLoop 1 1 4 1 100 "").init
      [.createWriter, .loop fun _ _ => 0xFF, .loop fun _ _ => 0xFF] = some t ∧
    (collectorLoop 1 1 4 1 100 "").EveryStep PollHarmless
      [.createWriter, .loop fun _ _ => 0xFF, .loop fun _ _ => 0xFF] := by
  refine ⟨_, rfl, (polls_harmless_iff rfl).1.mpr ?_⟩
  refine .cons _ trivial rfl (.cons _ nofun rfl (.cons _ (fun r _ _ => ?_) rfl trivial))
  exact ⟨_, rfl, by decide, by decide, by decide⟩

/-! ## Polls of an empty ring -/

section Idle

variable (L outLen fileSize : ℕ) [NeZero L] (outDir : String)

/-- A task that has not run yet, with `k` empty buffers in its queue. -/
def idleTask (k : ℕ) : WriterTask where
  fName := getFileName 0 0 outDir "tmp"
  completeName := getCompleteName (getFileName 0 0 outDir "tmp") "tmp"
  rx := List.replicate k []
  txDropped := false
  phase := .spawned
  created := 0
  sent := []

/-- The collector of one CPU, whose task has not run yet, after `k` polls of an empty ring. -/
def idle (k : ℕ) : Setup 1 L Collector where
  capture := (captureMachine 1 L outLen).init
  processor :=
    { wt := [some ⟨0, getFileName 0 0 outDir "tmp", outDir, 0⟩]
      tasks := Function.update (fun _ => []) 0 [idleTask outDir k]
      fs := ⟨∅, fun _ => [], 0, false⟩
      clock := 0
      closed := false
      passed := fun _ => [] }
  panicked := false
  fetched _ := k
  handed _ := k

/-- The same in the middle of the next poll. -/
def idleFetched (k : ℕ) : Setup 1 L Collector :=
  { idle L outLen outDir k with
    capture := { (captureMachine 1 L outLen).init with phase := .handing 0 }
    fetched := fun _ => k + 1 }

/-- The step of the loop with nothing in the ring. -/
def poll {L : ℕ} : CollectorLoopOp 1 L := .loop fun _ _ => 0xFF

/-- With one CPU every turn is its own. -/
theorem countUp_one (k : ℕ) : countUp (fun _ : Fin 1 => k) 0 = fun _ => k + 1 := by
  funext b
  rw [Subsingleton.elim b 0]
  rfl

/-- In the idle run the driver is asked and has nothing. -/
theorem step_idle (k : ℕ) :
    (collectorLoop 1 L outLen 1 fileSize outDir).step (idle L outLen outDir k) poll =
      some (idleFetched L outLen outDir k) := by
  have hiter : (idle L outLen outDir k).capture.iterate =
      some { (captureMachine 1 L outLen).init with phase := .handing 0 } :=
    Capture.iterate_of_not_isValid (s := (captureMachine 1 L outLen).init) rfl Nat.zero_lt_one
      (isValid_blank 0 0)
  refine (collectorLoop_loop rfl rfl _).trans ?_
  show some ((idle L outLen outDir k).next _) = _
  rw [Setup.next_of_iterate (s := idle L outLen outDir k) rfl (by show 0 < maxCpuNum; decide) hiter]
  show some (Setup.mk _ _ _ (countUp (fun _ : Fin 1 => k) 0) _) = _
  rw [countUp_one]
  rfl

/-- An empty buffer goes behind the others. -/
theorem send_idleTask (k : ℕ) :
    (idleTask outDir k).send [] = idleTask outDir (k + 1) := by
  simp only [idleTask, WriterTask.send, List.replicate_succ', List.append_nil]

/-- The processor puts an empty buffer on the queue while there is room. -/
theorem processor_idle {k : ℕ} (hk : k < queueLen) (buff : Bytes) :
    Collector.boundedProcessor fileSize (idle L outLen outDir k).processor 0 buff 0 =
      some ((idle L outLen outDir (k + 1)).processor, true) := by
  have hroom : ((idle L outLen outDir k).processor.current 0).all WriterTask.accepts = true := by
    show (idleTask outDir k).accepts = true
    simp [WriterTask.accepts, idleTask, hk]
  have htasks : ((idle L outLen outDir k).processor.modifyTask 0 0 (·.send [])).tasks =
      (idle L outLen outDir (k + 1)).processor.tasks := by
    show Function.update (Function.update (fun _ => []) 0 [idleTask outDir k]) 0
      [(idleTask outDir k).send []] = _
    rw [send_idleTask, Function.update_idem]
    rfl
  have hpassed : Function.update (fun _ : ℕ => ([] : Bytes)) 0 ([] ++ []) = fun _ => [] :=
    Function.update_eq_self 0 _
  rw [Collector.boundedProcessor, if_pos hroom,
    Collector.processor_eq (s := (idle L outLen outDir k).processor) rfl rfl (Nat.zero_le _),
    if_neg (Nat.not_lt_zero _), Option.map_some]
  show some (Collector.mk _ ((idle L outLen outDir k).processor.modifyTask 0 0 (·.send [])).tasks
    _ _ _ (Function.update (fun _ : ℕ => ([] : Bytes)) 0 ([] ++ [])), true) = _
  rw [htasks, hpassed]
  rfl

/-- The empty buffer is handed out and the loop goes on. -/
theorem step_idleFetched {k : ℕ} (hk : k < queueLen) :
    (collectorLoop 1 L outLen 1 fileSize outDir).step (idleFetched L outLen outDir k) poll =
      some (idle L outLen outDir (k + 1)) := by
  have hprocess : (idleFetched L outLen outDir k).capture.process true =
      some (captureMachine 1 L outLen).init := by
    have hread : Function.update (fun _ : Fin 1 => 0) 0 ((0 + 0) % L) = fun _ => 0 :=
      (congrArg _ (Nat.zero_mod L)).trans (Function.update_eq_self (0 : Fin 1) _)
    have hdelivered : Function.update (fun _ : Fin 1 => ([] : Bytes)) 0 [] = fun _ => [] :=
      Function.update_eq_self (0 : Fin 1) _
    show some (Capture.mk _ (Function.update (fun _ : Fin 1 => 0) 0 ((0 + 0) % L)) _ _ _ _ _
      (Function.update (fun _ : Fin 1 => ([] : Bytes)) 0 [])) = _
    rw [hread, hdelivered]
    rfl
  refine (collectorLoop_loop rfl rfl _).trans ?_
  show some ((idleFetched L outLen outDir k).next _) = _
  rw [Setup.next_of_process (s := idleFetched L outLen outDir k) rfl
    (processor_idle L outLen fileSize outDir hk _) hprocess]
  show some (Setup.mk _ _ _ _ (countUp (fun _ : Fin 1 => k) 0)) = _
  rw [countUp_one]
  rfl

/-- The idle run fills the queue with empty buffers. -/
theorem exec_idle {k : ℕ} (hk : k ≤ queueLen) :
    (collectorLoop 1 L outLen 1 fileSize outDir).exec
      (collectorLoop 1 L outLen 1 fileSize outDir).init
        (.createWriter :: (List.replicate k [poll, poll]).flatten) =
      some (idle L outLen outDir k) := by
  induction k with
  | zero => rfl
  | succ k ih =>
    rw [List.replicate_succ', List.flatten_concat, ← List.cons_append]
    refine (Machine.exec_append _).mpr ⟨_, ih (Nat.le_of_succ_le hk), ?_⟩
    refine (Machine.exec_cons_eq_some _).mpr ⟨_, step_idle L outLen fileSize outDir k, ?_⟩
    exact (Machine.exec_cons_eq_some _).mpr
      ⟨_, step_idleFetched L outLen fileSize outDir hk, Machine.exec_nil _ _⟩

/-- In the idle run nothing waits to be written. -/
theorem waiting_idle (k i : ℕ) :
    (idle L outLen outDir k).processor.waiting i = 0 := by
  cases i with
  | zero =>
    show ((List.replicate k ([] : Bytes)).filter fun d => decide (d ≠ [])).length = 0
    simp
  | succ i => rfl

/-- INTERNAL: **the poll that panics**: 10000 polls of an empty ring before the task of the CPU has
run have filled its queue with empty buffers.
SRC: collector.rs:13-35, file_writer/mod.rs:14, 51-53 -/
theorem exists_not_pollHarmless :
    ∃ ops t, (collectorLoop 1 L outLen 1 fileSize outDir).exec
        (collectorLoop 1 L outLen 1 fileSize outDir).init ops = some t ∧
      ¬ (collectorLoop 1 L outLen 1 fileSize outDir).EveryStep PollHarmless ops := by
  have hbefore : (collectorLoop 1 L outLen 1 fileSize outDir).exec
      (collectorLoop 1 L outLen 1 fileSize outDir).init
        (.createWriter :: (List.replicate queueLen [poll, poll]).flatten ++ [poll]) =
      some (idleFetched L outLen outDir queueLen) :=
    (Machine.exec_append _).mpr ⟨_, exec_idle L outLen fileSize outDir le_rfl,
      (Machine.exec_cons_eq_some _).mpr ⟨_, step_idle L outLen fileSize outDir queueLen, rfl⟩⟩
  obtain ⟨t, hstep⟩ : ∃ t, (collectorLoop 1 L outLen 1 fileSize outDir).step
      (idleFetched L outLen outDir queueLen) poll = some t := ⟨_, collectorLoop_loop rfl rfl _⟩
  refine ⟨_, t, (Machine.exec_append _).mpr ⟨_, hbefore,
    (Machine.exec_cons_eq_some _).mpr ⟨t, hstep, Machine.exec_nil _ _⟩⟩, fun hall => ?_⟩
  have hroom := (pollHarmless_iff (collectorLoop_polling ⟨_, hbefore⟩) hstep).mp
    (hall _ _ _ _ _ rfl hbefore hstep)
  have hlimit : (idleFetched L outLen outDir queueLen).processor.WithinLimit 0 0 := by
    intro i
    have hzero : (idleFetched L outLen outDir queueLen).processor.waiting i = 0 :=
      waiting_idle L outLen outDir queueLen i
    rw [hzero, if_neg fun h => absurd h.2 (Nat.lt_irrefl 0)]
    exact Nat.zero_le _
  obtain ⟨task, htask, -, -, hlt⟩ := hroom 0 rfl hlimit
  obtain rfl : idleTask outDir queueLen = task := Option.some.inj htask
  rw [idleTask, List.length_replicate] at hlt
  exact Nat.lt_irrefl _ hlt

end Idle

/-- MAIN: not every run is without harm: idle polls alone can fill a queue.
SRC: collector.rs:18, file_writer/mod.rs:14, 51-53 -/
theorem idle_polls_panic : ¬ ∀ (n L cpuNums fileSize : ℕ) [NeZero L] (outDir : String)
    (ops : List (CollectorLoopOp n L)) (t : Setup n L Collector),
    (collectorLoop n L (1024 * 800) cpuNums fileSize outDir).exec
      (collectorLoop n L (1024 * 800) cpuNums fileSize outDir).init ops = some t →
    (collectorLoop n L (1024 * 800) cpuNums fileSize outDir).EveryStep PollHarmless ops := by
  intro hall
  obtain ⟨ops, t, hexec, hpanic⟩ := exists_not_pollHarmless 1 (1024 * 800) 0 ""
  exact hpanic (hall 1 1 1 0 "" ops t hexec)

end PtkGenerator

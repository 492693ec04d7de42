import PtkGenerator.Analysis.OnlineRun
import PtkGenerator.Analysis.SweepStop

/-!
# `online_proc` ends after Ctrl-C

From Ctrl-C on every answer of the processor is `false`, so the loop returns after this sweep or the
next one, and each of its calls fetches no more than the output buffer holds.  The threads have so
much left to do (`Pipeline.work`) and what is still fetched adds to that no more than the loop loses
by it.  So the steps that `online_proc` can take are bounded, whatever the driver goes on writing,
and as none of its threads is ever stuck it comes to the end of `wait_for_complete`.
-/

set_option autoImplicit false

namespace PtkGenerator

variable {n L outLen : ℕ} [NeZero L] {split : Bytes → List ℕ} {yields : Bytes → List Usize}

namespace Capture

/-- The calls of `fetch_data` behind the current one, when all answers are `false`. -/
def later (s : Capture n L) : ℕ := if s.LastSweep then n - 1 - s.i else 2 * n - 1 - s.i

/-- What the loop may still do when all answers are `false`: for each call its iterations, and what
its bytes are worth to the splitters. -/
def work (outLen : ℕ) (s : Capture n L) : ℕ :=
  match s.phase with
  | .returned => 0
  | phase => s.later * (5 * outLen + 3) + phase.left outLen + (4 * outLen + 2)

omit [NeZero L] in
/-- Before its return the capture has so many steps left. -/
theorem work_of_ne {s : Capture n L} (h : s.phase ≠ .returned) (outLen : ℕ) :
    s.work outLen = s.later * (5 * outLen + 3) + s.phase.left outLen + (4 * outLen + 2) := by
  rw [work]
  split
  · next hphase => exact absurd hphase h
  · rfl

/-- A byte that the driver writes adds no step. -/
theorem work_write {s t : Capture n L} {b : Fin n} {x : UInt8} (h : s.write b x = some t)
    (outLen : ℕ) : t.work outLen = s.work outLen := by
  obtain ⟨-, rfl⟩ := write_cases h
  rfl

omit [NeZero L] in
/-- A phase that has less left leaves the capture less. -/
theorem work_lt_of_left {s t : Capture n L} {outLen : ℕ} (hs : s.phase ≠ .returned)
    (ht : t.phase ≠ .returned) (hi : t.i = s.i) (hf : t.flags = s.flags)
    (hleft : t.phase.left outLen < s.phase.left outLen) : t.work outLen < s.work outLen := by
  have hlast : t.LastSweep ↔ s.LastSweep := by rw [LastSweep, hi, hf]; rfl
  have hlater : t.later = s.later := by simp only [later, hi, hlast]
  rw [work_of_ne hs, work_of_ne ht, hlater]
  omega

/-- An iteration of `fetch_data` is one less to do. -/
theorem work_iterate {s t : Capture n L} (hinv : s.Inv) (h : s.iterate = some t) :
    t.work s.tmpBuff.length < s.work s.tmpBuff.length := by
  have hle := hinv.copied_le
  obtain ⟨k, hi, hphase, ⟨hk, -, rfl⟩ | ⟨-, rfl⟩⟩ := iterate_cases h
  · refine work_lt_of_left (by simp [hphase]) (by simp) rfl rfl ?_
    rw [hphase, Phase.left, Phase.left]
    omega
  · refine work_lt_of_left (by simp [hphase]) (by simp) rfl rfl ?_
    rw [hphase, Phase.copied] at hle
    rw [hphase, Phase.left, Phase.left]
    omega

omit [NeZero L] in
/-- The answer `false` leaves the last sweep the last one. -/
theorem LastSweep.next {s : Capture n L} (h : s.LastSweep) (hi : s.i < n) (r : ℕ) :
    ({ s.handOn ⟨s.i, hi⟩ r false with
      i := s.i + 1, phase := .fetching 0 } : Capture n L).LastSweep := by
  intro j hj
  show (s.handOn ⟨s.i, hi⟩ r false).flags j = true
  rw [flags_handOn]
  split
  · rfl
  · next hne =>
    have hj' : j.val < s.i + 1 := hj
    exact h j (by omega)

omit [NeZero L] in
/-- The answer `false` is worth more than what the processor was given. -/
theorem work_process {s t : Capture n L} {outLen : ℕ} (hdown : s.FlagsDown)
    (h : s.process false = some t) : t.work outLen + (4 * outLen + 1) < s.work outLen := by
  obtain ⟨r, hi, hphase, hle, hcases⟩ := process_false hdown h
  have hs : s.work outLen = s.later * (5 * outLen + 3) + (4 * outLen + 2) := by
    rw [work_of_ne (by simp [hphase]), hphase, Phase.left, Nat.add_zero]
  have hcall : ∀ u : Capture n L, u.phase = .fetching 0 → u.later + 1 ≤ s.later →
      u.work outLen + (4 * outLen + 1) < s.work outLen := by
    intro u hu hlater
    have hmul := Nat.mul_le_mul_right (5 * outLen + 3) hlater
    rw [hs, work_of_ne (by simp [hu]), hu, Phase.left]
    rw [Nat.add_mul, Nat.one_mul] at hmul
    omega
  rcases hcases with ⟨hn, hlast, rfl⟩ | ⟨hn, hlast, rfl⟩ | ⟨hn, rfl⟩
  · -- the loop returns
    have ht : ({ s.handOn ⟨s.i, hi⟩ r false with phase := .returned } : Capture n L).work
        outLen = 0 := rfl
    omega
  · -- the sweep that follows is the last one
    refine hcall _ rfl ?_
    have hnew : ({ s.handOn ⟨s.i, hi⟩ r false with
        i := 0, flags := fun _ => false, phase := .fetching 0 } : Capture n L).LastSweep :=
      fun j hj => absurd hj (Nat.not_lt_zero _)
    rw [later, later, if_pos hnew, if_neg hlast]
    omega
  · -- the next buffer of the sweep
    refine hcall _ rfl ?_
    rw [later, later]
    by_cases hlast : s.LastSweep
    · rw [if_pos hlast, if_pos (hlast.next hi r)]
      dsimp only
      omega
    · rw [if_neg hlast]
      dsimp only
      split
      · omega
      · omega

end Capture

/-- What `online_proc` may still do after Ctrl-C. -/
def Setup.work (outLen : ℕ) (s : Setup n L (Online n)) : ℕ :=
  s.capture.work outLen + s.processor.pipeline.work

/-- The steps of `online_proc`: neither those of the driver nor the handler of Ctrl-C. -/
def ProgramOp.own : ProgramOp n (OnlineOp n) → Bool
  | .write _ _ => false
  | .loop => true
  | .beside .ctrlC => false
  | .beside (.thread _) => true

/-- In every reachable capture the flags of the buffers still to come are down. -/
theorem captureProgram_flagsDown {P β : Type} {processor : Processor P} {begun : P → Bool}
    {beside : Setup n L P → β → Option P} {p : P} {s : Setup n L P}
    (hs : (captureProgram n L outLen processor begun beside p).Reachable s) :
    s.capture.FlagsDown :=
  Capture.captureMachine_flagsDown
    ((captureProgram_mapsTo n L outLen processor begun beside p).reachable hs)

/-- Nothing takes Ctrl-C back. -/
theorem gStop_step {s t : Setup n L (Online n)} {op : ProgramOp n (OnlineOp n)}
    (hstop : s.processor.gStop = true)
    (hstep : (onlineProgram n L outLen split yields).step s op = some t) :
    t.processor.gStop = true := by
  cases op with
  | write b x =>
    obtain ⟨c, -, rfl⟩ := Option.map_eq_some_iff.mp hstep
    exact hstop
  | loop =>
    obtain ⟨-, hnext⟩ := Option.ite_none_right_eq_some.mp hstep
    obtain rfl := Option.some.inj hnext
    obtain hsame | hpanic | ⟨c, -, hnext⟩ | ⟨r, p, answer, c, -, hp, -, hnext⟩ :=
      Setup.next_cases (onlineProcessor n) s
    · rw [hsame]
      exact hstop
    · rw [hpanic]
      exact hstop
    · rw [hnext]
      exact hstop
    · obtain ⟨_, pipeline, -, rfl, -⟩ := onlineProcessor_eq_some hp
      rw [hnext]
      exact hstop
  | beside op =>
    obtain ⟨p, hp, rfl⟩ := Option.map_eq_some_iff.mp hstep
    rcases onlineBeside_cases hp with
      ⟨-, rfl⟩ | ⟨o, pipeline, -, -, -, -, rfl⟩ | ⟨i, -, rfl⟩ | ⟨i, -, rfl⟩
    · rfl
    · exact hstop
    · exact hstop
    · exact hstop

/-- INTERNAL: **a step of the loop brings the end nearer**, also when it feeds a splitter.
SRC: online_proc.rs:99-113, pt_ctrl/mod.rs:284-308, 334-352 -/
theorem work_loop (hmax : n ≤ maxCpuNum) (h2 : 2 ≤ n) {s t : Setup n L (Online n)}
    (hs : (onlineProgram n L outLen split yields).Reachable s)
    (hstop : s.processor.gStop = true)
    (hstep : (onlineProgram n L outLen split yields).step s .loop = some t) :
    t.work outLen < s.work outLen := by
  obtain ⟨⟨-, hrunning⟩, hnext⟩ := Option.ite_none_right_eq_some.mp hstep
  obtain rfl := Option.some.inj hnext
  rw [Setup.running, Bool.and_eq_true, decide_eq_true_eq] at hrunning
  have hok := onlineProgram_ok h2 hmax hs
  obtain ⟨hinv, hlen⟩ := captureProgram_inv hs
  obtain ⟨c, fetched, hc, hnext⟩ | ⟨r, pipeline, c, handed, -, hp, hc, hnext⟩ :=
    onlineLoop_cases hmax hok hinv hrunning.2
  · have hlt := Capture.work_iterate hinv hc
    rw [hlen] at hlt
    rw [hnext]
    exact Nat.add_lt_add_right hlt _
  · rw [hstop, Bool.not_true] at hc
    have hlt : c.work outLen + (4 * outLen + 1) < s.capture.work outLen :=
      Capture.work_process (captureProgram_flagsDown hs) hc
    have hfed := Pipeline.work_processor
      (show (pipelineMachine n split yields).step _ (.processor _ _) = some pipeline from hp)
    have htake : (s.capture.tmpBuff.take r).length ≤ outLen := by
      rw [List.length_take, hlen]
      exact Nat.min_le_right _ _
    rw [hnext]
    simp only [Setup.work, Online.withPipeline]
    omega

/-- A step that is not `online_proc`'s own leaves it what it has to do. -/
theorem work_other {s t : Setup n L (Online n)} {op : ProgramOp n (OnlineOp n)}
    (hop : op.own = false) (hstep : (onlineProgram n L outLen split yields).step s op = some t) :
    t.work outLen = s.work outLen := by
  cases op with
  | write b x =>
    obtain ⟨c, hc, rfl⟩ := Option.map_eq_some_iff.mp hstep
    rw [Setup.work, Capture.work_write hc]
    rfl
  | loop => cases hop
  | beside op =>
    obtain ⟨p, hp, rfl⟩ := Option.map_eq_some_iff.mp hstep
    rcases onlineBeside_cases hp with
      ⟨-, rfl⟩ | ⟨o, pipeline, rfl, -⟩ | ⟨i, -, rfl⟩ | ⟨i, -, rfl⟩
    · rfl
    · cases hop
    · rfl
    · rfl

/-- INTERNAL: **each step of `online_proc` brings the end nearer.**
SRC: online_proc.rs:38-113, 207-241, pt_ctrl/mod.rs:284-308, 334-352 -/
theorem work_own (hsplit : SplitOffsets split) (h2 : 2 ≤ n) (hmax : n ≤ maxCpuNum)
    {s t : Setup n L (Online n)} (hs : (onlineProgram n L outLen split yields).Reachable s)
    (hstop : s.processor.gStop = true) {op : ProgramOp n (OnlineOp n)} (hop : op.own = true)
    (hstep : (onlineProgram n L outLen split yields).step s op = some t) :
    t.work outLen < s.work outLen := by
  cases op with
  | write b x => cases hop
  | loop => exact work_loop hmax h2 hs hstop hstep
  | beside op =>
    obtain ⟨p, hp, rfl⟩ := Option.map_eq_some_iff.mp hstep
    have hok := onlineProgram_ok h2 hmax hs
    rcases onlineBeside_cases hp with
      ⟨rfl, -⟩ | ⟨o, pipeline, -, ho, -, hpipe, rfl⟩ | ⟨i, hone, -⟩ | ⟨i, hcrashed, -⟩
    · cases hop
    · have hlt := Pipeline.work_lt hsplit (Pipeline.noEmptyChunk hsplit
        ((onlineProgram_mapsTo n L outLen split yields).reachable hs)) ho hpipe
      exact Nat.add_lt_add_left hlt _
    · omega
    · rw [hok.crashed] at hcrashed
      cases hcrashed

omit [NeZero L] in
/-- INTERNAL: where nobody has panicked the threads take their steps as the pipeline does. -/
theorem onlineBeside_thread (h2 : 2 ≤ n) {s : Setup n L (Online n)} (hok : OnlineOk s)
    {op : PipelineOp n} (hop : op.BehindCapture) :
    onlineBeside split yields s (.thread op) =
      ((pipelineMachine n split yields).step s.processor.pipeline op).map
        s.processor.withPipeline := by
  have hsound : ¬ (s.panicked = true ∨ s.processor.panicked = true) := by
    rw [hok.panicked, hok.joined]
    simp
  have hcrashed : ∀ i, ¬ s.processor.crashed i = true := by
    intro i
    rw [hok.crashed]
    simp
  simp only [onlineBeside, if_neg hsound]
  cases op with
  | processor i d => exact hop.elim
  | stop => exact hop.elim
  | joinSpliter =>
    have hjoins : ¬ s.processor.joinsCrashed = true := by
      unfold Online.joinsCrashed
      split
      · split
        · rw [hok.crashed]
          simp
        · simp
      · simp
    simp only [Online.joinSpliter, if_neg hjoins]
    rfl
  | spliterRecv i =>
    simp only [if_neg (hcrashed i)]
    rfl
  | spliterSend i =>
    simp only [Online.spliterSend]
    rw [if_neg (hcrashed i), if_pos (by omega)]
    rfl
  | spliterEnd i =>
    simp only [if_neg (hcrashed i)]
    rfl
  | _ => rfl

/-- INTERNAL: **`online_proc` is never stuck.**
SRC: online_proc.rs:207-241, 302-395 -/
theorem exists_own_step (hsplit : SplitOffsets split) (h2 : 2 ≤ n) (hmax : n ≤ maxCpuNum)
    {s : Setup n L (Online n)} (hs : (onlineProgram n L outLen split yields).Reachable s)
    (hdone : s.processor.pipeline.main ≠ .completed) :
    ∃ op, ProgramOp.own op = true ∧
      ((onlineProgram n L outLen split yields).step s op).isSome := by
  have hok := onlineProgram_ok h2 hmax hs
  by_cases hret : s.capture.phase = .returned
  · by_cases hm : s.processor.pipeline.main = .collecting
    · refine ⟨.beside (.thread .stop), rfl, ?_⟩
      have hsound : ¬ (s.panicked = true ∨ s.processor.panicked = true) := by
        rw [hok.panicked, hok.joined]
        simp
      simp only [onlineProgram, captureProgram, onlineBeside, Option.isSome_map]
      rw [if_neg hsound, if_pos hret, Option.isSome_map, Pipeline.stop, if_pos hm]
      rfl
    · obtain ⟨op, hop, hstep⟩ : ∃ op : PipelineOp n, op.BehindCapture ∧
          ((pipelineMachine n split yields).step s.processor.pipeline op).isSome :=
        Pipeline.exists_step hsplit
          ((onlineProgram_mapsTo n L outLen split yields).reachable hs) hm hdone
      refine ⟨.beside (.thread op), rfl, ?_⟩
      simp only [onlineProgram, captureProgram, onlineBeside_thread h2 hok hop, Option.isSome_map]
      exact hstep
  · refine ⟨.loop, rfl, ?_⟩
    have hrunning : s.running = true := by
      rw [Setup.running, hok.panicked, Bool.not_false, Bool.true_and, decide_eq_true_eq]
      exact hret
    simp only [onlineProgram, captureProgram]
    rw [if_pos ⟨trivial, hrunning⟩]
    rfl

/-- MAIN: **`online_proc` ends after Ctrl-C, whatever the driver writes and the scheduler does.**
With at least two CPUs and no more than the answer of the driver has room for: from any state in
which Ctrl-C was pressed the loop, the threads and `main` take no more than so many steps together,
in every run; and until `wait_for_complete` has returned one of them can take a step.
SRC: online_proc.rs:38-113, 207-241, 302-395, pt_ctrl/mod.rs:284-354 -/
theorem online_ends_after_ctrlC (hsplit : SplitOffsets split) (h2 : 2 ≤ n) (hmax : n ≤ maxCpuNum)
    {s : Setup n L (Online n)} (hs : (onlineProgram n L outLen split yields).Reachable s)
    (hstop : s.processor.gStop = true) {ops : List (ProgramOp n (OnlineOp n))}
    {t : Setup n L (Online n)}
    (ht : (onlineProgram n L outLen split yields).exec s ops = some t) :
    ops.countP ProgramOp.own ≤ s.work outLen ∧
      (t.processor.pipeline.main ≠ .completed → ∃ op, ProgramOp.own op = true ∧
        ((onlineProgram n L outLen split yields).step t op).isSome) := by
  refine ⟨?_, exists_own_step hsplit h2 hmax (hs.exec _ ht)⟩
  refine (Nat.le_add_right _ (t.work outLen)).trans ?_
  refine Machine.countP_add_le _ (I := fun s : Setup n L (Online n) =>
    (onlineProgram n L outLen split yields).Reachable s ∧ s.processor.gStop = true)
    ?_ ?_ ?_ ⟨hs, hstop⟩ ht
  · rintro s op t ⟨hs, hstop⟩ hstep
    exact ⟨hs.step _ hstep, gStop_step hstop hstep⟩
  · rintro s op t ⟨hs, hstop⟩ hop hstep
    exact work_own hsplit h2 hmax hs hstop hop hstep
  · rintro s op t - hop hstep
    exact (work_other hop hstep).le

/-- The first stream is fetched, Ctrl-C is pressed, and the splitter has its buffer, with a chunk
that it is to send. -/
def ctrlCFirst : List (ProgramOp 2 (OnlineOp 2)) :=
  writes 0 (psbPlus ++ [0x06] ++ psbPlus) ++ List.replicate 39 .loop ++
    [.beside (.thread (.spliterRecv 0)), .beside .ctrlC]

/-- Ctrl-C is pressed with one chunk in the splitter; `main` and the threads take 1129 steps at
most. -/
theorem online_ends_after_ctrlC_oneChunk :
    ∃ s, (onlineProgram 2 64 64 psbSplit fun _ => [0x401000]).exec
        (onlineProgram 2 64 64 psbSplit fun _ => [0x401000]).init ctrlCFirst = some s ∧
      (s.processor.pipeline.spliters 0).outgoing = [psbPlus ++ [0x06]] ∧
      ∀ ops t, (onlineProgram 2 64 64 psbSplit fun _ => [0x401000]).exec s ops = some t →
        ops.countP ProgramOp.own ≤ 1129 := by
  have hrun : ((onlineProgram 2 64 64 psbSplit fun _ => [0x401000]).exec
      (onlineProgram 2 64 64 psbSplit fun _ => [0x401000]).init ctrlCFirst).map (fun s =>
        ((s.processor.pipeline.spliters 0).outgoing, s.processor.gStop, s.work 64)) =
      some ([psbPlus ++ [0x06]], true, 1129) := by decide +kernel
  obtain ⟨s, hs, hfacts⟩ := Option.map_eq_some_iff.mp hrun
  obtain ⟨hout, hfacts⟩ := Prod.mk.inj hfacts
  obtain ⟨hstop, hwork⟩ := Prod.mk.inj hfacts
  refine ⟨s, hs, hout, fun ops t ht => ?_⟩
  have h := (online_ends_after_ctrlC psbSplit_spec.toSplitOffsets (by decide) (by decide) ⟨_, hs⟩
    hstop ht).1
  rwa [hwork] at h

end PtkGenerator

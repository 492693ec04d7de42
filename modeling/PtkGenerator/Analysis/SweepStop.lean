import PtkGenerator.Analysis.StopDrain
import PtkGenerator.Model.SetupLoop

/-!
# Which call of the processor is the last

The flags are made anew for each sweep, so in the middle of a sweep they say which buffers were
answered with `false` in it, and nothing of the sweeps before (`InSweep`).  The loop returns behind
the last call of the first sweep with no other answers, whatever the driver does: `steps_left`
bounds the steps up to there.

The array of the addresses has `MAX_CPU_NUM` entries.  With more buffers than that the loop comes
to the end of no sweep.
-/

set_option autoImplicit false

namespace PtkGenerator

variable {n L outLen : ℕ}

/-- The processor whose `k`-th answer is `answers k`; its state is the number of the calls. -/
def answering (answers : ℕ → Bool) : Processor ℕ := fun calls _ _ _ =>
  some (calls + 1, answers calls)

/-- Every answer in the sweep `m` is `false`. -/
def AllFalse (n : ℕ) (answers : ℕ → Bool) (m : ℕ) : Prop := ∀ i < n, answers (n * m + i) = false

/-- Whether a sweep has no other answer than `false` is decided by its answers. -/
instance (n : ℕ) (answers : ℕ → Bool) (m : ℕ) : Decidable (AllFalse n answers m) :=
  inferInstanceAs (Decidable (∀ i < n, answers (n * m + i) = false))

/-- A buffer that is being fetched was not handed out in this turn. -/
@[simp] theorem Phase.ended_fetching (k : ℕ) : (Phase.fetching k).ended = 0 := rfl

/-- A buffer that is handed out counts in this turn. -/
@[simp] theorem Phase.ended_handing (r : ℕ) : (Phase.handing r).ended = 1 := rfl

/-- The loop runs as long as it has neither panicked nor returned. -/
theorem Setup.running_iff {P : Type} {s : Setup n L P} :
    s.running = true ↔ s.panicked = false ∧ s.capture.phase ≠ .returned := by
  rw [running, Bool.and_eq_true, Bool.not_eq_true', decide_eq_true_iff]

/-- The driver goes on only while the loop runs. -/
theorem drivenBy_eq_some {P : Type} {driver : ℕ → Rings n L → Rings n L} {time time' : ℕ}
    {s : Setup n L P} {buffs : Rings n L} (h : drivenBy driver time s = some (buffs, time')) :
    s.running = true := by
  rw [drivenBy, Option.ite_none_right_eq_some] at h
  exact h.1

/-- A run with its driver has ended when the loop has. -/
theorem ended_drivenBy {P : Type} {driver : ℕ → Rings n L → Rings n L}
    {x : Machine.Driven (Setup n L P) (Rings n L) ℕ} :
    Machine.Ended (drivenBy driver) x ↔ x.state.running = false := by
  rw [Machine.Ended, drivenBy, ite_eq_right_iff, ← Bool.not_eq_true]
  constructor
  · intro h hrun
    cases h hrun
  · intro h hrun
    exact absurd hrun h

/-- The loop is in the sweep `m`. -/
structure InSweep (answers : ℕ → Bool) (m : ℕ) (s : Setup n L ℕ) : Prop where
  phase : s.capture.phase ≠ .returned
  i_lt : s.capture.i < n
  calls : s.processor = n * m + s.capture.i
  flags : ∀ j : Fin n, s.capture.flags j = true ↔
    j.val < s.capture.i ∧ answers (n * m + j) = false
  handed : ∀ b : Fin n, s.handed b = m + if b.val < s.capture.i then 1 else 0
  fetched : ∀ b : Fin n, s.fetched b =
    s.handed b + if s.capture.i = b.val then s.capture.phase.ended else 0
  looked : s.capture.phase.ended = 1 → s.capture.i < maxCpuNum
  panicked : s.panicked = true → maxCpuNum ≤ s.capture.i

/-- The loop has returned behind the sweep `m`. -/
structure Stopped (answers : ℕ → Bool) (m : ℕ) (s : Setup n L ℕ) : Prop where
  returned : s.Returned
  refused : AllFalse n answers m
  looked : n ≤ maxCpuNum
  calls : s.processor = n * (m + 1)
  counts : ∀ b, s.fetched b = m + 1 ∧ s.handed b = m + 1

/-- The sweeps that came to their end each had an answer `true`, but for the one behind which the
loop returned. -/
def Sweeping (answers : ℕ → Bool) (s : Setup n L ℕ) : Prop :=
  ∃ m, (∀ m' < m, ¬ AllFalse n answers m') ∧ (InSweep answers m s ∨ Stopped answers m s)

namespace InSweep

variable {answers : ℕ → Bool} {m : ℕ} {s : Setup n L ℕ}

/-- The flags to come are down in the middle of a sweep. -/
theorem flagsDown (h : InSweep answers m s) : s.capture.FlagsDown := by
  intro _ j hj
  rw [← Bool.not_eq_true, h.flags]
  omega

/-- The sweep is the last one so far if its answers were `false`. -/
theorem lastSweep_iff (h : InSweep answers m s) :
    s.capture.LastSweep ↔ ∀ i < s.capture.i, answers (n * m + i) = false := by
  constructor
  · intro hlast i hi
    exact ((h.flags ⟨i, hi.trans h.i_lt⟩).mp (hlast _ hi)).2
  · exact fun hall j hj => (h.flags j).mpr ⟨hj, hall j hj⟩

/-- The driver does not change the place in the sweep. -/
theorem withRings (h : InSweep answers m s) (buffs : Rings n L) :
    InSweep answers m (s.withRings buffs) :=
  ⟨h.phase, h.i_lt, h.calls, h.flags, h.handed, h.fetched, h.looked, h.panicked⟩

/-- The answers of a sweep up to its last one. -/
theorem allFalse_iff (h : InSweep answers m s) (hn : s.capture.i + 1 = n) :
    AllFalse n answers m ↔ answers s.processor = false ∧ s.capture.LastSweep := by
  rw [h.lastSweep_iff, h.calls]
  constructor
  · exact fun hall => ⟨hall _ h.i_lt, fun i hi => hall i (hi.trans h.i_lt)⟩
  · rintro ⟨hlast, hall⟩ i hi
    rcases Nat.lt_or_ge i s.capture.i with hlt | hge
    · exact hall i hlt
    · obtain rfl : i = s.capture.i := by omega
      exact hlast

/-- The flags behind the call of the processor for a buffer. -/
theorem flags_call (h : InSweep answers m s) (r : ℕ) (j : Fin n) :
    (s.capture.handOn ⟨s.capture.i, h.i_lt⟩ r (answers s.processor)).flags j = true ↔
      j.val < s.capture.i + 1 ∧ answers (n * m + j) = false := by
  have hflags := h.flags j
  by_cases hj : j = ⟨s.capture.i, h.i_lt⟩
  · subst hj
    rw [h.calls, Capture.handOn]
    cases hanswer : answers (n * m + s.capture.i) with
    | true => simpa [hanswer] using hflags
    | false => simp
  · have hne : j.val ≠ s.capture.i := fun e => hj (Fin.ext e)
    have hsame : (s.capture.handOn ⟨s.capture.i, h.i_lt⟩ r (answers s.processor)).flags j =
        s.capture.flags j := by
      simp only [Capture.handOn]
      split
      · rfl
      · exact Function.update_of_ne hj _ _
    rw [hsame, hflags, Nat.lt_succ_iff_lt_or_eq, or_iff_left hne]

/-- Behind a call each buffer was handed out in each sweep before, and in this one up to the
current. -/
theorem handed_call (h : InSweep answers m s) (b : Fin n) :
    countUp s.handed s.capture.i b = m + if b.val < s.capture.i + 1 then 1 else 0 := by
  rw [countUp, h.handed]
  split_ifs <;> omega

/-- The buffer that is handed out was fetched in this turn. -/
theorem fetched_call (h : InSweep answers m s) {r : ℕ} (hphase : s.capture.phase = .handing r)
    (b : Fin n) : s.fetched b = countUp s.handed s.capture.i b := by
  rw [h.fetched, hphase, Phase.ended_handing, countUp]

/-- A call goes on in the sweep, begins the next one, or is the last. -/
theorem call (h : InSweep answers m s) (hpan : s.panicked = false) {r : ℕ}
    (hphase : s.capture.phase = .handing r) :
    InSweep answers m (s.call (answering answers) r) ∨
      (¬ AllFalse n answers m ∧ InSweep answers (m + 1) (s.call (answering answers) r)) ∨
      Stopped answers m (s.call (answering answers) r) := by
  have hmax : s.capture.i < maxCpuNum := h.looked (by rw [hphase, Phase.ended_handing])
  have hpan' : ∀ i, s.panicked = true → maxCpuNum ≤ i := by
    intro i hup
    rw [hpan] at hup
    cases hup
  have hi := h.i_lt
  have hn : (s.capture.handOn ⟨s.capture.i, hi⟩ r (answers s.processor)).i = s.capture.i := rfl
  simp only [Setup.call, answering, Capture.process_eq h.flagsDown hphase hi]
  rcases Nat.lt_or_ge (s.capture.i + 1) n with hlt | hge
  · -- the next buffer of the sweep
    rw [if_neg (by omega), Capture.nextBuffer, hn, if_pos hlt]
    refine .inl ⟨by simp, hlt, ?_, h.flags_call r, h.handed_call, fun b => ?_, by simp, hpan' _⟩
    · exact congrArg (· + 1) h.calls
    · rw [Phase.ended_fetching, ite_self]
      exact h.fetched_call hphase b
  · have hend : s.capture.i + 1 = n := by omega
    have hcounts : ∀ b : Fin n, countUp s.handed s.capture.i b = m + 1 := by
      intro b
      rw [h.handed_call, if_pos (by have := b.isLt; omega)]
    have hcalls : s.processor + 1 = n * (m + 1) := by
      rw [h.calls, Nat.mul_succ]
      omega
    by_cases hall : AllFalse n answers m
    · obtain ⟨hanswer, hlast⟩ := (h.allFalse_iff hend).mp hall
      rw [if_pos ⟨hanswer, hend, hlast⟩]
      refine .inr (.inr ⟨⟨hpan, rfl⟩, hall, by omega, hcalls, fun b => ⟨?_, hcounts b⟩⟩)
      exact (h.fetched_call hphase b).trans (hcounts b)
    · -- a new sweep begins
      have hnot : ¬ (answers s.processor = false ∧ s.capture.i + 1 = n ∧ s.capture.LastSweep) :=
        fun hret => hall ((h.allFalse_iff hend).mpr ⟨hret.1, hret.2.2⟩)
      rw [if_neg hnot, Capture.nextBuffer, hn, if_neg (by omega)]
      refine .inr (.inl ⟨hall, by simp, by simp only; omega, hcalls, ?_, fun b => hcounts b, ?_,
        by simp, hpan' _⟩)
      · simp
      · intro b
        rw [Phase.ended_fetching, ite_self]
        exact h.fetched_call hphase b

/-- Before the first sweep with no other answers than `false` comes to its end, there are fewer
calls than it ends with. -/
theorem calls_lt (h : InSweep answers m s) (hbefore : ∀ j < m, ¬ AllFalse n answers j) {m' : ℕ}
    (hall : AllFalse n answers m') : s.processor < n * (m' + 1) := by
  have hle : m ≤ m' := by
    by_contra hlt
    exact hbefore m' (not_le.mp hlt) hall
  have hi := h.i_lt
  calc s.processor = n * m + s.capture.i := h.calls
    _ < n * m + n := Nat.add_lt_add_left hi _
    _ = n * (m + 1) := rfl
    _ ≤ n * (m' + 1) := Nat.mul_le_mul_left n (Nat.succ_le_succ hle)

variable [NeZero L]

/-- The fetch goes on in the sweep. -/
theorem fetch (h : InSweep answers m s) {k : ℕ} (hphase : s.capture.phase = .fetching k) :
    InSweep answers m s.fetch := by
  rw [Setup.fetch]
  split
  · next hmax =>
    split
    · next c hc =>
      obtain ⟨k', hi, -, ⟨-, -, rfl⟩ | ⟨-, rfl⟩⟩ := Capture.iterate_cases hc
      · refine ⟨by simp, h.i_lt, h.calls, h.flags, h.handed, fun b => ?_, by simp, h.panicked⟩
        have hb := h.fetched b
        rw [hphase, Phase.ended_fetching] at hb
        exact hb
      · refine ⟨by simp, h.i_lt, h.calls, h.flags, h.handed, fun b => ?_, fun _ => hmax,
          h.panicked⟩
        have hb := h.fetched b
        rw [hphase, Phase.ended_fetching, ite_self, Nat.add_zero] at hb
        dsimp only
        rw [if_pos (Phase.ended_handing k'), countUp, hb, Phase.ended_handing]
    · exact h
  · next hmax =>
    exact ⟨h.phase, h.i_lt, h.calls, h.flags, h.handed, h.fetched, h.looked,
      fun _ => not_lt.mp hmax⟩

end InSweep

/-! ## Every run -/

namespace Setup

variable {P : Type} [NeZero L]

/-- The output buffer has its length, the bytes copied are within it, and the loop is at one of
its buffers. -/
structure Fits (outLen : ℕ) (s : Setup n L P) : Prop where
  length : s.capture.tmpBuff.length = outLen
  copied_le : s.capture.phase.copied ≤ outLen
  i_lt : s.capture.i < n ∨ s.capture.phase = .fetching 0

omit [NeZero L] in
/-- The driver keeps the lengths. -/
theorem Fits.withRings {s : Setup n L P} (h : s.Fits outLen) (buffs : Rings n L) :
    (s.withRings buffs).Fits outLen :=
  ⟨h.length, h.copied_le, h.i_lt⟩

omit [NeZero L] in
/-- The buffer that is handed out is one of the buffers, and `tmp_buff` holds what was fetched. -/
theorem Fits.handing {s : Setup n L P} (h : s.Fits outLen) {r : ℕ}
    (hphase : s.capture.phase = .handing r) : s.capture.i < n ∧ r ≤ s.capture.tmpBuff.length := by
  have hle := h.copied_le
  rw [hphase, Phase.copied, ← h.length] at hle
  exact ⟨h.i_lt.resolve_right (by rw [hphase]; exact nofun), hle⟩

/-- A round of the loop keeps the lengths. -/
theorem Fits.next {s : Setup n L P} (h : s.Fits outLen) (processor : Processor P) :
    (s.next processor).Fits outLen := by
  obtain hsame | hpanic | ⟨c, hc, hnext⟩ | ⟨-, p, answer, c, -, -, hc, hnext⟩ :=
    Setup.next_cases processor s
  · rw [hsame]
    exact h
  · rw [hpanic]
    exact ⟨h.length, h.copied_le, h.i_lt⟩
  · rw [hnext]
    obtain ⟨k, hi, hphase, ⟨hk, -, rfl⟩ | ⟨-, rfl⟩⟩ := Capture.iterate_cases hc
    · refine ⟨?_, ?_, .inl hi⟩
      · simp only [List.length_set]
        exact h.length
      · rw [h.length] at hk
        exact hk
    · have hle := h.copied_le
      rw [hphase, Phase.copied] at hle
      exact ⟨h.length, hle, .inl hi⟩
  · rw [hnext]
    obtain ⟨r, hi, -, -, htmp, -, hcopied, -⟩ := Capture.process_cases hc
    refine ⟨htmp ▸ h.length, ?_, .inl (Capture.process_i_lt hc)⟩
    simp only [hcopied, Nat.zero_le]

end Setup

variable [NeZero L]

/-- A step of the setup is a round of the loop with the rings of the driver. -/
theorem setupMachine_step {P : Type} {processor : Processor P} {p : P} {s s' : Setup n L P}
    {buffs : Rings n L} (h : (setupMachine n L outLen processor p).step s buffs = some s') :
    s.running = true ∧ s' = (s.withRings buffs).next processor := by
  simp only [setupMachine, Option.ite_none_right_eq_some, Option.some.injEq] at h
  exact ⟨h.1, h.2.symm⟩

/-- The lengths fit in every reachable setup. -/
theorem setupMachine_fits {P : Type} {processor : Processor P} {p : P} {s : Setup n L P}
    (hs : (setupMachine n L outLen processor p).Reachable s) : s.Fits outLen := by
  refine Machine.invariant _ (P := Setup.Fits outLen)
    ⟨List.length_replicate, Nat.zero_le _, .inr rfl⟩ ?_ hs
  intro s buffs s' h hstep
  obtain ⟨-, rfl⟩ := setupMachine_step hstep
  exact (h.withRings buffs).next processor

variable {answers : ℕ → Bool}

/-- A round of the loop is in a sweep, or the last of one. -/
theorem Sweeping.next {s : Setup n L ℕ} (h : Sweeping answers s) (hrun : s.running = true)
    (buffs : Rings n L) : Sweeping answers ((s.withRings buffs).next (answering answers)) := by
  obtain ⟨hpan, hphase⟩ := Setup.running_iff.mp hrun
  obtain ⟨m, hbefore, hin | hstop⟩ := h
  · have hin' := hin.withRings buffs
    cases hp : (s.withRings buffs).capture.phase with
    | fetching k =>
      rw [Setup.next, hp]
      exact ⟨m, hbefore, .inl (hin'.fetch hp)⟩
    | handing r =>
      rw [Setup.next, hp]
      rcases hin'.call hpan hp with hsame | ⟨hnot, hnext⟩ | hstop
      · exact ⟨m, hbefore, .inl hsame⟩
      · refine ⟨m + 1, fun m' hm' => ?_, .inl hnext⟩
        rcases Nat.lt_succ_iff_lt_or_eq.mp hm' with hlt | rfl
        · exact hbefore m' hlt
        · exact hnot
      · exact ⟨m, hbefore, .inr hstop⟩
    | returned => exact absurd hp hphase
  · exact absurd hstop.returned.2 hphase

/-- INTERNAL: **where a run is in its sweeps.**
SRC: pt_ctrl/mod.rs:334-352 -/
theorem setupMachine_sweeping (hn : 0 < n) {s : Setup n L ℕ}
    (hs : (setupMachine n L outLen (answering answers) 0).Reachable s) : Sweeping answers s := by
  refine Machine.invariant _ (P := Sweeping answers) ?_ ?_ hs
  · refine ⟨0, fun m' hm' => absurd hm' (Nat.not_lt_zero m'), .inl ⟨nofun, hn, rfl, ?_, ?_, ?_,
      nofun, nofun⟩⟩
    · exact fun j => ⟨nofun, fun hj => absurd hj.1 (Nat.not_lt_zero j)⟩
    · exact fun b => rfl
    · exact fun b => ((Nat.zero_add _).trans (ite_self 0)).symm
  · intro s buffs s' h hstep
    obtain ⟨hrun, rfl⟩ := setupMachine_step hstep
    exact h.next hrun buffs

/-- What the loop is at any time is reachable. -/
theorem setupAt_reachable {P : Type} (outLen : ℕ) (processor : Processor P) (p : P)
    (driver : ℕ → Rings n L → Rings n L) (k : ℕ) :
    (setupMachine n L outLen processor p).Reachable (setupAt outLen processor p driver k) :=
  ⟨_, Machine.exec_log 0 k⟩

/-! ## The return -/

/-- The steps of a call of `fetch_data` and the processor that are left. -/
def Phase.left (outLen : ℕ) : Phase → ℕ
  | .fetching rstSize => outLen + 1 - rstSize
  | .handing _ => 0
  | .returned => 0

/-- A phase takes no more rounds than `tmp_buff` has bytes, and one. -/
theorem Phase.left_le (outLen : ℕ) (phase : Phase) : phase.left outLen ≤ outLen + 1 := by
  cases phase with
  | fetching k => exact Nat.sub_le _ _
  | handing | returned => exact Nat.zero_le _

/-- A bound of the steps up to the call number `calls` of the processor. -/
def stepsLeft (outLen calls : ℕ) (s : Setup n L ℕ) : ℕ :=
  (calls - s.processor) * (outLen + 2) + s.capture.phase.left outLen

/-- A round of the loop leaves less, as long as calls are left. -/
theorem stepsLeft_next (hmax : n ≤ maxCpuNum) {calls m : ℕ} {s : Setup n L ℕ}
    (hfits : s.Fits outLen) (hin : InSweep answers m s) (hlt : s.processor < calls) :
    stepsLeft outLen calls (s.next (answering answers)) < stepsLeft outLen calls s := by
  have hlen := hfits.length
  have hle := hfits.copied_le
  have hi := hin.i_lt
  cases hp : s.capture.phase with
  | fetching k =>
    rw [hp, Phase.copied] at hle
    obtain ⟨c, hc⟩ := Capture.iterate_isSome hp hi
    rw [Setup.next_of_iterate hp (hi.trans_le hmax) hc]
    simp only [stepsLeft, hp, Phase.left]
    obtain ⟨k', hi', hp', ⟨hk, -, rfl⟩ | ⟨-, rfl⟩⟩ := Capture.iterate_cases hc
    · obtain rfl := Phase.fetching.inj (hp.symm.trans hp')
      simp only
      omega
    · simp only
      omega
  | handing r =>
    obtain ⟨c, hc⟩ := Capture.process_isSome hp hi (answers s.processor)
    have hanswer : answering answers s.processor s.capture.i s.capture.tmpBuff r =
        some (s.processor + 1, answers s.processor) := rfl
    rw [Setup.next_of_process hp hanswer hc]
    simp only [stepsLeft, hp]
    obtain ⟨d, rfl⟩ := Nat.exists_eq_add_of_lt hlt
    have hleft := Phase.left_le outLen c.phase
    have hone : s.processor + d + 1 - s.processor = d + 1 := by omega
    have hrest : s.processor + d + 1 - (s.processor + 1) = d := by omega
    rw [hone, hrest, Nat.succ_mul, Phase.left]
    omega
  | returned => exact absurd hp hin.phase

/-- INTERNAL: **the loop ends** in the first sweep with no other answers than `false`.
SRC: pt_ctrl/mod.rs:334-352 -/
theorem exists_ended (hn : 0 < n) (hmax : n ≤ maxCpuNum) (outLen : ℕ)
    (driver : ℕ → Rings n L → Rings n L) {m : ℕ} (hall : AllFalse n answers m) :
    ∃ k, (setupAt outLen (answering answers) 0 driver k).running = false := by
  have hend : ∃ k, Machine.Ended (drivenBy driver)
      ((setupMachine n L outLen (answering answers) 0).run (drivenBy driver) 0 k) := by
    refine Machine.exists_ended (stepsLeft outLen (n * (m + 1))) 0 fun k _ buffs time hask => ?_
    have hrun := drivenBy_eq_some hask
    have hreach := setupAt_reachable outLen (answering answers) 0 driver k
    have hfits := setupMachine_fits hreach
    obtain ⟨m', hbefore, hin | hstop⟩ := setupMachine_sweeping hn hreach
    · refine ⟨_, if_pos hrun, ?_⟩
      exact stepsLeft_next hmax (hfits.withRings buffs) (hin.withRings buffs)
        (hin.calls_lt hbefore hall)
    · exact absurd hstop.returned.2 (Setup.running_iff.mp hrun).2
  obtain ⟨k, hk⟩ := hend
  exact ⟨k, ended_drivenBy.mp hk⟩

/-- The loop returns with the step `k`, which is the last call of the sweep `m`, and there were as
many calls of `fetch_data` and of the processor for one buffer as for another. -/
structure ReturnsBehind (m : ℕ) (s : ℕ → Setup n L ℕ) (k : ℕ) : Prop where
  returned : ∀ j, (s j).Returned ↔ k ≤ j
  before : ∀ j < k, (s j).processor < n * (m + 1)
  calls : (s k).processor = n * (m + 1)
  counts : ∀ b, (s k).fetched b = m + 1 ∧ (s k).handed b = m + 1

/-- INTERNAL: **the first sweep with no other answers than `false` is the last.**
SRC: pt_ctrl/mod.rs:334-352 -/
theorem exists_returnsBehind (hn : 0 < n) (hmax : n ≤ maxCpuNum) (outLen : ℕ)
    (driver : ℕ → Rings n L → Rings n L) {m : ℕ} (hall : AllFalse n answers m)
    (hfirst : ∀ m' < m, ¬ AllFalse n answers m') :
    ∃ k, ReturnsBehind m (setupAt (L := L) outLen (answering answers) 0 driver) k := by
  set s := setupAt (n := n) (L := L) outLen (answering answers) 0 driver
  have hsweep : ∀ k, Sweeping answers (s k) := fun k =>
    setupMachine_sweeping hn (setupAt_reachable outLen (answering answers) 0 driver k)
  have hend : ∃ k, (s k).running = false := exists_ended hn hmax outLen driver hall
  have hrun : ∀ j < Nat.find hend, (s j).running = true := fun j hj =>
    Bool.eq_true_of_not_eq_false (Nat.find_min hend hj)
  have hlast : Stopped answers m (s (Nat.find hend)) := by
    obtain ⟨m', hbefore, hin | hstopped⟩ := hsweep (Nat.find hend)
    · -- it has not panicked, since every buffer is in the array
      exfalso
      have hnot := Nat.find_spec hend
      have hup : (s (Nat.find hend)).panicked = true := by
        by_contra hpan
        rw [Setup.running_iff.mpr ⟨Bool.eq_false_of_not_eq_true hpan, hin.phase⟩] at hnot
        cases hnot
      have hpast := hin.panicked hup
      have hi := hin.i_lt
      omega
    · rcases Nat.lt_trichotomy m' m with hlt | rfl | hgt
      · exact absurd hstopped.refused (hfirst m' hlt)
      · exact hstopped
      · exact absurd hall (hbefore m hgt)
  refine ⟨Nat.find hend, fun j => ⟨fun hret => ?_, fun hj => ?_⟩, fun j hj => ?_, hlast.calls,
    hlast.counts⟩
  · by_contra hlt
    exact (Setup.running_iff.mp (hrun j (not_le.mp hlt))).2 hret.2
  · have hsame : s j = s (Nat.find hend) :=
      congrArg Machine.Driven.state
        (Machine.run_of_ended (ended_drivenBy.mpr (Nat.find_spec hend)) hj)
    rw [hsame]
    exact hlast.returned
  · obtain ⟨m', hbefore, hin | hstopped⟩ := hsweep j
    · exact hin.calls_lt hbefore hall
    · exact absurd hstopped.returned.2 (Setup.running_iff.mp (hrun j hj)).2

/-- MAIN: **the loop stops at the right call.**  For every number of buffers that the array of the
addresses holds, over rings of any length, whatever the driver does and for every sequence of
answers: it returns if and only if some sweep has the answer `false` for every buffer, and then it
does so with the last call of the first such sweep.
SRC: pt_ctrl/mod.rs:330-354 -/
theorem returns_behind_first_refusal (hn : 0 < n) (hmax : n ≤ maxCpuNum) (outLen : ℕ)
    (driver : ℕ → Rings n L → Rings n L) (answers : ℕ → Bool) :
    ((∃ k, (setupAt outLen (answering answers) 0 driver k).Returned) ↔
        ∃ m, AllFalse n answers m) ∧
      ∀ m, AllFalse n answers m → (∀ m' < m, ¬ AllFalse n answers m') →
        ∃ k, ReturnsBehind m (setupAt outLen (answering answers) 0 driver) k := by
  refine ⟨⟨?_, ?_⟩, fun m => exists_returnsBehind hn hmax outLen driver⟩
  · rintro ⟨k, hret⟩
    obtain ⟨m, -, hin | hstopped⟩ :=
      setupMachine_sweeping hn (setupAt_reachable outLen (answering answers) 0 driver k)
    · exact absurd hret.2 hin.phase
    · exact ⟨m, hstopped.refused⟩
  · rintro ⟨m, hall⟩
    classical
    have hex : ∃ m, AllFalse n answers m := ⟨m, hall⟩
    obtain ⟨k, hk⟩ := exists_returnsBehind hn hmax outLen driver (Nat.find_spec hex)
      fun m' => Nat.find_min hex
    exact ⟨k, (hk.returned k).mpr le_rfl⟩

/-- Two buffers, and the answers `true, false, false, false`: the two `false` for the second buffer
and for the first do not add up, and the loop returns with the fourth call. -/
theorem returns_behind_first_refusal_two :
    ∃ k, ReturnsBehind (n := 2) (L := 1) 1
      (setupAt 4 (answering fun call => decide (call = 0)) 0 fun _ buffs => buffs) k := by
  refine (returns_behind_first_refusal (by decide) (by decide) 4 _ _).2 1 (by decide) ?_
  decide

/-! ## More buffers than addresses -/

/-- INTERNAL: with more buffers than the array holds, the loop does not return, whatever the
answers are.
SRC: pt_ctrl/mod.rs:97, 338 -/
theorem not_returned_of_lt (hmax : maxCpuNum < n) (outLen : ℕ)
    (driver : ℕ → Rings n L → Rings n L) (answers : ℕ → Bool) (k : ℕ) :
    ¬ (setupAt outLen (answering answers) 0 driver k).Returned := by
  intro hret
  obtain ⟨m, -, hin | hstopped⟩ := setupMachine_sweeping (Nat.zero_lt_of_lt hmax)
    (setupAt_reachable outLen (answering answers) 0 driver k)
  · exact hin.phase hret.2
  · exact absurd hstopped.looked (not_le.mpr hmax)

/-- MAIN: with 33 buffers and the answer `false` to every call, the loop does not return.
SRC: pt_ctrl/mod.rs:22, 97, 338 -/
theorem one_buffer_too_many : ¬ ∀ (n L : ℕ) [NeZero L], 0 < n →
    ∀ (driver : ℕ → Rings n L → Rings n L) (answers : ℕ → Bool),
      (∃ k, (setupAt (1024 * 800) (answering answers) 0 driver k).Returned) ↔
        ∃ m, AllFalse n answers m := by
  intro hall
  obtain ⟨k, hk⟩ := (hall 33 1 (by decide) (fun _ buffs => buffs) fun _ => false).mpr
    ⟨0, fun _ _ => rfl⟩
  exact not_returned_of_lt (by decide) _ _ _ k hk

end PtkGenerator

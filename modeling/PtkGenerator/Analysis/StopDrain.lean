import PtkGenerator.Analysis.RingDelivery

/-!
# What the capture loop drains once it is told to stop

From the stop on every answer of the processor is `false`, and the loop returns at the end of the
first sweep with no other answers.  `reach` is the position of a stream up to which the calls of
`fetch_data` that end before the return hand it on, when each of them goes on until the output
buffer is full.  A step keeps it, with one exception: a call that ends earlier makes it smaller,
but then there is nothing but 0xFF in the ring (`leaves_step`).  So what was written before the
stop is drained exactly when there is nothing but 0xFF behind the reach.
-/

set_option autoImplicit false

namespace PtkGenerator

open RingBuffer

variable {n L outLen : ℕ}

/-- The bytes that the current call of `fetch_data` hands on if it goes on until the output buffer
is full. -/
def Phase.hands (outLen : ℕ) : Phase → ℕ
  | .fetching _ => outLen
  | .handing readSize => readSize
  | .returned => 0

namespace Capture

/-- All answers of the sweep so far were `false`, so the loop returns at its end if the others are
too. -/
def LastSweep (s : Capture n L) : Prop := ∀ j : Fin n, j.val < s.i → s.flags j = true

/-- Whether the sweep is the last one is decided by its flags. -/
instance (s : Capture n L) : Decidable s.LastSweep :=
  inferInstanceAs (Decidable (∀ j : Fin n, j.val < s.i → s.flags j = true))

/-- How many bytes of a ring the calls of `fetch_data` that end before the return hand on, when
the answers are `false` and each call goes on until the output buffer is full: those of this
sweep, and those of the next one when this sweep is not the last. -/
def room (outLen : ℕ) (s : Capture n L) (b : Fin n) : ℕ :=
  match s.phase with
  | .returned => 0
  | phase =>
    (if b.val < s.i then 0 else if s.i < b.val then outLen else phase.hands outLen) +
      if s.LastSweep then 0 else outLen

/-- The bytes of a stream that were not handed to the processor. -/
def unhanded (s : Capture n L) (b : Fin n) : Bytes := (s.written b).drop (s.delivered b).length

/-- The position of a stream up to which it is handed on. -/
def reach (outLen : ℕ) (s : Capture n L) (b : Fin n) : ℕ :=
  (s.delivered b).length + s.room outLen b

/-- There are flags of the current sweep for the buffers before the current one only. -/
def FlagsDown (s : Capture n L) : Prop :=
  s.phase ≠ .returned → ∀ j : Fin n, s.i ≤ j.val → s.flags j = false

/-- What a buffer has room for depends on whether it comes before or behind the current one. -/
theorem room_of_ne {s : Capture n L} (h : s.phase ≠ .returned) (outLen : ℕ) (b : Fin n) :
    s.room outLen b =
      (if b.val < s.i then 0 else if s.i < b.val then outLen else s.phase.hands outLen) +
        if s.LastSweep then 0 else outLen := by
  rw [room]
  split
  · next hphase => exact absurd hphase h
  · rfl

/-! ## The end of a sweep -/

/-- An answer `false` puts up the flag of its buffer. -/
theorem flags_handOn (s : Capture n L) (hi : s.i < n) (r : ℕ) (j : Fin n) :
    (s.handOn ⟨s.i, hi⟩ r false).flags j = if j.val = s.i then true else s.flags j := by
  simp only [handOn, Bool.false_eq_true, if_false, Function.update_apply, Fin.ext_iff]

/-- All flags are up behind the answer `false` exactly at the end of a sweep in which the others
were up. -/
theorem all_flags_handOn {s : Capture n L} (hdown : s.FlagsDown) {r : ℕ}
    (hphase : s.phase = .handing r) (hi : s.i < n) :
    (∀ j, (s.handOn ⟨s.i, hi⟩ r false).flags j = true) ↔ s.i + 1 = n ∧ s.LastSweep := by
  constructor
  · intro hup
    have hlast : ∀ j : Fin n, j.val ≤ s.i := by
      intro j
      by_contra hlt
      have hj := hup j
      rw [flags_handOn, if_neg (by omega), hdown (by rw [hphase]; simp) j (by omega)] at hj
      cases hj
    refine ⟨?_, fun j hj => ?_⟩
    · have := hlast ⟨n - 1, by omega⟩
      simp only at this
      omega
    · have hup' := hup j
      rwa [flags_handOn, if_neg (by omega)] at hup'
  · rintro ⟨hn, hlast⟩ j
    rw [flags_handOn]
    split
    · rfl
    · exact hlast j (by have := j.isLt; omega)

/-- INTERNAL: **when the loop returns**: behind the answer `false` for the last buffer of a sweep
with no other answers.
SRC: pt_ctrl/mod.rs:341-347 -/
theorem process_eq {s : Capture n L} (hdown : s.FlagsDown) {r : ℕ} (hphase : s.phase = .handing r)
    (hi : s.i < n) (answer : Bool) :
    s.process answer = some
      (if answer = false ∧ s.i + 1 = n ∧ s.LastSweep then
        { s.handOn ⟨s.i, hi⟩ r answer with phase := .returned }
      else (s.handOn ⟨s.i, hi⟩ r answer).nextBuffer) := by
  rw [process_eq_ite hphase hi]
  cases answer with
  | true => simp only [Bool.true_eq_false, false_and, if_false]
  | false => simp only [true_and, all_flags_handOn hdown hphase hi]

/-- What follows `fetch_data` for the last sweep: the answer `false` puts up the flag, and the loop
returns when it was the last one missing. -/
theorem process_false {s t : Capture n L} (hdown : s.FlagsDown) (h : s.process false = some t) :
    ∃ (r : ℕ) (hi : s.i < n), s.phase = .handing r ∧ s.i + 1 ≤ n ∧
      ((s.i + 1 = n ∧ s.LastSweep ∧ t = { s.handOn ⟨s.i, hi⟩ r false with phase := .returned }) ∨
       (s.i + 1 = n ∧ ¬ s.LastSweep ∧
          t = { s.handOn ⟨s.i, hi⟩ r false with
            i := 0, flags := fun _ => false, phase := .fetching 0 }) ∨
       (s.i + 1 < n ∧ t = { s.handOn ⟨s.i, hi⟩ r false with
          i := s.i + 1, phase := .fetching 0 })) := by
  obtain ⟨r, hi, hphase, -⟩ := process_cases h
  rw [process_eq hdown hphase hi, Option.some.injEq] at h
  refine ⟨r, hi, hphase, hi, ?_⟩
  split at h
  · next hret => exact .inl ⟨hret.2.1, hret.2.2, h.symm⟩
  · next hret =>
    have hn : (s.handOn ⟨s.i, hi⟩ r false).i = s.i := rfl
    rw [nextBuffer, hn] at h
    split at h
    · next hlt => exact .inr (.inr ⟨hlt, h.symm⟩)
    · next hge =>
      have hend : s.i + 1 = n := by omega
      exact .inr (.inl ⟨hend, fun hlast => hret ⟨rfl, hend, hlast⟩, h.symm⟩)

/-! ## The reach -/

/-- The reach of a stream depends on the place of the loop only. -/
theorem reach_congr {s t : Capture n L} {outLen : ℕ} (hd : t.delivered = s.delivered)
    (hi : t.i = s.i) (hf : t.flags = s.flags) (hs : s.phase ≠ .returned)
    (ht : t.phase ≠ .returned) (hp : t.phase.hands outLen = s.phase.hands outLen) (b : Fin n) :
    t.reach outLen b = s.reach outLen b := by
  have hlast : t.LastSweep ↔ s.LastSweep := by rw [LastSweep, hi, hf]; rfl
  simp only [reach, hd, room_of_ne hs, room_of_ne ht, hi, hp, hlast]

/-- The answer `false` keeps the reach: what is handed on was in it, and a sweep that does not
return is followed by one that does. -/
theorem reach_process {s t : Capture n L} {outLen : ℕ} (hdown : s.FlagsDown)
    (hlen : s.phase.copied ≤ s.tmpBuff.length) (h : s.process false = some t) (b : Fin n) :
    t.reach outLen b = s.reach outLen b := by
  obtain ⟨r, hi, hphase, hle, hcases⟩ := process_false hdown h
  rw [hphase, Phase.copied] at hlen
  have hs : s.room outLen b = (if b.val < s.i then 0 else if s.i < b.val then outLen else r) +
      if s.LastSweep then 0 else outLen := by
    rw [room_of_ne (by rw [hphase]; simp), hphase]
    rfl
  have hdel : (Function.update s.delivered ⟨s.i, hi⟩
      (s.delivered ⟨s.i, hi⟩ ++ s.tmpBuff.take r) b).length =
        (s.delivered b).length + if b.val = s.i then r else 0 := by
    by_cases hb : b = ⟨s.i, hi⟩
    · subst hb
      rw [Function.update_self, List.length_append, List.length_take, if_pos rfl]
      omega
    · rw [Function.update_of_ne hb, if_neg (fun e => hb (Fin.ext e)), Nat.add_zero]
  have hb := b.isLt
  rcases hcases with ⟨hn, hlast, rfl⟩ | ⟨hn, hlast, rfl⟩ | ⟨hn, rfl⟩
  · -- the loop returns
    have ht : ({ s.handOn ⟨s.i, hi⟩ r false with phase := .returned } : Capture n L).room
        outLen b = 0 := rfl
    rw [reach, reach, ht, hs, if_pos hlast]
    show (Function.update s.delivered _ _ b).length + 0 = _
    rw [hdel]
    split_ifs <;> omega
  · -- a new sweep begins
    rw [reach, reach, hs, if_neg hlast, room_of_ne (by simp)]
    show (Function.update s.delivered _ _ b).length + _ = _
    rw [hdel]
    have hnew : ({ s.handOn ⟨s.i, hi⟩ r false with
        i := 0, flags := fun _ => false, phase := .fetching 0 } : Capture n L).LastSweep :=
      fun j hj => absurd hj (Nat.not_lt_zero _)
    rw [if_pos hnew]
    simp only [Nat.not_lt_zero, if_false, Phase.hands, ite_self]
    split_ifs <;> omega
  · -- the next buffer of the sweep
    rw [reach, reach, hs, room_of_ne (by simp)]
    show (Function.update s.delivered _ _ b).length + _ = _
    rw [hdel]
    have hnext : ({ s.handOn ⟨s.i, hi⟩ r false with
        i := s.i + 1, phase := .fetching 0 } : Capture n L).LastSweep ↔ s.LastSweep := by
      constructor
      · intro hall j hj
        have hup := hall j (Nat.lt_succ_of_lt hj)
        change (s.handOn ⟨s.i, hi⟩ r false).flags j = true at hup
        rwa [flags_handOn, if_neg (by omega)] at hup
      · intro hall j hj
        show (s.handOn ⟨s.i, hi⟩ r false).flags j = true
        rw [flags_handOn]
        split
        · rfl
        · next hne => exact hall j (by have : j.val < s.i + 1 := hj; omega)
    simp only [hnext, Phase.hands, ite_self]
    split_ifs <;> omega

/-! ## The steps after the stop -/

/-- What the stream `W` of each buffer has behind the reach is 0xFF. -/
def Leaves (W : Fin n → Bytes) (outLen : ℕ) (s : Capture n L) : Prop :=
  ∀ b, ∀ x ∈ (W b).drop (s.reach outLen b), x = 0xFF

/-- What is left behind depends on the reach only. -/
theorem leaves_congr {W : Fin n → Bytes} {outLen : ℕ} {s t : Capture n L}
    (h : ∀ b, t.reach outLen b = s.reach outLen b) : t.Leaves W outLen ↔ s.Leaves W outLen := by
  unfold Leaves
  simp only [h]

/-- Behind a call of the processor the flags to come are down. -/
theorem FlagsDown.process {s t : Capture n L} (h : s.FlagsDown) {answer : Bool}
    (hs : s.process answer = some t) : t.FlagsDown := by
  obtain ⟨r, hi, hphase, rfl | rfl⟩ := eq_of_process hs
  · exact fun hne => absurd rfl hne
  · have hn : (s.handOn ⟨s.i, hi⟩ r answer).i = s.i := rfl
    intro _ j hj
    rw [nextBuffer, hn] at hj ⊢
    split at hj
    · next hlt =>
      rw [if_pos hlt]
      have hlt' : s.i + 1 ≤ j.val := hj
      have hdown : s.flags j = false := h (by rw [hphase]; simp) j (by omega)
      show (if answer then s.flags else Function.update s.flags ⟨s.i, hi⟩ true) j = false
      split
      · exact hdown
      · have hne : j ≠ ⟨s.i, hi⟩ := by
          rintro rfl
          exact absurd hlt' (Nat.not_succ_le_self s.i)
        rw [Function.update_of_ne hne]
        exact hdown
    · next hge => rw [if_neg hge]

variable [NeZero L]

/-- The driver does not touch the flags. -/
theorem FlagsDown.write {s t : Capture n L} (h : s.FlagsDown) {b : Fin n} {x : UInt8}
    (hs : s.write b x = some t) : t.FlagsDown := by
  obtain ⟨-, rfl⟩ := write_cases hs
  exact h

/-- The fetch loop does not touch the flags. -/
theorem FlagsDown.iterate {s t : Capture n L} (h : s.FlagsDown) (hs : s.iterate = some t) :
    t.FlagsDown := by
  obtain ⟨k, hi, hphase, ⟨-, -, rfl⟩ | ⟨-, rfl⟩⟩ := iterate_cases hs
  · exact fun _ => h (by rw [hphase]; simp)
  · exact fun _ => h (by rw [hphase]; simp)

omit [NeZero L] in
/-- The end of a call of `fetch_data` leaves the reach of the other buffers as it is. -/
theorem reach_handing_of_ne {s : Capture n L} (hne : s.phase ≠ .returned) (outLen k : ℕ)
    {b : Fin n} (hb : b.val ≠ s.i) :
    ({ s with phase := .handing k } : Capture n L).reach outLen b = s.reach outLen b := by
  have hlast : ({ s with phase := .handing k } : Capture n L).LastSweep ↔ s.LastSweep := Iff.rfl
  have hne' : ({ s with phase := .handing k } : Capture n L).phase ≠ .returned := by simp
  rcases Nat.lt_or_gt_of_ne hb with hlt | hgt
  · simp only [reach, room_of_ne hne, room_of_ne hne', hlast, if_pos hlt]
  · simp only [reach, room_of_ne hne, room_of_ne hne', hlast, if_neg hgt.not_gt, if_pos hgt]

omit [NeZero L] in
/-- What was copied is within the reach. -/
theorem taken_le_reach {s : Capture n L} (hne : s.phase ≠ .returned) (hi : s.i < n) {outLen : ℕ}
    (hle : s.phase.copied ≤ s.phase.hands outLen) :
    s.taken ⟨s.i, hi⟩ ≤ s.reach outLen ⟨s.i, hi⟩ := by
  rw [taken_current, reach, room_of_ne hne]
  simp only [lt_irrefl, if_false]
  omega

/-- Behind what was copied before a cell that is not valid there is nothing but 0xFF. -/
theorem blank_behind {W : Bytes} {s : Capture n L} (hinv : s.Inv) (hi : s.i < n)
    (hW : W <+: s.written ⟨s.i, hi⟩) (hrun : ¬ List.replicate 10 0xFF <:+: s.written ⟨s.i, hi⟩)
    (hblank : isValid (s.buffs ⟨s.i, hi⟩) (s.readPos ⟨s.i, hi⟩) s.phase.copied = false) {m : ℕ}
    (hm : s.taken ⟨s.i, hi⟩ ≤ m) : ∀ x ∈ W.drop m, x = 0xFF := by
  obtain ⟨r, -, hr⟩ := hinv.rest_of_not_isValid hi hblank fun hin =>
    hrun (hin.trans (List.drop_suffix _ _).isInfix)
  intro x hx
  have hmem : x ∈ (s.written ⟨s.i, hi⟩).drop m := (hW.drop m).mem hx
  obtain ⟨d, rfl⟩ := Nat.exists_eq_add_of_le hm
  rw [← List.drop_drop] at hmem
  have hmem' := List.mem_of_mem_drop hmem
  rw [← undelivered, hr] at hmem'
  exact List.eq_of_mem_replicate hmem'

/-- The end of a call of `fetch_data`: when the output buffer is not full, the reach gets smaller,
but there is nothing but 0xFF behind what was copied. -/
theorem leaves_end {W : Fin n → Bytes} {s : Capture n L} {k : ℕ} (hinv : s.Inv)
    (hphase : s.phase = .fetching k) (hi : s.i < n)
    (hW : ∀ b, W b <+: s.written b)
    (hrun : ∀ b, ¬ List.replicate 10 0xFF <:+: s.written b)
    (hend : s.tmpBuff.length ≤ k ∨ isValid (s.buffs ⟨s.i, hi⟩) (s.readPos ⟨s.i, hi⟩) k = false) :
    ({ s with phase := .handing k } : Capture n L).Leaves W s.tmpBuff.length ↔
      s.Leaves W s.tmpBuff.length := by
  have hle := hinv.copied_le
  have hcopied : s.phase.copied = k := by rw [hphase, Phase.copied]
  have hne : s.phase ≠ .returned := by rw [hphase]; simp
  rw [hcopied] at hle
  rcases hend with hfull | hblank
  · refine leaves_congr (reach_congr rfl rfl rfl hne (by simp) ?_)
    rw [hphase]
    exact le_antisymm hle hfull
  · have hnow : s.taken ⟨s.i, hi⟩ ≤ s.reach s.tmpBuff.length ⟨s.i, hi⟩ := by
      apply taken_le_reach hne
      rw [hcopied, hphase]
      exact hle
    have hthen : s.taken ⟨s.i, hi⟩ ≤
        ({ s with phase := .handing k } : Capture n L).reach s.tmpBuff.length ⟨s.i, hi⟩ := by
      have htaken : ({ s with phase := .handing k } : Capture n L).taken ⟨s.i, hi⟩ =
          s.taken ⟨s.i, hi⟩ := by
        rw [taken_current hi, hcopied]
        exact taken_current (s := { s with phase := .handing k }) hi
      rw [← htaken]
      exact taken_le_reach (s := { s with phase := .handing k }) (by simp) hi le_rfl
    have hrest : ∀ m, s.taken ⟨s.i, hi⟩ ≤ m → ∀ x ∈ (W ⟨s.i, hi⟩).drop m, x = 0xFF :=
      fun m hm => blank_behind hinv hi (hW _) (hrun _) (by rw [hcopied]; exact hblank) hm
    have hiff : ∀ b, (∀ x ∈ (W b).drop
        (({ s with phase := .handing k } : Capture n L).reach s.tmpBuff.length b), x = 0xFF) ↔
          ∀ x ∈ (W b).drop (s.reach s.tmpBuff.length b), x = 0xFF := by
      intro b
      by_cases hb : b = ⟨s.i, hi⟩
      · subst hb
        exact iff_of_true (hrest _ hthen) (hrest _ hnow)
      · rw [reach_handing_of_ne hne _ _ fun e => hb (Fin.ext e)]
    exact forall_congr' hiff

/-- A step takes nothing back that was written. -/
theorem written_step {s t : Capture n L} {op : CaptureOp n}
    (h : (captureMachine n L outLen).step s op = some t) (b : Fin n) :
    s.written b <+: t.written b := by
  cases op with
  | write c x =>
    obtain ⟨-, rfl⟩ := write_cases h
    by_cases hb : b = c
    · subst hb
      simp only [Function.update_self]
      exact List.prefix_append _ _
    · simp only [Function.update_of_ne hb]
      exact List.prefix_refl _
  | iterate =>
    obtain ⟨k, hi, -, ⟨-, -, rfl⟩ | ⟨-, rfl⟩⟩ := iterate_cases h
    · exact List.prefix_refl _
    · exact List.prefix_refl _
  | process answer =>
    obtain ⟨r, hi, -, -, -, hwritten, -⟩ := process_cases h
    rw [hwritten]

/-- A run takes nothing back that was written. -/
theorem written_exec {s t : Capture n L} {ops : List (CaptureOp n)}
    (h : (captureMachine n L outLen).exec s ops = some t) (b : Fin n) :
    s.written b <+: t.written b :=
  Machine.exec_induct _ (C := fun _ _ => True) (P := fun u => s.written b <+: u.written b)
    (fun _ _ _ hu _ hstep => hu.trans (written_step hstep b)) (List.prefix_refl _)
    (Machine.meets_of_forall _ (fun _ _ => trivial) _ _) h

/-- No flag of a buffer that is still to come in the sweep is up. -/
theorem captureMachine_flagsDown {s : Capture n L}
    (hs : (captureMachine n L outLen).Reachable s) : s.FlagsDown := by
  refine Machine.invariant _ (P := FlagsDown) (fun _ _ _ => rfl) ?_ hs
  intro s op t h hstep
  cases op with
  | write b x => exact h.write hstep
  | iterate => exact h.iterate hstep
  | process answer => exact h.process hstep

/-- INTERNAL: **a step after the stop** keeps whether there is nothing but 0xFF behind the reach.
SRC: pt_ctrl/mod.rs:284-308, 334-352 -/
theorem leaves_step {W : Fin n → Bytes} {s t : Capture n L} {op : CaptureOp n}
    (hs : (captureMachine n L outLen).Reachable s) (hW : ∀ b, W b <+: s.written b)
    (hrun : ∀ b, ¬ List.replicate 10 0xFF <:+: s.written b)
    (hop : ∀ answer, op = .process answer → answer = false)
    (h : (captureMachine n L outLen).step s op = some t) :
    t.Leaves W outLen ↔ s.Leaves W outLen := by
  obtain ⟨hinv, hlen⟩ := captureMachine_inv hs
  cases op with
  | write b x =>
    obtain ⟨-, rfl⟩ := write_cases h
    exact Iff.rfl
  | iterate =>
    obtain ⟨k, hi, hphase, ⟨-, -, rfl⟩ | ⟨hend, rfl⟩⟩ := iterate_cases h
    · refine leaves_congr (reach_congr rfl rfl rfl (by rw [hphase]; simp) (by simp) ?_)
      rw [hphase]
      rfl
    · rw [← hlen]
      exact leaves_end hinv hphase hi hW hrun hend
  | process answer =>
    obtain rfl := hop answer rfl
    exact leaves_congr (reach_process (captureMachine_flagsDown hs) hinv.copied_le h)

/-- What will be left behind is settled when `stop` is seen. -/
theorem leaves_exec {W : Fin n → Bytes} {s t : Capture n L} {ops : List (CaptureOp n)}
    (hs : (captureMachine n L outLen).Reachable s) (hW : ∀ b, W b <+: s.written b)
    (hrun : ∀ b, ¬ List.replicate 10 0xFF <:+: t.written b)
    (hops : ∀ answer, .process answer ∈ ops → answer = false)
    (h : (captureMachine n L outLen).exec s ops = some t) :
    t.Leaves W outLen ↔ s.Leaves W outLen := by
  induction ops generalizing s with
  | nil => rw [Option.some.inj h]
  | cons op ops ih =>
    obtain ⟨u, hu, hrest⟩ := (Machine.exec_cons_eq_some _).mp h
    have hone : (captureMachine n L outLen).exec s [op] = some u :=
      (Machine.exec_cons_eq_some _).mpr ⟨u, hu, rfl⟩
    have hus : (captureMachine n L outLen).Reachable u := hs.exec _ hone
    have htail := ih hus (fun b => (hW b).trans (written_step hu b))
      (fun answer ha => hops answer (List.mem_cons_of_mem _ ha)) hrest
    refine htail.trans (leaves_step hs hW (fun b hin => hrun b ?_) (fun answer ha => ?_) hu)
    · exact hin.trans ((written_step hu b).trans (written_exec hrest b)).isInfix
    · exact hops answer (ha ▸ List.mem_cons_self)

end Capture

/-- MAIN: **what was written before the stop is drained** when the loop returns, but for a block of
fewer than ten 0xFF, if and only if at the stop there is nothing but 0xFF behind the bytes that the
calls of `fetch_data` still to end can hand on.  The stop may be anywhere in a run of the loop and
the driver, over any number of rings of any length, and the driver goes on behind it.
SRC: pt_ctrl/mod.rs:284-308, 330-354, bin/online_proc.rs:99-113 -/
theorem stop_drains_iff [NeZero L] {outLen : ℕ} {s t : Capture n L} {ops : List (CaptureOp n)}
    (hs : (captureMachine n L outLen).Reachable s)
    (hops : ∀ answer, .process answer ∈ ops → answer = false)
    (h : (captureMachine n L outLen).exec s ops = some t) (hret : t.phase = .returned)
    (hrun : ∀ b, ¬ List.replicate 10 0xFF <:+: t.written b) :
    (∀ b, ∃ r < 10, (s.written b).drop (t.delivered b).length = List.replicate r 0xFF) ↔
      ∀ b, ∀ x ∈ (s.unhanded b).drop (s.room outLen b), x = 0xFF := by
  have hleaves := Capture.leaves_exec (W := s.written) hs (fun b => List.prefix_refl _) hrun hops h
  have hreturned : t.Leaves s.written outLen ↔
      ∀ b, ∀ x ∈ (s.written b).drop (t.delivered b).length, x = 0xFF := by
    simp only [Capture.Leaves, Capture.reach, Capture.room, hret, Nat.add_zero]
  have hstop : s.Leaves s.written outLen ↔
      ∀ b, ∀ x ∈ (s.unhanded b).drop (s.room outLen b), x = 0xFF := by
    simp only [Capture.Leaves, Capture.reach, Capture.unhanded, List.drop_drop]
  rw [← hstop, ← hleaves, hreturned]
  refine forall_congr' fun b => ?_
  constructor
  · rintro ⟨r, -, hr⟩ x hx
    rw [hr] at hx
    exact List.eq_of_mem_replicate hx
  · intro hall
    have hr := List.eq_replicate_of_mem hall
    refine ⟨_, ?_, hr⟩
    by_contra hle
    apply hrun b
    have hten : List.replicate 10 0xFF <+: (s.written b).drop (t.delivered b).length := by
      rw [hr]
      obtain ⟨d, hd⟩ := Nat.exists_eq_add_of_le (not_lt.mp hle)
      rw [hd, List.replicate_add]
      exact List.prefix_append _ _
    exact hten.isInfix.trans ((List.drop_suffix _ _).isInfix.trans
      (Capture.written_exec h b).isInfix)

/-- One ring of three cells with one byte in it. -/
theorem stop_drains_oneByte : ∃ s t : Capture 1 3,
    (captureMachine 1 3 4).Reachable s ∧ s.written 0 = [1] ∧
    (captureMachine 1 3 4).exec s [.iterate, .iterate, .process false] = some t ∧
    ∀ b, ∃ r < 10, (s.written b).drop (t.delivered b).length = List.replicate r 0xFF := by
  refine ⟨_, _, ⟨[.write 0 1], rfl⟩, rfl, rfl, ?_⟩
  have hops : ∀ answer, CaptureOp.process answer ∈
      ([.iterate, .iterate, .process false] : List (CaptureOp 1)) → answer = false := by simp
  refine (stop_drains_iff ⟨[.write 0 1], rfl⟩ hops rfl rfl ?_).mpr ?_
  · intro b hin
    obtain rfl := Subsingleton.elim 0 b
    have hlen : 10 ≤ [(1 : UInt8)].length := hin.length_le
    exact absurd hlen (by decide)
  · intro b x hx
    obtain rfl := Subsingleton.elim 0 b
    cases hx

/-! ## A byte written between the last call and the stop -/

/-- A loop over one ring, whose first call of `fetch_data` has ended before the first byte was
written. -/
def raced (outLen : ℕ) : Capture 1 16 :=
  { (captureMachine 1 16 outLen).init with
    buffs := fun _ => Function.update (fun _ => 0xFF) 0 1
    phase := .handing 0
    written := fun _ => [1] }

/-- The byte is written behind the first call of `fetch_data`. -/
theorem exec_raced (outLen : ℕ) :
    (captureMachine 1 16 outLen).exec (captureMachine 1 16 outLen).init [.iterate, .write 0 1] =
      some (raced outLen) := by
  have hblank : isValid (fun _ : Fin 16 => 0xFF) 0 0 = false := by decide
  have hcall : (captureMachine 1 16 outLen).step (captureMachine 1 16 outLen).init .iterate =
      some { (captureMachine 1 16 outLen).init with phase := .handing 0 } :=
    Capture.iterate_of_not_isValid (s := (captureMachine 1 16 outLen).init) rfl Nat.zero_lt_one
      hblank
  have hwrite : (captureMachine 1 16 outLen).step
      { (captureMachine 1 16 outLen).init with phase := .handing 0 } (.write 0 1) =
        some (raced outLen) := by
    simp only [captureMachine, Capture.write, raced, Function.update_eq_const_of_subsingleton]
    rfl
  exact (Machine.exec_cons_eq_some _).mpr
    ⟨_, hcall, (Machine.exec_cons_eq_some _).mpr ⟨_, hwrite, rfl⟩⟩

/-- MAIN: the driver writes a byte between the end of a call of `fetch_data` and the stop, and the
loop returns without it.
SRC: pt_ctrl/mod.rs:340-347 -/
theorem stop_loses_last_byte : ¬ ∀ (n L : ℕ) [NeZero L] (before after : List (CaptureOp n))
    (s t : Capture n L),
    (captureMachine n L (1024 * 800)).exec (captureMachine n L (1024 * 800)).init before = some s →
    (∀ answer, .process answer ∈ before → answer = true) →
    (captureMachine n L (1024 * 800)).exec s after = some t →
    (∀ answer, .process answer ∈ after → answer = false) → t.phase = .returned →
    (∀ b, ¬ List.replicate 10 0xFF <:+: t.written b) →
    ∀ b, ∃ r < 10, (s.written b).drop (t.delivered b).length = List.replicate r 0xFF := by
  intro hall
  have hreturn : ∃ t, (captureMachine 1 16 (1024 * 800)).exec (raced (1024 * 800))
      [.process false] = some t ∧ t.phase = .returned ∧ t.written = (fun _ => [1]) ∧
        t.delivered 0 = [] := by
    generalize 1024 * 800 = outLen
    refine ⟨_, rfl, rfl, rfl, rfl⟩
  obtain ⟨t, ht, hret, hwritten, hdel⟩ := hreturn
  have h := hall 1 16 [.iterate, .write 0 1] [.process false] _ t (exec_raced _) (by simp) ht
    (by simp) hret (by rw [hwritten]; decide) 0
  rw [hdel] at h
  revert h
  decide

end PtkGenerator

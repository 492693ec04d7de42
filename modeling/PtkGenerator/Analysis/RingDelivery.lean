import PtkGenerator.Model.PtCtrl

/-!
# The capture loop delivers the streams

`CaptureInv` ties a ring, its `read_pos` and what was handed on to the stream its driver writes:
the ring is a window of the stream that begins behind the bytes copied out of it, and the bytes
copied but not handed on yet are in the output buffer.  A byte is copied only where a look-ahead
sees a byte that is not 0xFF; every cell outside of the window is 0xFF, so the window is not
empty then and the byte copied is the next of the stream, whatever its value.

The look-ahead decides too little the other way: a call stops in front of ten 0xFF, which may be
data.  `quiet_call` bounds what it leaves behind where no ten of them follow each other.
-/

set_option autoImplicit false

namespace PtkGenerator

open RingBuffer

variable {n L : ℕ}

/-- A blank ring is not valid anywhere. -/
theorem isValid_blank [NeZero L] (pos i : ℕ) : isValid (fun _ : Fin L => 0xFF) pos i = false := by
  simp [isValid]

namespace Capture

/-- From a buffer that is not the current one nothing is taken that was not delivered. -/
theorem taken_of_ne {s : Capture n L} {b : Fin n} (h : s.i ≠ b) :
    s.taken b = (s.delivered b).length := by
  rw [taken, if_neg h, Nat.add_zero]

/-- From the current buffer what is in `tmp_buff` is taken as well. -/
theorem taken_current {s : Capture n L} (hi : s.i < n) :
    s.taken ⟨s.i, hi⟩ = (s.delivered ⟨s.i, hi⟩).length + s.phase.copied := by
  rw [taken, if_pos rfl]

/-- With nothing in `tmp_buff` what was taken was delivered. -/
theorem taken_of_copied_eq_zero {s : Capture n L} (h : s.phase.copied = 0) (b : Fin n) :
    s.taken b = (s.delivered b).length := by
  rw [taken, h]
  split <;> rfl

/-- What was delivered was taken. -/
theorem length_delivered_le (s : Capture n L) (b : Fin n) :
    (s.delivered b).length ≤ s.taken b := by
  rw [taken]
  omega

/-! ## What a step does -/

/-- The processor is called with the current buffer, and the loop returns or goes on. -/
theorem eq_of_process {s t : Capture n L} {answer : Bool} (h : s.process answer = some t) :
    ∃ (r : ℕ) (hi : s.i < n), s.phase = .handing r ∧
      (t = { s.handOn ⟨s.i, hi⟩ r answer with phase := .returned } ∨
        t = (s.handOn ⟨s.i, hi⟩ r answer).nextBuffer) := by
  rw [process] at h
  cases hphase : s.phase with
  | handing r =>
    simp only [hphase] at h
    split at h
    · next hi =>
      refine ⟨r, hi, rfl, ?_⟩
      split at h
      · exact .inl (Option.some.inj h).symm
      · exact .inr (Option.some.inj h).symm
    · cases h
  | fetching k => simp only [hphase] at h; cases h
  | returned => simp only [hphase] at h; cases h

/-- A call of the processor delivers what was fetched. -/
theorem process_cases {s t : Capture n L} {answer : Bool} (h : s.process answer = some t) :
    ∃ (r : ℕ) (hi : s.i < n), s.phase = .handing r ∧ t.buffs = s.buffs ∧
      t.tmpBuff = s.tmpBuff ∧ t.written = s.written ∧ t.phase.copied = 0 ∧
      t.readPos = Function.update s.readPos ⟨s.i, hi⟩ ((s.readPos ⟨s.i, hi⟩ + r) % L) ∧
      t.delivered = Function.update s.delivered ⟨s.i, hi⟩
        (s.delivered ⟨s.i, hi⟩ ++ s.tmpBuff.take r) := by
  obtain ⟨r, hi, hphase, rfl | rfl⟩ := eq_of_process h
  · exact ⟨r, hi, hphase, rfl, rfl, rfl, rfl, rfl, rfl⟩
  · refine ⟨r, hi, hphase, ?_⟩
    rw [nextBuffer]
    split <;> exact ⟨rfl, rfl, rfl, rfl, rfl, rfl⟩

/-- Behind a call of the processor the current buffer is one of the buffers. -/
theorem process_i_lt {s t : Capture n L} {answer : Bool} (h : s.process answer = some t) :
    t.i < n := by
  obtain ⟨r, hi, -, rfl | rfl⟩ := eq_of_process h
  · exact hi
  · rw [nextBuffer]
    split
    · next hlt => exact hlt
    · exact Nat.zero_lt_of_lt hi

/-- The loop returns behind an answer `false` that makes all the flags true. -/
theorem process_eq_ite {s : Capture n L} {r : ℕ} (hphase : s.phase = .handing r) (hi : s.i < n)
    (answer : Bool) :
    s.process answer = some
      (if answer = false ∧ ∀ j, (s.handOn ⟨s.i, hi⟩ r answer).flags j = true then
        { s.handOn ⟨s.i, hi⟩ r answer with phase := .returned }
      else (s.handOn ⟨s.i, hi⟩ r answer).nextBuffer) := by
  simp only [process, hphase, dif_pos hi]
  split <;> rfl

/-- The processor may give either answer. -/
theorem process_isSome {s : Capture n L} {r : ℕ} (hphase : s.phase = .handing r) (hi : s.i < n)
    (answer : Bool) : ∃ t, s.process answer = some t :=
  ⟨_, process_eq_ite hphase hi answer⟩

variable [NeZero L]

/-- The driver writes when the ring has room. -/
theorem write_cases {s t : Capture n L} {b : Fin n} {x : UInt8} (h : s.write b x = some t) :
    (s.written b).length < s.taken b + L ∧
      t = { s with
        buffs := Function.update s.buffs b
          (Function.update (s.buffs b) (cellAt L (s.written b).length) x)
        written := Function.update s.written b (s.written b ++ [x]) } := by
  rw [write] at h
  split at h
  · next hroom => exact ⟨hroom, (Option.some.inj h).symm⟩
  · cases h

/-- One round of the fetch loop takes a byte, or ends. -/
theorem iterate_cases {s t : Capture n L} (h : s.iterate = some t) :
    ∃ (k : ℕ) (hi : s.i < n), s.phase = .fetching k ∧
      ((k < s.tmpBuff.length ∧ isValid (s.buffs ⟨s.i, hi⟩) (s.readPos ⟨s.i, hi⟩) k = true ∧
        t = { s with
          buffs := Function.update s.buffs ⟨s.i, hi⟩ (Function.update (s.buffs ⟨s.i, hi⟩)
            (cellAt L (k + s.readPos ⟨s.i, hi⟩)) 0xFF)
          tmpBuff := s.tmpBuff.set k (s.buffs ⟨s.i, hi⟩ (cellAt L (k + s.readPos ⟨s.i, hi⟩)))
          phase := .fetching (k + 1) }) ∨
       ((s.tmpBuff.length ≤ k ∨
          isValid (s.buffs ⟨s.i, hi⟩) (s.readPos ⟨s.i, hi⟩) k = false) ∧
        t = { s with phase := .handing k })) := by
  rw [iterate] at h
  cases hphase : s.phase with
  | fetching k =>
    simp only [hphase] at h
    split at h
    · next hi =>
      refine ⟨k, hi, rfl, ?_⟩
      split at h
      · next hk =>
        cases hv : isValid (s.buffs ⟨s.i, hi⟩) (s.readPos ⟨s.i, hi⟩) k with
        | true =>
          simp only [fetchIter, hv, if_true] at h
          exact .inl ⟨hk, rfl, (Option.some.inj h).symm⟩
        | false =>
          simp only [fetchIter, hv] at h
          exact .inr ⟨.inr rfl, (Option.some.inj h).symm⟩
      · next hk => exact .inr ⟨.inl (not_lt.mp hk), (Option.some.inj h).symm⟩
    · cases h
  | handing r => simp only [hphase] at h; cases h
  | returned => simp only [hphase] at h; cases h

/-- The fetch loop goes on with each round. -/
theorem iterate_isSome {s : Capture n L} {k : ℕ} (hphase : s.phase = .fetching k) (hi : s.i < n) :
    ∃ t, s.iterate = some t := by
  simp only [iterate, hphase, dif_pos hi]
  split
  · split <;> exact ⟨_, rfl⟩
  · exact ⟨_, rfl⟩

/-- The fetch loop ends when `tmp_buff` is full. -/
theorem iterate_of_length_le {s : Capture n L} {k : ℕ} (hphase : s.phase = .fetching k)
    (hi : s.i < n) (hk : s.tmpBuff.length ≤ k) :
    s.iterate = some { s with phase := .handing k } := by
  simp only [iterate, hphase, dif_pos hi, if_neg (not_lt.mpr hk)]

/-- The fetch loop ends when the ring has no byte. -/
theorem iterate_of_not_isValid {s : Capture n L} {k : ℕ} (hphase : s.phase = .fetching k)
    (hi : s.i < n) (h : isValid (s.buffs ⟨s.i, hi⟩) (s.readPos ⟨s.i, hi⟩) k = false) :
    s.iterate = some { s with phase := .handing k } := by
  simp only [iterate, hphase, dif_pos hi, fetchIter, h, Bool.false_eq_true, if_false, ite_self]

/-! ## The invariant -/

/-- What holds of a ring, `read_pos`, the output buffer and the two records together. -/
structure Inv (s : Capture n L) : Prop where
  window : ∀ b, Window 0xFF (s.buffs b) (s.written b) (s.taken b)
  delivered : ∀ b, s.delivered b = (s.written b).take (s.delivered b).length
  readPos : ∀ b, s.readPos b = (s.delivered b).length % L
  copied_le : s.phase.copied ≤ s.tmpBuff.length
  copied : ∀ hi : s.i < n, s.tmpBuff.take s.phase.copied =
    ((s.written ⟨s.i, hi⟩).drop (s.delivered ⟨s.i, hi⟩).length).take s.phase.copied

/-- The driver keeps the rings in order. -/
theorem Inv.write {s t : Capture n L} (hs : s.Inv) {b : Fin n} {x : UInt8}
    (h : s.write b x = some t) : t.Inv := by
  obtain ⟨hroom, rfl⟩ := write_cases h
  have hlen : ∀ c, (s.delivered c).length ≤ (s.written c).length := fun c =>
    (s.length_delivered_le c).trans (hs.window c).taken_le
  have hgrow : ∀ c, ∃ e, Function.update s.written b (s.written b ++ [x]) c = s.written c ++ e := by
    intro c
    by_cases hc : c = b
    · subst hc
      exact ⟨[x], Function.update_self _ _ _⟩
    · exact ⟨[], by rw [Function.update_of_ne hc, List.append_nil]⟩
  refine ⟨?_, ?_, hs.readPos, hs.copied_le, ?_⟩
  · intro c
    by_cases hc : c = b
    · subst hc
      simp only [Function.update_self]
      exact (hs.window c).write hroom x
    · simp only [Function.update_of_ne hc]
      exact hs.window c
  · intro c
    obtain ⟨e, he⟩ := hgrow c
    dsimp only
    rw [he, List.take_append_of_le_length (hlen c)]
    exact hs.delivered c
  · intro hi
    obtain ⟨e, he⟩ := hgrow ⟨s.i, hi⟩
    have htaken := (hs.window ⟨s.i, hi⟩).taken_le
    rw [taken_current (s := s) hi] at htaken
    dsimp only
    rw [he, List.drop_append_of_le_length (hlen _),
      List.take_append_of_le_length (by rw [List.length_drop]; omega)]
    exact hs.copied hi

/-- Where the ring is valid there is a byte to take. -/
theorem Inv.taken_lt_of_isValid {s : Capture n L} (hs : s.Inv) {b : Fin n} {pos k : ℕ}
    (h : isValid (s.buffs b) pos k = true) : s.taken b < (s.written b).length := by
  rw [isValid, List.any_eq_true] at h
  obtain ⟨j, -, hj⟩ := h
  exact (hs.window b).nonempty_of_ne_blank (of_decide_eq_true hj)

/-- The cells of the current ring are those behind what was taken. -/
theorem Inv.cellAt_next {s : Capture n L} (hs : s.Inv) (hi : s.i < n) (j : ℕ) :
    cellAt L (s.readPos ⟨s.i, hi⟩ + s.phase.copied + j) = cellAt L (s.taken ⟨s.i, hi⟩ + j) := by
  rw [hs.readPos, taken_current hi, Nat.add_assoc, cellAt_mod_add, Nat.add_assoc]

/-- A look-ahead that sees nothing but 0xFF has seen all of the ring: what is left in it is a block
of fewer than ten 0xFF. -/
theorem Inv.rest_of_not_isValid {s : Capture n L} (hs : s.Inv) (hi : s.i < n)
    (h : isValid (s.buffs ⟨s.i, hi⟩) (s.readPos ⟨s.i, hi⟩) s.phase.copied = false)
    (hrun : ¬ List.replicate 10 0xFF <:+: s.undelivered ⟨s.i, hi⟩) :
    ∃ r < 10, s.undelivered ⟨s.i, hi⟩ = List.replicate r 0xFF := by
  refine (hs.window ⟨s.i, hi⟩).rest_of_blank (fun j hj => ?_) hrun
  rw [isValid, List.any_eq_false] at h
  have hcell := h j (List.mem_range.mpr hj)
  rw [← hs.cellAt_next hi j]
  exact not_not.mp fun hne => hcell (decide_eq_true hne)

/-- A round of the fetch loop keeps the rings in order. -/
theorem Inv.iterate {s t : Capture n L} (hs : s.Inv) (h : s.iterate = some t) : t.Inv := by
  obtain ⟨k, hi, hphase, ⟨hk, hvalid, rfl⟩ | ⟨-, rfl⟩⟩ := iterate_cases h
  · have hlt := hs.taken_lt_of_isValid hvalid
    have hcell := hs.cellAt_next hi 0
    rw [hphase, Phase.copied, Nat.add_zero, Nat.add_zero, Nat.add_comm] at hcell
    have hnext := (hs.window ⟨s.i, hi⟩).next hlt
    have hcur := taken_current hi
    have hcop := hs.copied hi
    rw [hphase, Phase.copied] at hcur hcop
    simp only [hcell]
    refine ⟨?_, hs.delivered, hs.readPos, ?_, ?_⟩
    · intro b
      by_cases hb : b = ⟨s.i, hi⟩
      · subst hb
        have htake := (hs.window ⟨s.i, hi⟩).take hlt
        simp only [Function.update_self]
        convert htake using 1
        simp only [taken, if_true, hphase, Phase.copied]
        omega
      · have hne : s.i ≠ b := fun e => hb (Fin.ext e.symm)
        have hw := hs.window b
        rw [taken_of_ne hne] at hw
        simp only [Function.update_of_ne hb, taken, if_neg hne, Nat.add_zero]
        exact hw
    · simp only [Phase.copied, List.length_set]
      omega
    · intro _
      -- the byte that was put into the buffer is the one the stream has there
      have hbyte : ((s.written ⟨s.i, hi⟩).drop (s.delivered ⟨s.i, hi⟩).length)[k]? =
          some (s.buffs ⟨s.i, hi⟩ (cellAt L (s.taken ⟨s.i, hi⟩))) := by
        rw [List.getElem?_drop, ← hcur, hnext]
      simp only [Phase.copied]
      rw [List.take_add_one, List.take_add_one, List.take_set_of_le le_rfl, hcop, hbyte,
        List.getElem?_set_self hk]
  · refine ⟨?_, hs.delivered, hs.readPos, ?_, ?_⟩
    · intro b
      have hw := hs.window b
      simp only [taken, hphase, Phase.copied] at hw ⊢
      exact hw
    · have := hs.copied_le
      rwa [hphase] at this
    · intro _
      have := hs.copied hi
      rwa [hphase] at this

/-- A call of the processor takes nothing. -/
theorem Inv.taken_process {s t : Capture n L} (hs : s.Inv) {answer : Bool}
    (h : s.process answer = some t) (b : Fin n) : t.taken b = s.taken b := by
  obtain ⟨r, hi, hphase, -, -, -, hcopied, -, hdel⟩ := process_cases h
  have hdlen := hs.copied_le
  rw [hphase, Phase.copied] at hdlen
  rw [taken_of_copied_eq_zero hcopied, hdel]
  by_cases hb : b = ⟨s.i, hi⟩
  · subst hb
    rw [Function.update_self, List.length_append, List.length_take, taken_current hi, hphase,
      Phase.copied]
    omega
  · have hne : s.i ≠ b := fun e => hb (Fin.ext e.symm)
    rw [Function.update_of_ne hb, taken_of_ne hne]

/-- A call of the processor keeps the rings in order. -/
theorem Inv.process {s t : Capture n L} (hs : s.Inv) {answer : Bool}
    (h : s.process answer = some t) : t.Inv := by
  obtain ⟨r, hi, hphase, hbuffs, htmp, hwritten, hcopied, hread, hdel⟩ := process_cases h
  have hcop := hs.copied hi
  have hdlen := hs.copied_le
  rw [hphase, Phase.copied] at hcop hdlen
  have htake : (s.tmpBuff.take r).length = r := by rw [List.length_take]; omega
  have hdone : s.delivered ⟨s.i, hi⟩ ++ s.tmpBuff.take r =
      (s.written ⟨s.i, hi⟩).take ((s.delivered ⟨s.i, hi⟩).length + r) := by
    rw [hcop, List.take_add, ← hs.delivered ⟨s.i, hi⟩]
  refine ⟨?_, ?_, ?_, ?_, ?_⟩
  · intro b
    rw [hs.taken_process h, hbuffs, hwritten]
    exact hs.window b
  · intro b
    rw [hdel, hwritten]
    by_cases hb : b = ⟨s.i, hi⟩
    · subst hb
      rw [Function.update_self, List.length_append, htake, hdone]
    · rw [Function.update_of_ne hb]
      exact hs.delivered b
  · intro b
    rw [hdel, hread]
    by_cases hb : b = ⟨s.i, hi⟩
    · subst hb
      rw [Function.update_self, Function.update_self, List.length_append, htake, hs.readPos,
        Nat.mod_add_mod]
    · rw [Function.update_of_ne hb, Function.update_of_ne hb]
      exact hs.readPos b
  · rw [hcopied]
    exact Nat.zero_le _
  · intro _
    rw [hcopied, List.take_zero, List.take_zero]

end Capture

variable [NeZero L]

/-- INTERNAL: **every run keeps the invariant.**
SRC: pt_ctrl/mod.rs:330-352 -/
theorem captureMachine_inv {outLen : ℕ} {s : Capture n L}
    (hs : (captureMachine n L outLen).Reachable s) :
    s.Inv ∧ s.tmpBuff.length = outLen := by
  refine Machine.invariant _ (P := fun s => s.Inv ∧ s.tmpBuff.length = outLen) ?_ ?_ hs
  · refine ⟨⟨?_, fun _ => rfl, fun _ => (Nat.zero_mod L).symm, Nat.zero_le _, fun _ => rfl⟩,
      List.length_replicate⟩
    intro b
    rw [Capture.taken_of_copied_eq_zero rfl]
    exact Window.nil
  · rintro s a t ⟨hs, hlen⟩ hstep
    cases a with
    | write b x =>
      refine ⟨hs.write hstep, ?_⟩
      obtain ⟨-, rfl⟩ := Capture.write_cases hstep
      exact hlen
    | iterate =>
      refine ⟨hs.iterate hstep, ?_⟩
      obtain ⟨k, hi, -, ⟨-, -, rfl⟩ | ⟨-, rfl⟩⟩ := Capture.iterate_cases hstep
      · rw [List.length_set, hlen]
      · exact hlen
    | process answer =>
      refine ⟨hs.process hstep, ?_⟩
      obtain ⟨r, hi, -, -, htmp, -⟩ := Capture.process_cases hstep
      rw [htmp, hlen]

/-! ## A call without concurrent writes -/

/-- The rounds of the fetch loop together are the fetch. -/
theorem exec_iterate_fetchLoop {outLen : ℕ} {s : Capture n L} {k : ℕ} (hi : s.i < n)
    (hphase : s.phase = .fetching k) {left : ℕ} (hleft : left = s.tmpBuff.length - k) :
    ∃ m, (captureMachine n L outLen).exec s (List.replicate m .iterate) =
      some { s with
        buffs := Function.update s.buffs ⟨s.i, hi⟩
          (fetchLoop (s.readPos ⟨s.i, hi⟩) left (s.buffs ⟨s.i, hi⟩) s.tmpBuff k).1
        tmpBuff := (fetchLoop (s.readPos ⟨s.i, hi⟩) left (s.buffs ⟨s.i, hi⟩) s.tmpBuff k).2.1
        phase := .handing
          (fetchLoop (s.readPos ⟨s.i, hi⟩) left (s.buffs ⟨s.i, hi⟩) s.tmpBuff k).2.2 } := by
  induction left generalizing s k with
  | zero =>
    have hstep : (captureMachine n L outLen).step s .iterate =
        some { s with phase := .handing k } := Capture.iterate_of_length_le hphase hi (by omega)
    refine ⟨1, (Machine.exec_cons_eq_some _).mpr ⟨_, hstep, ?_⟩⟩
    rw [List.replicate_zero, Machine.exec_nil]
    simp only [fetchLoop, Function.update_eq_self]
  | succ left ih =>
    cases hiter : fetchIter (s.buffs ⟨s.i, hi⟩) (s.readPos ⟨s.i, hi⟩) k with
    | none =>
      have hstep : (captureMachine n L outLen).step s .iterate =
          some { s with phase := .handing k } := by
        simp only [captureMachine, Capture.iterate, hphase, dif_pos hi]
        rw [if_pos (by omega)]
        simp only [hiter]
      refine ⟨1, (Machine.exec_cons_eq_some _).mpr ⟨_, hstep, ?_⟩⟩
      rw [List.replicate_zero, Machine.exec_nil]
      simp only [fetchLoop, hiter, Function.update_eq_self]
    | some next =>
      obtain ⟨cur, buff⟩ := next
      have hstep : (captureMachine n L outLen).step s .iterate =
          some { s with
            buffs := Function.update s.buffs ⟨s.i, hi⟩ buff
            tmpBuff := s.tmpBuff.set k cur
            phase := .fetching (k + 1) } := by
        simp only [captureMachine, Capture.iterate, hphase, dif_pos hi]
        rw [if_pos (by omega)]
        simp only [hiter]
      obtain ⟨m, hm⟩ := ih (s := { s with
        buffs := Function.update s.buffs ⟨s.i, hi⟩ buff
        tmpBuff := s.tmpBuff.set k cur
        phase := .fetching (k + 1) }) hi rfl (by rw [List.length_set]; omega)
      refine ⟨m + 1, (Machine.exec_cons_eq_some _).mpr ⟨_, hstep, ?_⟩⟩
      rw [hm]
      simp only [Function.update_self, Function.update_idem, fetchLoop, hiter]

/-- INTERNAL: **a quiet call is `fetch_data`**: iterations from its beginning reach the call of the
processor with the ring, the output buffer and the count that `fetch_data` returns.
SRC: pt_ctrl/mod.rs:284-308, 340 -/
theorem exec_iterate_fetchData (outLen : ℕ) {s : Capture n L} (hi : s.i < n)
    (hphase : s.phase = .fetching 0) :
    ∃ m, (captureMachine n L outLen).exec s (List.replicate m .iterate) =
      some { s with
        buffs := Function.update s.buffs ⟨s.i, hi⟩
          (fetchData (s.buffs ⟨s.i, hi⟩) (s.readPos ⟨s.i, hi⟩) s.tmpBuff).1
        tmpBuff := (fetchData (s.buffs ⟨s.i, hi⟩) (s.readPos ⟨s.i, hi⟩) s.tmpBuff).2.1
        phase := .handing (fetchData (s.buffs ⟨s.i, hi⟩) (s.readPos ⟨s.i, hi⟩) s.tmpBuff).2.2 } :=
  exec_iterate_fetchLoop hi hphase rfl

namespace Capture

/-- What does not change while the driver is at rest and `fetch_data` runs, and why it has ended
when it has. -/
structure Quiet (s t : Capture n L) : Prop where
  i : t.i = s.i
  written : t.written = s.written
  delivered : t.delivered = s.delivered
  ended : ∀ r (hi : t.i < n), t.phase = .handing r → t.tmpBuff.length ≤ r ∨
    isValid (t.buffs ⟨t.i, hi⟩) (t.readPos ⟨t.i, hi⟩) r = false

/-- A quiet round of the fetch loop leaves the rest alone. -/
theorem Quiet.iterate {s t u : Capture n L} (h : s.Quiet t) (hstep : t.iterate = some u) :
    s.Quiet u := by
  obtain ⟨k, hi, -, ⟨-, -, rfl⟩ | ⟨hend, rfl⟩⟩ := iterate_cases hstep
  · refine ⟨h.i, h.written, h.delivered, ?_⟩
    intro r _ hphase
    cases hphase
  · refine ⟨h.i, h.written, h.delivered, ?_⟩
    intro r _ hphase
    cases hphase
    exact hend

end Capture

/-- The fetch loop leaves the rest alone. -/
theorem quiet_of_exec_iterate {outLen m : ℕ} {s t : Capture n L} (hphase : s.phase = .fetching 0)
    (h : (captureMachine n L outLen).exec s (List.replicate m .iterate) = some t) :
    s.Quiet t := by
  refine Machine.exec_induct (captureMachine n L outLen) (C := fun _ a => a = .iterate)
    (P := fun t => s.Quiet t) ?_ ?_ ?_ h
  · rintro t a u ht rfl hstep
    exact ht.iterate hstep
  · refine ⟨rfl, rfl, rfl, ?_⟩
    intro r _ hr
    rw [hphase] at hr
    cases hr
  · exact Machine.meets_of_forall_mem _ (fun _ a ha => List.eq_of_mem_replicate ha) _

/-- INTERNAL: **what a quiet call leaves behind** where the ring holds no ten 0xFF in a row and
fits into the output buffer.
SRC: pt_ctrl/mod.rs:284-308, 341-343 -/
theorem quiet_call {outLen m : ℕ} {s t : Capture n L} {answer : Bool}
    (hs : (captureMachine n L outLen).Reachable s) (hphase : s.phase = .fetching 0)
    (hi : s.i < n) (hrun : ¬ List.replicate 10 0xFF <:+: s.undelivered ⟨s.i, hi⟩)
    (hfit : (s.undelivered ⟨s.i, hi⟩).length ≤ outLen)
    (h : (captureMachine n L outLen).exec s
      (List.replicate m .iterate ++ [.process answer]) = some t) :
    ∃ r < 10, t.undelivered ⟨s.i, hi⟩ = List.replicate r 0xFF := by
  obtain ⟨u, hu, hlast⟩ := (Machine.exec_append _).mp h
  obtain ⟨t', hstep, ht'⟩ := (Machine.exec_cons_eq_some _).mp hlast
  obtain rfl := Option.some.inj ht'
  obtain ⟨hinv, hlen⟩ := captureMachine_inv (hs.exec _ hu)
  obtain ⟨hui, huw, hud, hended⟩ := quiet_of_exec_iterate hphase hu
  obtain ⟨r, hi', huphase, -, -, htw, -⟩ := Capture.process_cases hstep
  have hb : (⟨u.i, hi'⟩ : Fin n) = ⟨s.i, hi⟩ := Fin.ext hui
  have hrest : t'.undelivered ⟨s.i, hi⟩ = (s.undelivered ⟨s.i, hi⟩).drop r := by
    rw [Capture.undelivered, hinv.taken_process hstep, htw, huw, Capture.undelivered,
      List.drop_drop, Capture.taken_of_copied_eq_zero (s := s) (by rw [hphase, Phase.copied]), ← hb,
      Capture.taken_current hi', huphase, Phase.copied, hud]
  rcases hended r hi' huphase with hfull | hblank
  · -- the output buffer is full, so everything was copied
    refine ⟨0, by omega, ?_⟩
    rw [hrest, List.drop_of_length_le (by omega), List.replicate_zero]
  · have hsame : u.undelivered ⟨u.i, hi'⟩ = (s.undelivered ⟨s.i, hi⟩).drop r := by
      rw [← hrest, Capture.undelivered, Capture.undelivered, hinv.taken_process hstep, htw, hb]
    rw [hrest, ← hsame]
    refine hinv.rest_of_not_isValid hi' (by rw [huphase]; exact hblank) ?_
    rw [hsame]
    exact fun hin => hrun (hin.trans (List.drop_suffix _ _).isInfix)

/-- MAIN: **the ring reader delivers the streams.**  In every run of the capture loop and the
driver, over any number of rings of any length: the bytes handed to the processor for a ring are
a prefix of what its driver wrote, `read_pos` is their number modulo the length of the ring, and
every cell that does not hold a byte still to be copied is 0xFF.  Where those bytes fit into the
output buffer and no ten of them in a row are 0xFF, a call of `fetch_data` and the processor that
no write falls into comes to its end, and what it leaves in the ring is a block of fewer than ten
0xFF.
SRC: pt_ctrl/mod.rs:284-308, 330-352 -/
theorem ring_delivers_stream {outLen : ℕ} {s : Capture n L}
    (hs : (captureMachine n L outLen).Reachable s) (b : Fin n) :
    s.delivered b <+: s.written b ∧
    (s.readPos b < L ∧ s.readPos b = (s.delivered b).length % L) ∧
    (∀ k, (∀ j, s.taken b ≤ j → j < (s.written b).length → cellAt L j ≠ k) →
      s.buffs b k = 0xFF) ∧
    (s.phase = .fetching 0 → s.i = b → ¬ List.replicate 10 0xFF <:+: s.undelivered b →
      (s.undelivered b).length ≤ outLen →
      (∀ answer, ∃ m t, (captureMachine n L outLen).exec s
        (List.replicate m .iterate ++ [.process answer]) = some t) ∧
      ∀ m answer t, (captureMachine n L outLen).exec s
          (List.replicate m .iterate ++ [.process answer]) = some t →
        t.taken b = (t.delivered b).length ∧
          ∃ r < 10, t.undelivered b = List.replicate r 0xFF) := by
  obtain ⟨hinv, -⟩ := captureMachine_inv hs
  refine ⟨?_, ⟨?_, hinv.readPos b⟩, fun k => (hinv.window b).blank_of_not_held, ?_⟩
  · rw [hinv.delivered b]
    exact List.take_prefix _ _
  · rw [hinv.readPos b]
    exact Nat.mod_lt _ (Nat.pos_of_neZero L)
  · intro hphase hi hrun hfit
    obtain ⟨b, hlt⟩ := b
    obtain rfl : s.i = b := hi
    refine ⟨fun answer => ?_, fun m answer t h => ⟨?_, quiet_call hs hphase hlt hrun hfit h⟩⟩
    · have hend : ∃ m u r, (captureMachine n L outLen).exec s (List.replicate m .iterate) = some u ∧
          u.i = s.i ∧ u.phase = .handing r := by
        obtain ⟨m, hm⟩ := exec_iterate_fetchData outLen hlt hphase
        exact ⟨m, _, _, hm, rfl, rfl⟩
      obtain ⟨m, u, r, hm, hui, hur⟩ := hend
      obtain ⟨t, ht⟩ := Capture.process_isSome hur (by omega) answer
      exact ⟨m, t, (Machine.exec_append _).mpr ⟨u, hm,
        (Machine.exec_cons_eq_some _).mpr ⟨t, ht, rfl⟩⟩⟩
    · obtain ⟨u, -, hlast⟩ := (Machine.exec_append _).mp h
      obtain ⟨t', hstep, ht'⟩ := (Machine.exec_cons_eq_some _).mp hlast
      obtain rfl := Option.some.inj ht'
      obtain ⟨-, -, -, -, -, -, hcopied, -⟩ := Capture.process_cases hstep
      exact Capture.taken_of_copied_eq_zero hcopied _

/-- The ring of three cells after two writes, the second of them 0xFF. -/
def threeCells : Capture 1 3 where
  buffs _ := Function.update (Function.update (fun _ => 0xFF) 0 1) 1 0xFF
  readPos _ := 0
  tmpBuff := List.replicate 4 0
  flags _ := false
  i := 0
  phase := .fetching 0
  written _ := [1, 0xFF]
  delivered _ := []

/-- A ring of three cells: one fetch, one call, and what is left is less than ten bytes of `0xFF`.
-/
theorem ring_delivers_stream_three :
    ∃ m t, (captureMachine 1 3 4).exec threeCells
        (List.replicate m .iterate ++ [.process true]) = some t ∧
      t.delivered 0 <+: t.written 0 ∧ ∃ r < 10, t.undelivered 0 = List.replicate r 0xFF := by
  have hreach : (captureMachine 1 3 4).Reachable threeCells := by
    refine ⟨[.write 0 1, .write 0 0xFF], ?_⟩
    simp only [captureMachine, Machine.exec, Capture.write,
      Function.update_eq_const_of_subsingleton]
    rfl
  obtain ⟨-, -, -, hcall⟩ := ring_delivers_stream hreach 0
  obtain ⟨hend, hleft⟩ := hcall rfl rfl (by decide) (by decide)
  obtain ⟨m, t, ht⟩ := hend true
  exact ⟨m, t, ht, (ring_delivers_stream (hreach.exec _ ht) 0).1, (hleft m true t ht).2⟩

end PtkGenerator

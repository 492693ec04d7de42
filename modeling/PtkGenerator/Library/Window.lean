import Mathlib.Data.List.Infix
import Mathlib.Data.Nat.ModEq
import Mathlib.Logic.Function.Basic
import Mathlib.Tactic.Common

/-!
# A window moving over a ring of cells

A writer puts a stream into a ring of `L` cells, one element after the other, and a reader takes
it out again, leaving a blank in each cell.  `Window blank cells stream taken` says what the cells
hold when `taken` elements were taken: position `j` of the window `[taken, taken + L)` is the cell
`j mod L`, it holds `stream[j]` where that was written and a blank behind it.

No cell is the same position twice (`cellAt_inj`) and every cell is one (`exists_cellAt`), so a
write and a take change one position of the window and move its ends (`write`, `take`).
-/

set_option autoImplicit false

namespace RingBuffer

variable {α : Type*} {L : ℕ} [NeZero L]

/-- The cell of a position of the stream. -/
def cellAt (L : ℕ) [NeZero L] (j : ℕ) : Fin L := ⟨j % L, Nat.mod_lt _ (Nat.pos_of_neZero L)⟩

/-- Going around the ring first does not change the cell. -/
theorem cellAt_mod_add (p i : ℕ) : cellAt L (p % L + i) = cellAt L (p + i) :=
  Fin.ext (Nat.mod_add_mod p L i)

/-- Positions in one window have their own cells. -/
theorem cellAt_inj {a i j : ℕ} (hi : a ≤ i ∧ i < a + L) (hj : a ≤ j ∧ j < a + L)
    (h : cellAt L i = cellAt L j) : i = j := by
  have hmod : i % L = j % L := congrArg Fin.val h
  by_contra hne
  rcases Nat.lt_or_gt_of_ne hne with hlt | hlt
  · have hdvd : L ∣ j - i := (Nat.modEq_iff_dvd' hlt.le).mp hmod
    have := Nat.le_of_dvd (by omega) hdvd
    omega
  · have hdvd : L ∣ i - j := (Nat.modEq_iff_dvd' hlt.le).mp hmod.symm
    have := Nat.le_of_dvd (by omega) hdvd
    omega

/-- Every cell is that of a position in the window. -/
theorem exists_cellAt (a : ℕ) (k : Fin L) : ∃ j, a ≤ j ∧ j < a + L ∧ cellAt L j = k := by
  have hk := k.2
  have hr := Nat.mod_lt a (Nat.pos_of_neZero L)
  have ha := Nat.div_add_mod a L
  by_cases hle : a % L ≤ k
  · refine ⟨L * (a / L) + k, by omega, by omega, Fin.ext ?_⟩
    change (L * (a / L) + k) % L = k
    rw [Nat.mul_add_mod, Nat.mod_eq_of_lt hk]
  · refine ⟨L * (a / L) + (L + k), by omega, by omega, Fin.ext ?_⟩
    change (L * (a / L) + (L + k)) % L = k
    rw [Nat.mul_add_mod, Nat.add_mod_left, Nat.mod_eq_of_lt hk]

/-- What the cells hold when `taken` elements of the stream were taken. -/
structure Window (blank : α) (cells : Fin L → α) (stream : List α) (taken : ℕ) : Prop where
  taken_le : taken ≤ stream.length
  length_le : stream.length ≤ taken + L
  held : ∀ j, taken ≤ j → j < stream.length → stream[j]? = some (cells (cellAt L j))
  free : ∀ j, stream.length ≤ j → j < taken + L → cells (cellAt L j) = blank

namespace Window

variable {blank : α} {cells : Fin L → α} {stream : List α} {taken : ℕ}

/-- A ring of blanks, before anything is written. -/
theorem nil : Window blank (fun _ : Fin L => blank) [] 0 :=
  ⟨le_rfl, Nat.zero_le _, fun j _ hj => absurd hj (Nat.not_lt_zero j), fun _ _ _ => rfl⟩

/-- INTERNAL: **the writer** puts the next element behind the last one. -/
theorem write (h : Window blank cells stream taken) (hroom : stream.length < taken + L) (x : α) :
    Window blank (Function.update cells (cellAt L stream.length) x) (stream ++ [x]) taken := by
  have hlen : (stream ++ [x]).length = stream.length + 1 := by simp
  have htaken := h.taken_le
  have hother : ∀ j, taken ≤ j → j < taken + L → j ≠ stream.length →
      Function.update cells (cellAt L stream.length) x (cellAt L j) = cells (cellAt L j) := by
    intro j h₁ h₂ hne
    exact Function.update_of_ne (fun e => hne (cellAt_inj ⟨h₁, h₂⟩ ⟨htaken, hroom⟩ e)) _ _
  refine ⟨by omega, by omega, ?_, ?_⟩
  · intro j h₁ h₂
    by_cases hj : j = stream.length
    · subst hj
      rw [Function.update_self, List.getElem?_concat_length]
    · rw [hother j h₁ (by omega) hj, List.getElem?_append_left (by omega), h.held j h₁ (by omega)]
  · intro j h₁ h₂
    rw [hother j (by omega) h₂ (by omega), h.free j (by omega) h₂]

/-- The next of the stream is in the cell of what was taken. -/
theorem next (h : Window blank cells stream taken) (hne : taken < stream.length) :
    stream[taken]? = some (cells (cellAt L taken)) := h.held taken le_rfl hne

/-- INTERNAL: **the reader** blanks the cell of the element it takes. -/
theorem take (h : Window blank cells stream taken) (hne : taken < stream.length) :
    Window blank (Function.update cells (cellAt L taken) blank) stream (taken + 1) := by
  have hlen := h.length_le
  have hpos := Nat.pos_of_neZero L
  have hother : ∀ j, taken ≤ j → j < taken + L → j ≠ taken →
      Function.update cells (cellAt L taken) blank (cellAt L j) = cells (cellAt L j) := by
    intro j h₁ h₂ hj
    exact Function.update_of_ne
      (fun e => hj (cellAt_inj ⟨h₁, h₂⟩ ⟨le_rfl, by omega⟩ e)) _ _
  refine ⟨hne, by omega, ?_, ?_⟩
  · intro j h₁ h₂
    rw [hother j (by omega) (by omega) (by omega), h.held j (by omega) h₂]
  · intro j h₁ h₂
    by_cases hj : j = taken + L
    · -- the cell that was just blanked is the last one of the new window
      have hcell : cellAt L j = cellAt L taken := Fin.ext (by rw [hj]; exact Nat.add_mod_right _ _)
      rw [hcell, Function.update_self]
    · rw [hother j (by omega) (by omega) (by omega), h.free j h₁ (by omega)]

/-- A cell of no position in the window is blank. -/
theorem blank_of_not_held (h : Window blank cells stream taken) {k : Fin L}
    (hk : ∀ j, taken ≤ j → j < stream.length → cellAt L j ≠ k) : cells k = blank := by
  obtain ⟨j, h₁, h₂, rfl⟩ := exists_cellAt taken k
  by_cases hj : j < stream.length
  · exact absurd rfl (hk j h₁ hj)
  · exact h.free j (by omega) h₂

/-- Where a cell is not blank, something is left to take. -/
theorem nonempty_of_ne_blank (h : Window blank cells stream taken) {k : Fin L}
    (hk : cells k ≠ blank) : taken < stream.length := by
  by_contra hle
  exact hk (h.blank_of_not_held fun j h₁ h₂ => absurd h₂ (by omega))

/-- INTERNAL: **the look-ahead.** If the next `m` cells are blank and no `m` elements that follow
each other in the rest of the stream are, that rest is a block of fewer than `m` blanks. -/
theorem rest_of_blank (h : Window blank cells stream taken) {m : ℕ}
    (hahead : ∀ j < m, cells (cellAt L (taken + j)) = blank)
    (hrun : ¬ List.replicate m blank <:+: stream.drop taken) :
    ∃ r < m, stream.drop taken = List.replicate r blank := by
  have hlen : (stream.drop taken).length = stream.length - taken := List.length_drop
  have hget : ∀ j < m, j < stream.length - taken → (stream.drop taken)[j]? = some blank := by
    intro j hj hlt
    rw [List.getElem?_drop, h.held (taken + j) (by omega) (by omega), hahead j hj]
  have hshort : stream.length - taken < m := by
    by_contra hle
    apply hrun
    have htake : (stream.drop taken).take m = List.replicate m blank := by
      apply List.ext_getElem?
      intro j
      by_cases hj : j < m
      · rw [List.getElem?_take_of_lt hj, hget j hj (by omega), List.getElem?_replicate, if_pos hj]
      · rw [List.getElem?_eq_none (by rw [List.length_take]; omega),
          List.getElem?_eq_none (by rw [List.length_replicate]; omega)]
    rw [← htake]
    exact (List.take_prefix _ _).isInfix
  refine ⟨stream.length - taken, hshort, List.ext_getElem? fun j => ?_⟩
  by_cases hj : j < stream.length - taken
  · rw [hget j (by omega) hj, List.getElem?_replicate, if_pos hj]
  · rw [List.getElem?_eq_none (by omega),
      List.getElem?_eq_none (by rw [List.length_replicate]; omega)]

end Window

end RingBuffer

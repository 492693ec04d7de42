import Mathlib.Data.List.Basic
import Mathlib.Tactic.Common

/-!
# Reading ranges of a partial memory

A memory is a partial function from addresses to bytes.  `readRange mem a n` is the `n` bytes
from `a` on, `none` when one of them is not readable.  A range splits at any point
(`readRange_add`), and a range read out of one that was read is a slice of it
(`readRange_slice`), which is all that a cache of larger blocks relies on.  `Tiles` says that pieces
make up a range without gaps and without overlaps.
-/

set_option autoImplicit false

namespace Ranges

variable {B : Type*}

/-- The `n` bytes from `a` on, if all of them are readable. -/
def readRange (mem : ℕ → Option B) : ℕ → ℕ → Option (List B)
  | _, 0 => some []
  | a, n + 1 => (mem a).bind fun b => (readRange mem (a + 1) n).map (b :: ·)

variable (mem : ℕ → Option B)

/-- The empty range is always readable. -/
@[simp] theorem readRange_zero (a : ℕ) : readRange mem a 0 = some [] := rfl

/-- A range is read by its first cell and the rest. -/
theorem readRange_succ (a n : ℕ) :
    readRange mem a (n + 1) = (mem a).bind fun b => (readRange mem (a + 1) n).map (b :: ·) := rfl

/-- As many cells are read as were asked for. -/
theorem length_of_readRange {a n : ℕ} {l : List B} (h : readRange mem a n = some l) :
    l.length = n := by
  induction n generalizing a l with
  | zero =>
    rw [readRange_zero, Option.some.injEq] at h
    simp [← h]
  | succ n ih =>
    simp only [readRange_succ, Option.bind_eq_some_iff, Option.map_eq_some_iff] at h
    obtain ⟨b, -, bs, hbs, rfl⟩ := h
    simp [ih hbs]

/-- A range is read part by part. -/
theorem readRange_add (a m n : ℕ) :
    readRange mem a (m + n) =
      (readRange mem a m).bind fun l => (readRange mem (a + m) n).map (l ++ ·) := by
  induction m generalizing a with
  | zero => simp
  | succ m ih =>
    rw [show m + 1 + n = m + n + 1 from by omega, readRange_succ, readRange_succ, ih,
      show a + (m + 1) = a + 1 + m from by omega]
    cases mem a with
    | none => rfl
    | some b =>
      cases readRange mem (a + 1) m with
      | none => rfl
      | some l => cases readRange mem (a + 1 + m) n <;> rfl

/-- Two adjacent ranges that are readable are one. -/
theorem readRange_append {a m n : ℕ} {l k : List B} (hl : readRange mem a m = some l)
    (hk : readRange mem (a + m) n = some k) : readRange mem a (m + n) = some (l ++ k) := by
  rw [readRange_add, hl, Option.bind_some, hk, Option.map_some]

/-- Both parts of a readable range are readable. -/
theorem readRange_split {a m n : ℕ} {l : List B} (h : readRange mem a (m + n) = some l) :
    readRange mem a m = some (l.take m) ∧ readRange mem (a + m) n = some (l.drop m) := by
  rw [readRange_add] at h
  simp only [Option.bind_eq_some_iff, Option.map_eq_some_iff] at h
  obtain ⟨l₁, h₁, l₂, h₂, rfl⟩ := h
  have hlen := length_of_readRange mem h₁
  constructor
  · rw [h₁, List.take_left' hlen]
  · rw [h₂, List.drop_left' hlen]

/-- INTERNAL: **a slice of a range that is read** is what reading the slice gives. -/
theorem readRange_slice {a n k m : ℕ} {l : List B} (h : readRange mem a n = some l)
    (hk : k + m ≤ n) : readRange mem (a + k) m = some ((l.drop k).take m) := by
  obtain ⟨r, rfl⟩ := Nat.exists_eq_add_of_le hk
  rw [Nat.add_assoc] at h
  exact (readRange_split mem (readRange_split mem h).2).1

/-! ## Ranges in pieces -/

/-- The pieces, each an address and a length, follow each other from `a` on and make up `n`. -/
def Tiles : ℕ → ℕ → List (ℕ × ℕ) → Prop
  | _, n, [] => n = 0
  | a, n, (b, m) :: ps => b = a ∧ m ≤ n ∧ Tiles (a + m) (n - m) ps

namespace Tiles

variable {a n : ℕ} {ps : List (ℕ × ℕ)}

/-- No piece of a tiling starts before the range. -/
theorem le (h : Tiles a n ps) : ∀ p ∈ ps, a ≤ p.1 := by
  induction ps generalizing a n with
  | nil => exact fun p hp => absurd hp List.not_mem_nil
  | cons q ps ih =>
    obtain ⟨rfl, -, hrest⟩ := h
    intro p hp
    rcases List.mem_cons.mp hp with rfl | hp
    · exact Nat.le_refl _
    · exact Nat.le_trans (Nat.le_add_right _ _) (ih hrest p hp)

/-- INTERNAL: **the pieces cover the range**, and nothing else. -/
theorem mem_iff (h : Tiles a n ps) (x : ℕ) :
    (a ≤ x ∧ x < a + n) ↔ ∃ p ∈ ps, p.1 ≤ x ∧ x < p.1 + p.2 := by
  induction ps generalizing a n with
  | nil =>
    have hn : n = 0 := h
    simp only [List.not_mem_nil, false_and, exists_false, iff_false]
    omega
  | cons q ps ih =>
    obtain ⟨b, m⟩ := q
    obtain ⟨rfl, hle, hrest⟩ := h
    have htail := ih hrest
    rw [List.exists_mem_cons_iff, ← htail]
    dsimp only
    omega

/-- The pieces do not overlap. -/
theorem pairwise (h : Tiles a n ps) : ps.Pairwise fun p q => p.1 + p.2 ≤ q.1 := by
  induction ps generalizing a n with
  | nil => exact .nil
  | cons q ps ih =>
    obtain ⟨b, m⟩ := q
    obtain ⟨rfl, -, hrest⟩ := h
    exact .cons (hrest.le) (ih hrest)

end Tiles

end Ranges

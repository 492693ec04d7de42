import Mathlib.Data.List.Basic
import Mathlib.Tactic.Common

/-!
# Cutting a list at offsets

`segments d os` are the pieces of `d` between consecutive offsets.  They are local: a piece
depends on the elements between its two offsets only, so neither what is appended to `d`
(`segments_append_right`) nor what is dropped before the first offset (`segments_drop`) changes
them, and the pieces up to an offset and those from it on are all the pieces
(`segments_split`).  With what lies behind the last offset they make up `d` from the first one
on (`flatten_segments`).
-/

set_option autoImplicit false

namespace Cuts

variable {α : Type*}

/-- The pieces of `d` between consecutive offsets. -/
def segments (d : List α) : List ℕ → List (List α)
  | [] => []
  | [_] => []
  | a :: b :: os => (d.drop a).take (b - a) :: segments d (b :: os)

/-- The part of `d` from the first offset on; all of it while there is none. -/
def fromFirst (d : List α) (os : List ℕ) : List α := d.drop (os.head?.getD 0)

/-- The part of `d` from the last offset on; all of it while there is none. -/
def fromLast (d : List α) (os : List ℕ) : List α := d.drop (os.getLast?.getD 0)

/-- Without an offset there is no segment. -/
@[simp] theorem segments_nil (d : List α) : segments d [] = [] := rfl

/-- One offset bounds no segment. -/
@[simp] theorem segments_singleton (d : List α) (a : ℕ) : segments d [a] = [] := rfl

/-- Two offsets in a row bound a segment. -/
theorem segments_cons_cons (d : List α) (a b : ℕ) (os : List ℕ) :
    segments d (a :: b :: os) = (d.drop a).take (b - a) :: segments d (b :: os) := rfl

/-- The segments split at any of the offsets. -/
theorem segments_split (d : List α) (xs : List ℕ) (m : ℕ) (ys : List ℕ) :
    segments d (xs ++ m :: ys) = segments d (xs ++ [m]) ++ segments d (m :: ys) := by
  induction xs with
  | nil => simp
  | cons a xs ih =>
    cases xs with
    | nil => simp [segments_cons_cons]
    | cons b xs =>
      rw [List.cons_append, List.cons_append, segments_cons_cons, ← List.cons_append, ih,
        List.cons_append, List.cons_append, List.cons_append, segments_cons_cons, List.cons_append]

/-- What is appended behind the offsets does not change the segments. -/
theorem segments_append_right (d e : List α) {os : List ℕ} (h : ∀ o ∈ os, o ≤ d.length) :
    segments (d ++ e) os = segments d os := by
  induction os with
  | nil => rfl
  | cons a os ih =>
    cases os with
    | nil => rfl
    | cons b os =>
      have ha : a ≤ d.length := h a (by simp)
      have hb : b ≤ d.length := h b (by simp)
      rw [segments_cons_cons, segments_cons_cons, ih fun o ho => h o (List.mem_cons_of_mem a ho),
        List.drop_append_of_le_length ha,
        List.take_append_of_le_length (by rw [List.length_drop]; omega)]

/-- Dropping what is before the offsets shifts them and keeps the segments. -/
theorem segments_drop (d : List α) (m : ℕ) {os : List ℕ} (h : ∀ o ∈ os, m ≤ o) :
    segments (d.drop m) (os.map (· - m)) = segments d os := by
  induction os with
  | nil => rfl
  | cons a os ih =>
    cases os with
    | nil => rfl
    | cons b os =>
      have ha : m ≤ a := h a (by simp)
      have hb : m ≤ b := h b (by simp)
      have htail := ih fun o ho => h o (List.mem_cons_of_mem a ho)
      simp only [List.map_cons] at htail ⊢
      rw [segments_cons_cons, segments_cons_cons, htail, List.drop_drop,
        show m + (a - m) = a from by omega, show b - m - (a - m) = b - a from by omega]

/-- Only the offsets from the last on matter for what is behind the last. -/
theorem fromLast_append_cons (d : List α) (xs : List ℕ) (m : ℕ) (ys : List ℕ) :
    fromLast d (xs ++ m :: ys) = fromLast d (m :: ys) := by
  rw [fromLast, fromLast, List.getLast?_append_cons]

/-- Dropping what is before the offsets keeps what is behind the last. -/
theorem fromLast_drop (d : List α) (m : ℕ) {os : List ℕ} (hne : os ≠ []) (h : ∀ o ∈ os, m ≤ o) :
    fromLast (d.drop m) (os.map (· - m)) = fromLast d os := by
  have hlast := h _ (List.getLast_mem hne)
  rw [fromLast, fromLast, List.getLast?_map, List.getLast?_eq_some_getLast hne, Option.map_some,
    Option.getD_some, Option.getD_some, List.drop_drop,
    show m + (os.getLast hne - m) = os.getLast hne from by omega]

/-- INTERNAL: **the pieces and the rest** are everything from the first offset on. -/
theorem flatten_segments (d : List α) {os : List ℕ} (h : os.Pairwise (· < ·)) :
    (segments d os).flatten ++ fromLast d os = fromFirst d os := by
  induction os with
  | nil => rfl
  | cons a os ih =>
    cases os with
    | nil => rfl
    | cons b os =>
      have hab : a < b := (List.pairwise_cons.mp h).1 b (by simp)
      have htail := ih (List.pairwise_cons.mp h).2
      have hlast : fromLast d (a :: b :: os) = fromLast d (b :: os) := by
        rw [fromLast, fromLast, List.getLast?_cons_cons]
      rw [segments_cons_cons, List.flatten_cons, List.append_assoc, hlast, htail]
      change (d.drop a).take (b - a) ++ d.drop b = d.drop a
      rw [show d.drop b = (d.drop a).drop (b - a) from by
        rw [List.drop_drop, show a + (b - a) = b from by omega], List.take_append_drop]

end Cuts

import Mathlib.Data.List.Basic
import Mathlib.Tactic.Common

/-!
# Texts that end in a number

A number in decimal has no characters but digits, so what stands before it can be told from it as
soon as some other character separates the two (`append_repr_inj`).
-/

set_option autoImplicit false

namespace Decimal

variable {α : Type*}

/-- Lists that agree, each with the same mark before a tail without it, agree in both parts. -/
theorem append_cons_cancel {x : α} {a b d e : List α} (hd : x ∉ d) (he : x ∉ e)
    (h : a ++ x :: d = b ++ x :: e) : a = b ∧ d = e := by
  rcases List.append_eq_append_iff.mp h with ⟨c, hb, hc⟩ | ⟨c, ha, hc⟩
  · cases c with
    | nil =>
      rw [List.append_nil] at hb
      exact ⟨hb.symm, (List.cons.inj hc).2⟩
    | cons y c =>
      obtain ⟨-, rfl⟩ := List.cons.inj hc
      exact absurd (by simp) hd
  · cases c with
    | nil =>
      rw [List.append_nil] at ha
      exact ⟨ha, (List.cons.inj hc).2.symm⟩
    | cons y c =>
      obtain ⟨-, rfl⟩ := List.cons.inj hc
      exact absurd (by simp) he

/-- A character that is no digit is not in the decimal numeral. -/
theorem notMem_repr {c : Char} (hc : c.isDigit = false) (n : ℕ) : c ∉ (Nat.repr n).toList := by
  intro h
  rw [Nat.toList_repr] at h
  have := Nat.isDigit_of_mem_toDigits (by decide) (by decide) h
  rw [hc] at this
  cases this

/-- The decimal numeral determines the number. -/
theorem toList_repr_inj {m n : ℕ} (h : (Nat.repr m).toList = (Nat.repr n).toList) : m = n := by
  rw [Nat.toList_repr, Nat.toList_repr] at h
  rw [← Nat.ofDigitChars_ten_toDigits (n := m), h, Nat.ofDigitChars_ten_toDigits]

/-- INTERNAL: a text with a number at its end, behind a character that is no digit. -/
theorem append_repr_inj {c : Char} (hc : c.isDigit = false) {a b : List Char} {m n : ℕ}
    (h : a ++ c :: (Nat.repr m).toList = b ++ c :: (Nat.repr n).toList) : a = b ∧ m = n := by
  obtain ⟨hab, hmn⟩ := append_cons_cancel (notMem_repr hc m) (notMem_repr hc n) h
  exact ⟨hab, toList_repr_inj hmn⟩

end Decimal

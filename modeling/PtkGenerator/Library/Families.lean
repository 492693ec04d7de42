import Mathlib.Algebra.BigOperators.Group.Finset.Piecewise
import Mathlib.Algebra.GroupWithZero.Nat
import Mathlib.Algebra.Order.BigOperators.Group.Finset
import Mathlib.Data.Fintype.Basic
import Mathlib.Tactic.Common

/-!
# Finite families, updated one member at a time

A system of several parties is a family of states, and a step of one party changes one member.
What holds of every member then has to be looked at for that member only (`forall_update`, or
`forall_set` for a list), and a quantity summed over the parties changes by what it changes for it
(`sum_update_add`).
-/

set_option autoImplicit false

namespace Families

variable {ι β M : Type*} [DecidableEq ι]

/-- What holds of every member holds behind an update at the member that it gives. -/
theorem forall_update {P : ι → β → Prop} {f : ι → β} {i : ι} {b : β} (h : ∀ j, P j (f j))
    (hb : P i b) (j : ι) : P j (Function.update f i b j) := by
  by_cases hj : j = i
  · subst hj
    rwa [Function.update_self]
  · rw [Function.update_of_ne hj]
    exact h j

/-- What holds of every member of a list holds behind a replacement of one that has it. -/
theorem forall_set {P : ℕ → β → Prop} {l : List β} {i : ℕ} {b : β} (hb : P i b)
    (h : ∀ j a, i ≠ j → l[j]? = some a → P j a) (j : ℕ) (a : β)
    (ha : (l.set i b)[j]? = some a) : P j a := by
  rw [List.getElem?_set] at ha
  split at ha
  · next hij =>
    subst hij
    rw [Option.ite_none_right_eq_some] at ha
    obtain rfl := Option.some.inj ha.2
    exact hb
  · next hij => exact h j a hij ha

/-- A sum grows by what the updated summand grows. -/
theorem sum_update_add [Fintype ι] [AddCommMonoid M] {g : ι → β → M} {f : ι → β} {i : ι} {b : β}
    {x : M} (h : g i b = g i (f i) + x) :
    ∑ j, g j (Function.update f i b j) = (∑ j, g j (f j)) + x := by
  have hupdate : (fun j => g j (Function.update f i b j)) =
      Function.update (fun j => g j (f j)) i (g i b) := by
    funext j
    exact Function.apply_update g f i b j
  rw [hupdate, Finset.sum_update_of_mem (Finset.mem_univ i),
    Finset.sum_eq_add_sum_sdiff_singleton_of_mem (Finset.mem_univ i) (fun j => g j (f j)), h,
    add_right_comm]

/-- A sum shrinks by what the updated summand shrinks. -/
theorem add_sum_update [Fintype ι] [AddCommMonoid M] {g : ι → β → M} {f : ι → β} {i : ι} {b : β}
    {x : M} (h : g i b + x = g i (f i)) :
    (∑ j, g j (Function.update f i b j)) + x = ∑ j, g j (f j) := by
  have hback := sum_update_add (f := Function.update f i b) (b := f i) (g := g) (i := i) (x := x)
    (by rw [Function.update_self, h])
  rw [Function.update_idem, Function.update_eq_self] at hback
  exact hback.symm

/-- An update exchanges one summand of the sum. -/
theorem sum_update_swap [Fintype ι] [AddCommMonoid M] (g : ι → β → M) (f : ι → β) (i : ι)
    (b : β) : (∑ j, g j (Function.update f i b j)) + g i (f i) = (∑ j, g j (f j)) + g i b := by
  have hupdate : (fun j => g j (Function.update f i b j)) =
      Function.update (fun j => g j (f j)) i (g i b) := by
    funext j
    exact Function.apply_update g f i b j
  rw [hupdate, Finset.sum_update_of_mem (Finset.mem_univ i),
    Finset.sum_eq_add_sum_sdiff_singleton_of_mem (Finset.mem_univ i) (fun j => g j (f j)),
    add_right_comm, add_comm (g i b), add_right_comm]

/-- An update that keeps the summand keeps the sum. -/
theorem sum_update_eq [Fintype ι] [AddCommMonoid M] {g : ι → β → M} {f : ι → β} {i : ι} {b : β}
    (h : g i b = g i (f i)) : ∑ j, g j (Function.update f i b j) = ∑ j, g j (f j) := by
  rw [sum_update_add (x := 0) (by rw [h, add_zero]), add_zero]

/-- Two sums that differ in one summand upwards differ by no more than that summand does. -/
theorem sum_add_le_of_ne [Fintype ι] {f g : ι → ℕ} {i : ι} (h : ∀ j, j ≠ i → f j ≤ g j) :
    (∑ j, f j) + g i ≤ (∑ j, g j) + f i := by
  have hf := Finset.sum_eq_add_sum_sdiff_singleton_of_mem (Finset.mem_univ i) f
  have hg := Finset.sum_eq_add_sum_sdiff_singleton_of_mem (Finset.mem_univ i) g
  have hrest : ∑ j ∈ Finset.univ \ {i}, f j ≤ ∑ j ∈ Finset.univ \ {i}, g j :=
    Finset.sum_le_sum fun j hj => h j (by simpa using hj)
  omega

/-- Naturals that sum up to one are one in one place and zero elsewhere. -/
theorem exists_one_of_sum_eq_one [Fintype ι] {f : ι → ℕ} (h : ∑ j, f j = 1) :
    ∃ i, f i = 1 ∧ ∀ j, j ≠ i → f j = 0 := by
  obtain ⟨i, -, hi⟩ := Finset.exists_ne_zero_of_sum_ne_zero (by rw [h]; exact one_ne_zero)
  have hsplit := Finset.sum_eq_add_sum_sdiff_singleton_of_mem (Finset.mem_univ i) f
  have hrest : ∑ j ∈ Finset.univ \ {i}, f j = 0 := by omega
  refine ⟨i, by omega, fun j hj => ?_⟩
  exact Finset.sum_eq_zero_iff.mp hrest j (by simpa using hj)

/-- Putting a member in its own place changes nothing. -/
theorem set_of_getElem? {l : List β} {i : ℕ} {a : β} (h : l[i]? = some a) : l.set i a = l := by
  obtain ⟨hi, rfl⟩ := List.getElem?_eq_some_iff.mp h
  exact List.set_getElem_self hi

/-- A replacement exchanges one summand of a list. -/
theorem sum_map_set [AddCommMonoid M] {l : List β} {i : ℕ} {a b : β} (h : l[i]? = some a)
    (f : β → M) : ((l.set i b).map f).sum + f a = (l.map f).sum + f b := by
  induction l generalizing i with
  | nil => cases h
  | cons x l ih =>
    cases i with
    | zero =>
      obtain rfl := Option.some.inj h
      simp only [List.set_cons_zero, List.map_cons, List.sum_cons]
      rw [add_right_comm, add_comm (f b) (f x), add_right_comm]
    | succ i =>
      simp only [List.set_cons_succ, List.map_cons, List.sum_cons]
      rw [add_assoc, ih h, ← add_assoc]

end Families

import Mathlib.Algebra.BigOperators.Pi
import Mathlib.Algebra.Group.WithOne.Basic
import Mathlib.Data.Finmap

/-!
# Finite maps of summands

A loop that goes through a finite map and, at each key, adds the value to the entry another
map has there or inserts it when there is none, computes a sum.  To say of what, a map is read
as a function into `WithZero A`: the value at a present key, `0` at a missing one.  These
functions form a commutative monoid, so the order in which maps are merged and the order in
which each of them is traversed drop out by `List.Perm.sum_eq`.

`total` is that reading, `upsert` is the insert-or-update step, `total_upsert` says what one
step adds and `sum_order` that a traversal of a map adds the map.
-/

set_option autoImplicit false

namespace SumMap

variable {K V A : Type*} [DecidableEq K]

/-- The entry a map has at a key, as a summand: `0` where the key is missing. -/
def summand (val : V → A) : Option V → WithZero A
  | none => 0
  | some v => (val v : WithZero A)

/-- A key that is absent has the summand zero. -/
@[simp] theorem summand_none (val : V → A) : summand val none = 0 := rfl

/-- A key that is present has its value as summand. -/
@[simp] theorem summand_some (val : V → A) (v : V) : summand val (some v) = (val v : A) := rfl

/-- A finite map as a function to summands. -/
def total (val : V → A) (m : Finmap fun _ : K => V) : K → WithZero A :=
  fun k => summand val (m.lookup k)

/-- The summand `a` at the key `k` and nothing elsewhere. -/
def single (k : K) (a : A) : K → WithZero A := Pi.single k (a : WithZero A)

/-- Update the entry at `k` by `f`, or insert `v` when there is none. -/
def upsert (f : V → V) (v : V) (k : K) (m : Finmap fun _ : K => V) : Finmap fun _ : K => V :=
  match m.lookup k with
  | some old => m.insert k (f old)
  | none => m.insert k v

/-- `l` is one order in which the entries of `m` can be visited. -/
def Order (m : Finmap fun _ : K => V) (l : List (Σ _ : K, V)) : Prop :=
  (l : Multiset (Σ _ : K, V)) = m.entries

/-- The empty map has nothing anywhere. -/
@[simp] theorem total_empty (val : V → A) : total val (∅ : Finmap fun _ : K => V) = 0 := by
  funext k
  simp [total]

/-- An insertion sets the total at its key. -/
theorem total_insert (val : V → A) (m : Finmap fun _ : K => V) (k : K) (v : V) :
    total val (m.insert k v) = Function.update (total val m) k (val v : A) := by
  funext j
  by_cases h : j = k
  · subst h
    simp [total]
  · simp [total, h, Finmap.lookup_insert_of_ne]

/-- INTERNAL: a key is present exactly when it has a summand, be its value zero or not. -/
theorem mem_iff_total_ne_zero (val : V → A) (m : Finmap fun _ : K => V) (k : K) :
    k ∈ m ↔ total val m k ≠ 0 := by
  rw [← Finmap.lookup_isSome, total]
  cases m.lookup k <;> simp

/-- The totals determine a map whose values are told apart. -/
theorem total_injective {val : V → A} (hval : Function.Injective val) :
    Function.Injective (total val : (Finmap fun _ : K => V) → K → WithZero A) := by
  intro m m' h
  apply Finmap.ext_lookup
  intro k
  have hk : summand val (m.lookup k) = summand val (m'.lookup k) := congrFun h k
  cases h₁ : m.lookup k with
  | none =>
    cases h₂ : m'.lookup k with
    | none => rfl
    | some v' =>
      rw [h₁, h₂, summand_none, summand_some] at hk
      exact absurd hk.symm WithZero.coe_ne_zero
  | some v =>
    cases h₂ : m'.lookup k with
    | none =>
      rw [h₁, h₂, summand_none, summand_some] at hk
      exact absurd hk WithZero.coe_ne_zero
    | some v' =>
      rw [h₁, h₂, summand_some, summand_some, WithZero.coe_inj] at hk
      rw [hval hk]

omit [DecidableEq K] in
/-- The keys of an order are distinct. -/
theorem Order.nodupKeys {m : Finmap fun _ : K => V} {l : List (Σ _ : K, V)} (h : Order m l) :
    l.NodupKeys := by
  have := m.nodupKeys
  rw [← h] at this
  exact Multiset.coe_nodupKeys.mp this

/-- An order has at each key what the map has. -/
theorem Order.dlookup {m : Finmap fun _ : K => V} {l : List (Σ _ : K, V)} (h : Order m l)
    (k : K) : l.dlookup k = m.lookup k := by
  have hnd := h.nodupKeys
  induction m using Finmap.induction_on with
  | H a =>
    rw [Finmap.lookup_toFinmap, AList.lookup]
    exact List.perm_dlookup k hnd (Multiset.coe_eq_coe.mp h)

omit [DecidableEq K] in
/-- Every map has an order of its entries. -/
theorem order_of_entries (m : Finmap fun _ : K => V) : ∃ l, Order m l :=
  ⟨m.entries.toList, Multiset.coe_toList _⟩

/-- INTERNAL: inserting the entries of a list one after the other, no key of which occurs twice,
leaves at each key what the list has there, and what was there before where it has nothing. -/
theorem lookup_foldl_insert {W : Type*} (g : V → W) (l : List (Σ _ : K, V)) (hl : l.NodupKeys)
    (m : Finmap fun _ : K => W) (k : K) :
    (l.foldl (fun m e => m.insert e.1 (g e.2)) m).lookup k =
      ((l.dlookup k).map g).or (m.lookup k) := by
  induction l generalizing m with
  | nil => simp
  | cons e l ih =>
    rw [List.nodupKeys_cons] at hl
    rw [List.foldl_cons, ih hl.2]
    by_cases h : k = e.1
    · subst h
      rw [List.dlookup_eq_none.mpr hl.1, List.dlookup_cons_eq]
      simp
    · rw [List.dlookup_cons_ne l e h, Finmap.lookup_insert_of_ne _ h]

/-- INTERNAL: a map is what inserting its entries into the empty map makes, in whatever order. -/
theorem foldl_insert_of_order {m : Finmap fun _ : K => V} {l : List (Σ _ : K, V)}
    (h : Order m l) : l.foldl (fun m e => m.insert e.1 e.2) ∅ = m := by
  apply Finmap.ext_lookup
  intro k
  have hk := lookup_foldl_insert (fun v : V => v) l h.nodupKeys ∅ k
  rw [hk, h.dlookup, Finmap.lookup_empty, Option.or_none, Option.map_id']

/-- INTERNAL: entries without a repeated key are the entries of the map they are inserted in. -/
theorem order_foldl_insert {l : List (Σ _ : K, V)} (hl : l.NodupKeys) :
    Order (l.foldl (fun m e => m.insert e.1 e.2) ∅) l := by
  let m : Finmap fun _ : K => V := ⟨l, Multiset.coe_nodupKeys.mpr hl⟩
  have hm : Order m l := rfl
  rw [foldl_insert_of_order hm]
  exact hm

/-- Entries of a visit come from entries of what is visited. -/
theorem exists_of_mem_right {α β : Type*} {R : α → β → Prop} {l : List α} {m : List β}
    (h : List.Forall₂ R l m) {b : β} (hb : b ∈ m) : ∃ a ∈ l, R a b := by
  induction h with
  | nil => cases hb
  | cons hab _ ih =>
    rcases List.mem_cons.mp hb with rfl | hb
    · exact ⟨_, List.mem_cons_self, hab⟩
    · obtain ⟨a, ha, hR⟩ := ih hb
      exact ⟨a, List.mem_cons_of_mem _ ha, hR⟩

/-- The keys after insertions are those before and those inserted. -/
theorem mem_foldl_insert (l : List (Σ _ : K, V)) (m : Finmap fun _ : K => V) (k : K) :
    k ∈ l.foldl (fun m e => m.insert e.1 e.2) m ↔ k ∈ l.map Sigma.fst ∨ k ∈ m := by
  induction l generalizing m with
  | nil => simp
  | cons e l ih =>
    rw [List.foldl_cons, ih, Finmap.mem_insert, List.map_cons, List.mem_cons]
    tauto

/-- An insertion at a key that the others leave alone may come last. -/
theorem foldl_insert_insert {l : List (Σ _ : K, V)} {k : K} (h : ∀ e ∈ l, k ≠ e.1) (v : V)
    (m : Finmap fun _ : K => V) :
    l.foldl (fun m e => m.insert e.1 e.2) (m.insert k v) =
      (l.foldl (fun m e => m.insert e.1 e.2) m).insert k v := by
  induction l generalizing m with
  | nil => rfl
  | cons e l ih =>
    rw [List.forall_mem_cons] at h
    rw [List.foldl_cons, List.foldl_cons, Finmap.insert_insert_of_ne _ h.1, ih h.2]

/-- Entries of two lists without a common key can be inserted in either order. -/
theorem foldl_insert_comm {l l' : List (Σ _ : K, V)} (h : ∀ x ∈ l, ∀ y ∈ l', x.1 ≠ y.1)
    (m : Finmap fun _ : K => V) :
    l'.foldl (fun m e => m.insert e.1 e.2) (l.foldl (fun m e => m.insert e.1 e.2) m) =
      l.foldl (fun m e => m.insert e.1 e.2) (l'.foldl (fun m e => m.insert e.1 e.2) m) := by
  induction l generalizing m with
  | nil => rfl
  | cons x l ih =>
    rw [List.forall_mem_cons] at h
    rw [List.foldl_cons, List.foldl_cons, ih h.2, foldl_insert_insert h.1]

section Sums

variable [AddCommSemigroup A]

/-- A sum is present where one of its parts is. -/
theorem add_ne_zero_iff {x y : WithZero A} : x + y ≠ 0 ↔ x ≠ 0 ∨ y ≠ 0 := by
  cases x with
  | zero => simp
  | coe a =>
    cases y with
    | zero => simp
    | coe b =>
      rw [← WithZero.coe_add]
      simp only [ne_eq, WithZero.coe_ne_zero, not_false_eq_true, or_self]

/-- **One step adds one summand**, whichever branch it takes. -/
theorem total_upsert {val : V → A} {f : V → V} {v : V} {a : A}
    (hf : ∀ old, val (f old) = val old + a) (hv : val v = a) (k : K)
    (m : Finmap fun _ : K => V) :
    total val (upsert f v k m) = total val m + single k a := by
  have hins : ∀ w, total val m k + (a : WithZero A) = (val w : A) →
      total val (m.insert k w) = total val m + single k a := by
    intro w hw
    rw [total_insert]
    funext j
    by_cases h : j = k
    · subst h
      simp [single, hw]
    · simp [single, h]
  unfold upsert
  cases h : m.lookup k with
  | none =>
    refine hins v ?_
    simp [total, h, hv]
  | some old =>
    refine hins (f old) ?_
    simp [total, h, hf]

/-- The sum of the singletons of a list is, at each key, the value of that key. -/
theorem sum_single_apply (l : List (Σ _ : K, V)) (val : V → A) (hl : l.NodupKeys) (k : K) :
    (l.map fun e => single e.1 (val e.2)).sum k = summand val (l.dlookup k) := by
  induction l with
  | nil => simp
  | cons e l ih =>
    rw [List.nodupKeys_cons] at hl
    rw [List.map_cons, List.sum_cons, Pi.add_apply, ih hl.2]
    by_cases h : k = e.1
    · subst h
      rw [List.dlookup_eq_none.mpr hl.1, List.dlookup_cons_eq]
      simp [single]
    · rw [List.dlookup_cons_ne l e h]
      simp [single, h]

/-- **A traversal of a map adds the map**, in whatever order it goes. -/
theorem sum_order {m : Finmap fun _ : K => V} {l : List (Σ _ : K, V)} (h : Order m l)
    (val : V → A) : (l.map fun e => single e.1 (val e.2)).sum = total val m := by
  funext k
  rw [sum_single_apply l val h.nodupKeys, h.dlookup, total]

/-- A fold of additive steps reads as the sum of what they add. -/
theorem foldl_sum {σ β M : Type*} [AddCommMonoid M] (read : σ → M) (f : σ → β → σ) (g : β → M)
    (hf : ∀ s b, read (f s b) = read s + g b) (s : σ) (l : List β) :
    read (l.foldl f s) = read s + (l.map g).sum := by
  induction l generalizing s with
  | nil => simp
  | cons b l ih => rw [List.foldl_cons, ih, hf, List.map_cons, List.sum_cons, add_assoc]

end Sums

end SumMap

import Mathlib.Data.List.Basic
import Mathlib.Tactic.Common

/-!
# A lookup that tries the item it found last

A table is searched from its beginning for an item that covers a key; the item that was found last
is tried in front of it.  `agrees_iff_stable` says when this is no different from searching the
table, for every sequence of keys: every item that is the first one for some key tells the same as
the first one for each key it covers.
-/

set_option autoImplicit false

namespace CachedLookup

variable {M A R : Type*} (covers : M → A → Bool) (table : List M)

/-- The item that is found for a key, when `last` was found last. -/
def find (last : Option M) (a : A) : Option M :=
  (last.filter (covers · a)).or (table.find? (covers · a))

/-- The item that was found last, after the keys were looked up. -/
def kept : Option M → List A → Option M
  | last, [] => last
  | last, a :: as => kept ((find covers table last a).or last) as

/-- `m` is the first item of the table that covers `a`. -/
def First (a : A) (m : M) : Prop :=
  ∃ front back, table = front ++ m :: back ∧ covers m a = true ∧
    ∀ x ∈ front, covers x a = false

/-- The item that was found last, if there is one, is the first one of the table for some key. -/
def FromTable (last : Option M) : Prop := ∀ m, last = some m → ∃ a, First covers table a m

/-- The first item for a key tells the same as the first one for each other key that it covers. -/
def Stable (tells : M → A → R) : Prop :=
  ∀ a m, First covers table a m → ∀ b n, covers m b = true → First covers table b n →
    tells m b = tells n b

variable {covers table}

/-- The first item for a key is what a search of the table finds. -/
theorem first_iff_find? {a : A} {m : M} :
    First covers table a m ↔ table.find? (covers · a) = some m := by
  rw [List.find?_eq_some_iff_append]
  simp only [First, Bool.not_eq_eq_eq_not, Bool.not_true]
  constructor
  · rintro ⟨front, back, htable, hm, hfront⟩
    exact ⟨hm, front, back, htable, hfront⟩
  · rintro ⟨hm, front, back, htable, hfront⟩
    exact ⟨front, back, htable, hm, hfront⟩

/-- The first item for a key is one of the table. -/
theorem First.mem {a : A} {m : M} (h : First covers table a m) : m ∈ table := by
  obtain ⟨front, back, rfl, -, -⟩ := h
  exact List.mem_append_right _ List.mem_cons_self

/-- The first item for a key covers it. -/
theorem First.covers_key {a : A} {m : M} (h : First covers table a m) : covers m a = true := by
  obtain ⟨-, -, -, hm, -⟩ := h
  exact hm

/-- Where an item of the table covers a key, there is a first one. -/
theorem exists_first {a : A} {m : M} (hm : m ∈ table) (h : covers m a = true) :
    ∃ n, First covers table a n := by
  have hsome : (table.find? (covers · a)).isSome := List.find?_isSome.mpr ⟨m, hm, h⟩
  obtain ⟨n, hn⟩ := Option.isSome_iff_exists.mp hsome
  exact ⟨n, first_iff_find?.mpr hn⟩

/-- Without a kept item the table is searched. -/
@[simp] theorem find_none (a : A) : find covers table none a = table.find? (covers · a) := rfl

/-- A kept item that covers the key is the answer. -/
theorem find_of_covers {m : M} {a : A} (h : covers m a = true) :
    find covers table (some m) a = some m := by
  have hfilter := Option.filter_some_pos (p := (covers · a)) h
  rw [find, hfilter, Option.some_or]

/-- Past a kept item that does not cover the key the table is searched. -/
theorem find_of_not_covers {m : M} {a : A} (h : covers m a = false) :
    find covers table (some m) a = table.find? (covers · a) := by
  have hfilter := Option.filter_some_neg (p := (covers · a)) h
  rw [find, hfilter, Option.none_or]

/-- The lookup is a search of the table with the item that was found last in front. -/
theorem find_eq_find? (last : Option M) (a : A) :
    find covers table last a = (last.toList ++ table).find? (covers · a) := by
  cases last with
  | none => rfl
  | some m =>
    rw [Option.toList_some, List.singleton_append, List.find?_cons]
    cases h : covers m a with
    | true => exact find_of_covers h
    | false => exact find_of_not_covers h

/-- Whatever is found covers the key. -/
theorem covers_of_find {last : Option M} {a : A} {m : M}
    (h : find covers table last a = some m) : covers m a = true := by
  rw [find_eq_find?] at h
  exact List.find?_some (p := (covers · a)) h

/-- Before the first search nothing is kept from elsewhere. -/
theorem FromTable.none : FromTable covers table none := fun m hm => by cases hm

/-- What a search keeps comes from the table again. -/
theorem FromTable.next {last : Option M} (h : FromTable covers table last) (a : A) :
    FromTable covers table ((find covers table last a).or last) := by
  intro m hm
  rcases Option.or_eq_some_iff.mp hm with hfound | ⟨-, hlast⟩
  · rcases Option.or_eq_some_iff.mp hfound with hfilter | ⟨-, hfind⟩
    · exact h m (Option.filter_eq_some_iff.mp hfilter).1
    · exact ⟨a, first_iff_find?.mpr hfind⟩
  · exact h m hlast

/-- INTERNAL: an item that was found last is the first one of the table for the key at which it
came in.  By induction on the keys: it changes only when the table is searched. -/
theorem FromTable.kept {last : Option M} (h : FromTable covers table last) (as : List A) :
    FromTable covers table (kept covers table last as) := by
  induction as generalizing last with
  | nil => exact h
  | cons a as ih => exact ih (h.next a)

/-- What is kept after any searches is an item of the table. -/
theorem kept_mem {as : List A} {m : M} (h : kept covers table none as = some m) : m ∈ table := by
  obtain ⟨a, ha⟩ := FromTable.none.kept as m h
  exact ha.mem

/-- Where the items that cover a key tell the same, what is kept does not matter. -/
theorem Stable.find_map {tells : M → A → R} (h : Stable covers table tells) {last : Option M}
    (hlast : FromTable covers table last) (a : A) :
    (find covers table last a).map (tells · a) = (table.find? (covers · a)).map (tells · a) := by
  cases last with
  | none => rfl
  | some m =>
    cases hcovers : covers m a with
    | true =>
      obtain ⟨b, hb⟩ := hlast m rfl
      obtain ⟨n, hn⟩ := exists_first hb.mem hcovers
      rw [find_of_covers hcovers, first_iff_find?.mp hn, Option.map_some, Option.map_some,
        h b m hb a n hcovers hn]
    | false => rw [find_of_not_covers hcovers]

/-- **The lookup agrees with a search of the table**, for every sequence of keys, if and only if
the table is stable. -/
theorem agrees_iff_stable (tells : M → A → R) :
    (∀ as a, (find covers table (kept covers table none as) a).map (tells · a) =
      (table.find? (covers · a)).map (tells · a)) ↔ Stable covers table tells := by
  constructor
  · intro h a m hm b n hcovers hn
    have hb := h [a] b
    -- after the one lookup at `a`, the item is the first one for `a`
    have hkept : kept covers table none [a] = some m := by
      simp only [kept, find_none, first_iff_find?.mp hm, Option.some_or]
    rw [hkept, find_of_covers hcovers, first_iff_find?.mp hn] at hb
    exact Option.some.inj hb
  · exact fun h as a => h.find_map (FromTable.none.kept as) a

/-- A search does not end at an item of a kind if and only if none of the kind is in front of the
items that cover the key and are of another kind. -/
theorem find?_not_iff {l : List M} {a : A} {bad : M → Prop}
    (hbad : ∀ m ∈ l, bad m → covers m a = true) :
    (∀ m, l.find? (covers · a) = some m → ¬ bad m) ↔
      ∀ front e back, l = front ++ e :: back → bad e →
        ∃ m ∈ front, covers m a = true ∧ ¬ bad m := by
  constructor
  · rintro h front e back rfl he
    have hcovers := hbad e (List.mem_append_right _ List.mem_cons_self) he
    cases hfront : front.find? (covers · a) with
    | some m =>
      have hcov := List.find?_some (p := (covers · a)) hfront
      refine ⟨m, List.mem_of_find?_eq_some hfront, hcov, h m ?_⟩
      rw [List.find?_append, hfront, Option.some_or]
    | none =>
      refine absurd he (h e ?_)
      rw [List.find?_append, hfront, Option.none_or]
      exact List.find?_cons_of_pos (p := (covers · a)) hcovers
  · intro h m hm hmbad
    obtain ⟨-, front, back, hl, hfront⟩ := List.find?_eq_some_iff_append.mp hm
    obtain ⟨n, hn, hcovers, -⟩ := h front m back hl hmbad
    have := hfront n hn
    rw [hcovers] at this
    cases this

end CachedLookup

import PtkGenerator.Analysis.ReportCounts
import PtkGenerator.Library.CachedLookup

/-!
# The module of an address

The test of the lookup takes the address behind the last byte of a module for one of the module.  So
that address is found although it is in no module, or it is found in the wrong one, when the next
module begins there; unless the right one is looked at earlier, because it was found last or because
of its place in the table.
-/

set_option autoImplicit false

namespace PtkGenerator

namespace ModuleInfo

/-- The address lies in the range `[base, base + size)` of the module. -/
def Holds (m : ModuleInfo) (addr : Usize) : Prop :=
  m.base.toNat ≤ addr.toNat ∧ addr.toNat < m.base.toNat + m.size.toNat

/-- The address is the one behind the range of the module. -/
def EndsAt (m : ModuleInfo) (addr : Usize) : Prop := m.base.toNat + m.size.toNat = addr.toNat

/-- The range of the module ends within the address space. -/
def InSpace (m : ModuleInfo) : Prop := m.base.toNat + m.size.toNat < 2 ^ 64

/-- The closed range of a module is its addresses and the one behind. -/
theorem contains_iff {m : ModuleInfo} (h : m.InSpace) (addr : Usize) :
    m.contains addr = true ↔ m.Holds addr ∨ m.EndsAt addr := by
  have hend : (m.base + m.size).toNat = m.base.toNat + m.size.toNat := by
    rw [UInt64.toNat_add]
    exact Nat.mod_eq_of_lt h
  rw [contains, decide_eq_true_eq, UInt64.le_iff_toNat_le, UInt64.le_iff_toNat_le, hend, Holds,
    EndsAt]
  omega

end ModuleInfo

/-- The modules end within the address space, and no address lies in two of them. -/
structure DisjointTable (table : List ModuleInfo) : Prop where
  inSpace : ∀ m ∈ table, m.InSpace
  disjoint : table.Pairwise fun m n => ∀ addr, ¬ (m.Holds addr ∧ n.Holds addr)

/-- An address is held by one module only of a disjoint table. -/
theorem DisjointTable.holder_unique {table : List ModuleInfo} (h : DisjointTable table)
    {addr : Usize} {m n : ModuleInfo} (hm : m ∈ table) (hn : n ∈ table) (hma : m.Holds addr)
    (hna : n.Holds addr) : m = n := by
  by_contra hne
  have hsymm : Std.Symm fun m n : ModuleInfo => ∀ addr, ¬ (m.Holds addr ∧ n.Holds addr) :=
    ⟨fun _ _ h addr hboth => h addr hboth.symm⟩
  exact h.disjoint.forall hm hn hne addr ⟨hma, hna⟩

/-! ## Earlier queries -/

/-- The process after queries for the addresses. -/
def Process.after (p : Process) (addrs : List Usize) : Process :=
  addrs.foldl (fun p addr => (p.queryModuleInfoByAddr addr).2) p

/-- Behind any queries a process keeps what a cached lookup keeps. -/
theorem Process.after_eq (table : List ModuleInfo) (last : Option ModuleInfo)
    (addrs : List Usize) : Process.after ⟨last, table⟩ addrs =
      ⟨CachedLookup.kept ModuleInfo.contains table last addrs, table⟩ := by
  induction addrs generalizing last with
  | nil => rfl
  | cons addr addrs ih =>
    rw [after, List.foldl_cons, query_eq]
    exact ih _

/-- The module that answers is what a cached lookup finds. -/
theorem moduleOf_eq (table : List ModuleInfo) (last : Option ModuleInfo) (addr : Usize) :
    moduleOf table last addr = CachedLookup.find ModuleInfo.contains table last addr := rfl

/-! ## Exact answers -/

/-- The answer for an address is the module it lies in and the offset there, and an error when it
lies in none. -/
structure ExactAnswer (table : List ModuleInfo) (addr : Usize)
    (answer : Except Unit (String × Usize)) : Prop where
  found : ∀ name off, answer = .ok (name, off) ↔
    ∃ m ∈ table, m.Holds addr ∧ name = m.name ∧ off = addr - m.base
  missing : answer = .error () ↔ ∀ m ∈ table, ¬ m.Holds addr

/-- The module ends at the address, and is not an empty one with the name and the base of the module
that the address lies in. -/
def Misleads (table : List ModuleInfo) (addr : Usize) (m : ModuleInfo) : Prop :=
  m.EndsAt addr ∧ ∀ n ∈ table, n.Holds addr → ¬ (n.name = m.name ∧ n.base = m.base)

/-- In the order of the lookup, the cached module and then the table, no module that ends at the
address comes before the one that the address lies in. -/
def EndsComeLater (p : Process) (addr : Usize) : Prop :=
  ∀ front e back, p.moduleInfoCache.toList ++ p.allModuleInfo = front ++ e :: back →
    Misleads p.allModuleInfo addr e →
      ∃ m ∈ front, m.contains addr = true ∧ ¬ Misleads p.allModuleInfo addr m

/-- In a disjoint table the exact answer is the module that holds the address. -/
theorem DisjointTable.exactAnswer {table : List ModuleInfo} (h : DisjointTable table) {addr : Usize}
    {m : ModuleInfo} (hm : m ∈ table) (hma : m.Holds addr) :
    ExactAnswer table addr (.ok (m.name, addr - m.base)) := by
  refine ⟨fun name off => ⟨fun heq => ?_, ?_⟩, iff_of_false (by simp) fun hall => hall m hm hma⟩
  · obtain ⟨rfl, rfl⟩ := Prod.mk.inj (Except.ok.inj heq)
    exact ⟨m, hm, hma, rfl, rfl⟩
  · rintro ⟨n, hn, hna, rfl, rfl⟩
    rw [h.holder_unique hm hn hma hna]

/-- INTERNAL: a module of the table that contains the address gives the exact answer unless it
misleads.
SRC: native_helper/mod.rs:77-91 -/
theorem exactAnswer_iff {table : List ModuleInfo} (h : DisjointTable table) {addr : Usize}
    {m : ModuleInfo} (hm : m ∈ table) (hcontains : m.contains addr = true) :
    ExactAnswer table addr (.ok (m.name, addr - m.base)) ↔ ¬ Misleads table addr m := by
  constructor
  · rintro hexact ⟨-, hother⟩
    obtain ⟨n, hn, hna, hname, hoff⟩ := (hexact.found _ _).mp rfl
    have hbase : m.base = n.base := sub_right_injective hoff
    exact hother n hn hna ⟨hname.symm, hbase.symm⟩
  · intro hnot
    have hholder : ∃ n ∈ table, n.Holds addr ∧ n.name = m.name ∧ n.base = m.base := by
      rcases (ModuleInfo.contains_iff (h.inSpace m hm) addr).mp hcontains with hma | hend
      · exact ⟨m, hm, hma, rfl, rfl⟩
      · by_contra hnone
        exact hnot ⟨hend, fun n hn hna hsame => hnone ⟨n, hn, hna, hsame⟩⟩
    obtain ⟨n, hn, hna, hname, hbase⟩ := hholder
    have hexact := h.exactAnswer hn hna
    rwa [hname, hbase] at hexact

/-- MAIN: **when the lookup is exact.**  For every table of disjoint modules, after every sequence
of queries and for every address: the answer is the module that the address lies in, with the offset
there, or an error when it lies in none, if and only if no module that ends at the address is looked
at before that one.
SRC: native_helper/mod.rs:76-94 -/
theorem lookup_exact_iff {table : List ModuleInfo} (h : DisjointTable table) (addrs : List Usize)
    (addr : Usize) :
    ExactAnswer table addr (((Process.new table).after addrs).queryModuleInfoByAddr addr).1 ↔
      EndsComeLater ((Process.new table).after addrs) addr := by
  rw [Process.new, Process.after_eq]
  generalize hlast : CachedLookup.kept ModuleInfo.contains table none addrs = last
  have hmem : ∀ m ∈ last.toList ++ table, m ∈ table := by
    intro m hm
    rcases List.mem_append.mp hm with hm | hm
    · exact CachedLookup.kept_mem (hlast.trans (Option.mem_toList.mp hm))
    · exact hm
  have hends : EndsComeLater ⟨last, table⟩ addr ↔
      ∀ m, moduleOf table last addr = some m → ¬ Misleads table addr m := by
    rw [moduleOf_eq, CachedLookup.find_eq_find?]
    refine (CachedLookup.find?_not_iff fun m hm hbad => ?_).symm
    exact (ModuleInfo.contains_iff (h.inSpace m (hmem m hm)) addr).mpr (.inr hbad.1)
  rw [hends, query_eq]
  cases hfound : moduleOf table last addr with
  | some m =>
    have hcontains := CachedLookup.covers_of_find hfound
    rw [moduleOf_eq, CachedLookup.find_eq_find?] at hfound
    rw [exactAnswer_iff h (hmem m (List.mem_of_find?_eq_some hfound)) hcontains]
    simp only [Option.some.injEq, forall_eq']
  | none =>
    rw [moduleOf_eq, CachedLookup.find_eq_find?, List.find?_eq_none] at hfound
    have hno : ∀ m ∈ table, ¬ m.Holds addr := fun m hm hma =>
      hfound m (List.mem_append_right _ hm)
        ((ModuleInfo.contains_iff (h.inSpace m hm) addr).mpr (.inl hma))
    refine iff_of_true ⟨fun name off => iff_of_false (by simp) ?_, iff_of_true rfl hno⟩ (by simp)
    rintro ⟨m, hm, hma, -⟩
    exact hno m hm hma

/-! ## Two adjacent modules -/

/-- Two modules, the second one of which begins where the first one ends. -/
def adjacent : List ModuleInfo := [⟨"a.dll", 0x10000, 0x1000⟩, ⟨"b.dll", 0x11000, 0x1000⟩]

/-- Adjacent modules are disjoint. -/
theorem adjacent_disjoint : DisjointTable adjacent := by
  refine ⟨by simp [adjacent, ModuleInfo.InSpace], ?_⟩
  simp only [adjacent, List.pairwise_cons, List.mem_singleton, forall_eq, List.not_mem_nil,
    false_implies, implies_true, List.Pairwise.nil, and_true]
  rintro addr ⟨⟨-, hlt⟩, hle, -⟩
  simp at hlt hle
  omega

/-- The first address of the second module, after a query in that module. -/
theorem lookup_exact_cached : ExactAnswer adjacent 0x11000
    (((Process.new adjacent).after [0x11800]).queryModuleInfoByAddr 0x11000).1 := by
  have hend : ¬ ModuleInfo.EndsAt ⟨"b.dll", 0x11000, 0x1000⟩ 0x11000 := by
    simp [ModuleInfo.EndsAt]
  refine (lookup_exact_iff adjacent_disjoint [0x11800] 0x11000).mpr fun front e back heq he => ?_
  cases front with
  | nil =>
    obtain ⟨rfl, -⟩ := List.cons.inj heq
    exact absurd he.1 hend
  | cons m front =>
    obtain ⟨rfl, -⟩ := List.cons.inj heq
    exact ⟨_, List.mem_cons_self, rfl, fun hm => hend hm.1⟩

/-- MAIN: the first address of a module is found at the end of the module in front of it.
SRC: native_helper/mod.rs:88 -/
theorem seam_not_exact : ¬ ∀ (table : List ModuleInfo) (addrs : List Usize) (addr : Usize),
    DisjointTable table →
      ExactAnswer table addr (((Process.new table).after addrs).queryModuleInfoByAddr addr).1 := by
  intro hall
  have hexact := hall adjacent [] 0x11000 adjacent_disjoint
  have hanswer : (((Process.new adjacent).after []).queryModuleInfoByAddr 0x11000).1 =
      .ok ("a.dll", 0x1000) := rfl
  obtain ⟨m, hm, hma, hname, -⟩ := (hexact.found _ _).mp hanswer
  simp only [adjacent, List.mem_cons, List.not_mem_nil, or_false] at hm
  rcases hm with rfl | rfl
  · simp [ModuleInfo.Holds] at hma
  · exact absurd hname (by decide)

end PtkGenerator

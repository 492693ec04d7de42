import PtkGenerator.Analysis.ModuleLookup

/-!
# The report and the order of the histogram

A lookup tries the module it found last in front of the table, and the order in which a histogram is
visited is that of a randomised hash map.  Neither shows when each module that can be found last is
the first one of the table wherever its test succeeds, and no name and offset stand for addresses of
different pages; and otherwise both can be told from the report.
-/

set_option autoImplicit false

namespace PtkGenerator

open CachedLookup SumMap

/-! ## Queries of one process -/

/-- What a module tells of an address. -/
def ModuleInfo.tells (m : ModuleInfo) (addr : Usize) : String × Usize := (m.name, addr - m.base)

/-- Every answer, after whatever queries, is the one of a new process. -/
def AnswersFresh (table : List ModuleInfo) : Prop :=
  ∀ addrs addr, (((Process.new table).after addrs).queryModuleInfoByAddr addr).1 =
    ((Process.new table).queryModuleInfoByAddr addr).1

/-- A module that is the first one of the table to contain some address is the first one for each
address that it contains, up to modules with the same name and base. -/
def FirstThroughout (table : List ModuleInfo) : Prop :=
  ∀ a m, First ModuleInfo.contains table a m → ∀ b n, m.contains b = true →
    First ModuleInfo.contains table b n → m.name = n.name ∧ m.base = n.base

/-- The condition on the table is that of a cached lookup. -/
theorem firstThroughout_iff_stable {table : List ModuleInfo} :
    FirstThroughout table ↔ Stable ModuleInfo.contains table ModuleInfo.tells := by
  have hsame : ∀ (m n : ModuleInfo) b,
      (m.name = n.name ∧ m.base = n.base) ↔ m.tells b = n.tells b := by
    intro m n b
    rw [ModuleInfo.tells, ModuleInfo.tells, Prod.mk.injEq, sub_right_inj]
  constructor
  · exact fun h a m hm b n hb hn => (hsame m n b).mp (h a m hm b n hb hn)
  · exact fun h a m hm b n hb hn => (hsame m n b).mpr (h a m hm b n hb hn)

/-- An answer, from what the module that is found tells. -/
def answerOf : Option (String × Usize) → Except Unit (String × Usize)
  | some told => .ok told
  | none => .error ()

/-- The answer tells the name and the offset. -/
theorem answerOf_injective : Function.Injective answerOf := by
  intro x y h
  cases x with
  | none =>
    cases y with
    | none => rfl
    | some y => cases h
  | some x =>
    cases y with
    | none => cases h
    | some y => rw [Except.ok.inj h]

/-- The answer is what the module that answers tells. -/
theorem query_fst (table : List ModuleInfo) (last : Option ModuleInfo) (addr : Usize) :
    (Process.queryModuleInfoByAddr ⟨last, table⟩ addr).1 =
      answerOf ((moduleOf table last addr).map (·.tells addr)) := by
  rw [query_eq]
  cases moduleOf table last addr <;> rfl

/-- INTERNAL: **when the queries of one process are answered as by new ones**, for every sequence of
them.
SRC: native_helper/mod.rs:76-94 -/
theorem answersFresh_iff (table : List ModuleInfo) :
    AnswersFresh table ↔ FirstThroughout table := by
  rw [firstThroughout_iff_stable, ← agrees_iff_stable]
  simp only [AnswersFresh, Process.new, Process.after_eq, query_fst, answerOf_injective.eq_iff]
  rfl

/-! ## Labels -/

/-- The name and the offset under which the first module of the table that contains an address
enters it. -/
def LabelOf (table : List ModuleInfo) (addr : Usize) (label : String × Usize) : Prop :=
  (∃ m, First ModuleInfo.contains table addr m ∧ label = m.tells addr) ∨
    ((∀ m ∈ table, m.contains addr = false) ∧ label = ("dummy", addr))

/-- No label stands for addresses of different pages. -/
def OwnLabels (table : List ModuleInfo) : Prop :=
  ∀ a b label, LabelOf table a label → LabelOf table b label → pageOf a = pageOf b

/-- The label of an address that is looked up in the table. -/
def freshLabel (table : List ModuleInfo) (addr : Usize) : String × Usize :=
  ((table.find? (·.contains addr)).map (·.tells addr)).getD ("dummy", addr)

/-- Each address has the label of a new process, and no other. -/
theorem labelOf_iff {table : List ModuleInfo} {addr : Usize} {label : String × Usize} :
    LabelOf table addr label ↔ label = freshLabel table addr := by
  unfold LabelOf freshLabel
  cases hfind : table.find? (·.contains addr) with
  | some m =>
    constructor
    · rintro (⟨n, hn, rfl⟩ | ⟨hnone, -⟩)
      · rw [first_iff_find?.mp hn] at hfind
        obtain rfl := Option.some.inj hfind
        rfl
      · have hm := (first_iff_find?.mpr hfind).covers_key
        rw [hnone m (List.mem_of_find?_eq_some hfind)] at hm
        cases hm
    · exact fun h => .inl ⟨m, first_iff_find?.mpr hfind, h⟩
  | none =>
    have hnone : ∀ m ∈ table, m.contains addr = false := fun m hm =>
      Bool.eq_false_of_not_eq_true (List.find?_eq_none.mp hfind m hm)
    constructor
    · rintro (⟨n, hn, -⟩ | ⟨-, rfl⟩)
      · rw [first_iff_find?.mp hn] at hfind
        cases hfind
      · rfl
    · exact fun h => .inr ⟨hnone, h⟩

/-- What a visit enters for an executed address, with a process that answers as a new one. -/
def freshEntry (table : List ModuleInfo) (x : Usize × Usize) : Σ _ : String, Usize :=
  ⟨reportKey (freshLabel table x.1), x.2⟩

/-- Where modules are first throughout, the entries are those of new processes. -/
theorem map_entry_locate {table : List ModuleInfo} (h : FirstThroughout table)
    {last : Option ModuleInfo} (hlast : FromTable ModuleInfo.contains table last)
    (xs : List (Usize × Usize)) :
    (locate table last xs).map Located.entry = xs.map (freshEntry table) := by
  induction xs generalizing last with
  | nil => rfl
  | cons x xs ih =>
    have hfind := (firstThroughout_iff_stable.mp h).find_map hlast x.1
    have hlabel : Located.label ⟨x.1, x.2, moduleOf table last x.1⟩ = freshLabel table x.1 := by
      rw [freshLabel, ← hfind, ← moduleOf_eq]
      unfold Located.label
      cases moduleOf table last x.1 <;> rfl
    have htail := ih (hlast.next x.1)
    rw [← moduleOf_eq] at htail
    rw [locate, List.map_cons, List.map_cons, htail, Located.entry, hlabel, freshEntry]

/-! ## Pages -/

/-- The entries of a page. -/
def pageEntries (table : List ModuleInfo) (e : Σ _ : Usize, InsPage) : List (Σ _ : String, Usize) :=
  (pageExecuted e.1 e.2).map (freshEntry table)

/-- INTERNAL: the map that is written is that of the pages, entered one after the other.
SRC: online_proc.rs:258-266, server.rs:300-308 -/
theorem writeToFile_pages {table : List ModuleInfo} (h : FirstThroughout table)
    (order : List (Σ _ : Usize, InsPage)) : writeToFile table order =
      order.foldl (fun m e => (pageEntries table e).foldl (fun m e => m.insert e.1 e.2) m) ∅ := by
  rw [writeToFile_visited, visited, map_entry_locate h FromTable.none, executed, List.map_flatMap,
    List.foldl_flatMap]
  rfl

/-- Every order in which a histogram is visited gives the same report. -/
def OrderFree (table : List ModuleInfo) : Prop :=
  ∀ (data : PageMap) order order', data.Aligned → Order data order → Order data order' →
    writeToFile table order = writeToFile table order'

/-- Entries of different pages have different keys, where labels are owned. -/
theorem pageEntries_disjoint {table : List ModuleInfo} (h : OwnLabels table)
    {e e' : Σ _ : Usize, InsPage} (he : pageOf e.1 = e.1) (he' : pageOf e'.1 = e'.1)
    (hne : e.1 ≠ e'.1) : ∀ x ∈ pageEntries table e, ∀ y ∈ pageEntries table e', x.1 ≠ y.1 := by
  intro x hx y hy heq
  obtain ⟨a, ha, rfl⟩ := List.mem_map.mp hx
  obtain ⟨b, hb, rfl⟩ := List.mem_map.mp hy
  obtain ⟨i, -, rfl⟩ := mem_pageExecuted.mp ha
  obtain ⟨j, -, rfl⟩ := mem_pageExecuted.mp hb
  have hpage := h _ _ _ (labelOf_iff.mpr rfl) (labelOf_iff.mpr (reportKey_inj.mp heq))
  have hi := (pageOf_add_offset e.1 i).1
  have hj := (pageOf_add_offset e'.1 j).1
  rw [he] at hi
  rw [he'] at hj
  rw [hi, hj] at hpage
  exact hne hpage

/-- Where labels are owned, the entries may be inserted page by page in any order. -/
theorem orderFree_of_ownLabels {table : List ModuleInfo} (h : FirstThroughout table)
    (hlabels : OwnLabels table) : OrderFree table := by
  intro data order order' ha ho ho'
  rw [writeToFile_pages h, writeToFile_pages h]
  have hperm : order.Perm order' := Multiset.coe_eq_coe.mp (ho.trans ho'.symm)
  refine hperm.foldl_eq' ?_ ∅
  intro e he e' he' m
  by_cases hne : e.1 = e'.1
  · obtain rfl := ho.nodupKeys.eq_of_fst_eq he he' hne
    rfl
  · exact (foldl_insert_comm (pageEntries_disjoint hlabels (aligned_of_mem ha ho he).2
      (aligned_of_mem ha ho he').2 hne) m)

/-! ## A histogram of two pages -/

/-- INTERNAL: a report that does not depend on the order has its labels for itself: of two addresses
with one label the one that is visited later would be reported.
SRC: online_proc.rs:258-266, server.rs:300-308 -/
theorem ownLabels_of_orderFree {table : List ModuleInfo} (h : FirstThroughout table)
    (hfree : OrderFree table) : OwnLabels table := by
  intro a b label ha hb
  by_contra hne
  rw [labelOf_iff] at ha hb
  -- one instruction of each page, executed a different number of times
  let e : Σ _ : Usize, InsPage := ⟨pageOf a, InsPage.zeroed.addAt (offIdx a) 1⟩
  let e' : Σ _ : Usize, InsPage := ⟨pageOf b, InsPage.zeroed.addAt (offIdx b) 2⟩
  have hnodup : [e, e'].NodupKeys := by
    rw [List.nodupKeys_cons]
    exact ⟨by simpa [List.keys, e, e'] using hne, List.nodupKeys_singleton _⟩
  let data : PageMap := ⟨[e, e'], Multiset.coe_nodupKeys.mpr hnodup⟩
  have haligned : data.Aligned := by
    intro page hpage
    have hmem : page ∈ [pageOf a, pageOf b] := hpage
    simp only [List.mem_cons, List.not_mem_nil, or_false] at hmem
    rcases hmem with rfl | rfl
    · exact pageOf_pageOf a
    · exact pageOf_pageOf b
  have hswap : Order data [e', e] := Multiset.coe_eq_coe.mpr (List.Perm.swap e e' [])
  have hreport := hfree data [e, e'] [e', e] haligned rfl hswap
  have hentries : pageEntries table e = [⟨reportKey label, 1⟩] := by
    rw [pageEntries, pageExecuted_addAt _ _ (by decide), pageOf_add_offIdx, List.map_singleton,
      freshEntry, ← ha]
  have hentries' : pageEntries table e' = [⟨reportKey label, 2⟩] := by
    rw [pageEntries, pageExecuted_addAt _ _ (by decide), pageOf_add_offIdx, List.map_singleton,
      freshEntry, ← hb]
  rw [writeToFile_pages h, writeToFile_pages h] at hreport
  simp only [List.foldl_cons, List.foldl_nil, hentries, hentries'] at hreport
  have hlookup := congrArg (Finmap.lookup (reportKey label)) hreport
  rw [Finmap.lookup_insert, Finmap.lookup_insert] at hlookup
  exact absurd hlookup (by decide)

/-- MAIN: **when the cached lookup agrees with a fresh one, and the report with itself.**  For every
table of modules: all answers of one process, after whatever queries, are those of new processes,
and the report of no histogram depends on the order in which its pages are visited, if and only if
each module that is the first one of the table for some address is the first one for every address
that it contains, and no label stands for addresses of different pages.
SRC: native_helper/mod.rs:76-94; online_proc.rs:258-266, server.rs:300-308 -/
theorem lookup_agrees_iff (table : List ModuleInfo) :
    AnswersFresh table ∧ OrderFree table ↔ FirstThroughout table ∧ OwnLabels table := by
  rw [answersFresh_iff]
  constructor
  · exact fun ⟨hfirst, hfree⟩ => ⟨hfirst, ownLabels_of_orderFree hfirst hfree⟩
  · exact fun ⟨hfirst, hlabels⟩ => ⟨hfirst, orderFree_of_ownLabels hfirst hlabels⟩

/-- MAIN: the first address of a module is found in the module in front of it, and after a query in
the module itself it is not.
SRC: native_helper/mod.rs:77-88 -/
theorem seam_depends_on_cache : ¬ ∀ table, DisjointTable table →
    AnswersFresh table ∧ OrderFree table := by
  intro hall
  have hanswer := (hall adjacent adjacent_disjoint).1 [0x11800] 0x11000
  exact absurd hanswer (by decide)

/-! ## Tables of disjoint modules -/

section Disjoint

variable {table : List ModuleInfo}

/-- No module begins where a module ends. -/
def NoSeam (table : List ModuleInfo) : Prop := ∀ m ∈ table, ∀ n ∈ table, ¬ m.EndsAt n.base

/-- The modules have at least two bytes. -/
def TwoBytes (table : List ModuleInfo) : Prop := ∀ m ∈ table, 2 ≤ m.size.toNat

/-- A number below 2^64 is an address. -/
theorem exists_addr {k : ℕ} (hk : k < 2 ^ 64) : ∃ addr : Usize, addr.toNat = k := by
  refine ⟨UInt64.ofNat k, ?_⟩
  rw [UInt64.toNat_ofNat']
  exact Nat.mod_eq_of_lt hk

/-- Of two addresses of a module that follow each other, the second one lies in no other module and
behind no other one. -/
theorem DisjointTable.first_of_holds (h : DisjointTable table) (h₂ : TwoBytes table)
    {a b : Usize} (hb : b.toNat = a.toNat + 1) {m : ModuleInfo} (hm : m ∈ table)
    (hma : m.Holds a) (hmb : m.Holds b) : First ModuleInfo.contains table b m := by
  have hcontains := (ModuleInfo.contains_iff (h.inSpace m hm) b).mpr (.inl hmb)
  obtain ⟨n, hn⟩ := exists_first hm hcontains
  have hsize := h₂ n hn.mem
  obtain rfl : n = m := by
    rcases (ModuleInfo.contains_iff (h.inSpace n hn.mem) b).mp hn.covers_key with hnb | hend
    · exact h.holder_unique hn.mem hm hnb hmb
    · refine h.holder_unique hn.mem hm ?_ hma
      rw [ModuleInfo.EndsAt] at hend
      rw [ModuleInfo.Holds]
      omega
  exact hn

/-- Without seams no address is contained in two modules. -/
theorem DisjointTable.eq_of_contains (h : DisjointTable table) (h₂ : TwoBytes table)
    (hseam : NoSeam table) {b : Usize} {m n : ModuleInfo} (hm : m ∈ table) (hn : n ∈ table)
    (hmb : m.contains b = true) (hnb : n.contains b = true) : m = n := by
  rw [ModuleInfo.contains_iff (h.inSpace m hm)] at hmb
  rw [ModuleInfo.contains_iff (h.inSpace n hn)] at hnb
  have hmsize := h₂ m hm
  have hnsize := h₂ n hn
  have hbase : ∀ {k l : ModuleInfo}, k ∈ table → l ∈ table → k.base = b → 2 ≤ k.size.toNat →
      (l.Holds b ∨ l.EndsAt b) → k = l := by
    rintro k l hk hl rfl hsize (hlb | hend)
    · exact h.holder_unique hk hl ⟨le_rfl, by omega⟩ hlb
    · exact absurd hend (hseam l hl k hk)
  by_cases hmbase : m.base = b
  · exact hbase hm hn hmbase hmsize hnb
  by_cases hnbase : n.base = b
  · exact (hbase hn hm hnbase hnsize hmb).symm
  -- both begin in front of the address, so both contain the address in front of it
  have hmne : m.base.toNat ≠ b.toNat := fun e => hmbase (UInt64.toNat.inj e)
  have hnne : n.base.toNat ≠ b.toNat := fun e => hnbase (UInt64.toNat.inj e)
  simp only [ModuleInfo.Holds, ModuleInfo.EndsAt] at hmb hnb
  have hlt := b.toNat_lt
  obtain ⟨a, ha⟩ := exists_addr (k := b.toNat - 1) (by omega)
  refine h.holder_unique hm hn (?_ : m.Holds a) ?_
  · rw [ModuleInfo.Holds]
    omega
  · rw [ModuleInfo.Holds]
    omega

/-- INTERNAL: **for disjoint modules the condition is that no two are adjacent.**
SRC: native_helper/mod.rs:77-88 -/
theorem DisjointTable.firstThroughout_iff (h : DisjointTable table) (h₂ : TwoBytes table) :
    FirstThroughout table ↔ NoSeam table := by
  constructor
  · intro hfirst m hm n hn hend
    have hmsize := h₂ m hm
    have hnsize := h₂ n hn
    have hspace := h.inSpace n hn
    rw [ModuleInfo.InSpace] at hspace
    have hcontains := (ModuleInfo.contains_iff (h.inSpace m hm) n.base).mpr (.inr hend)
    rw [ModuleInfo.EndsAt] at hend
    -- the last address of the one module, and the second address of the other
    obtain ⟨a, ha⟩ := exists_addr (k := n.base.toNat - 2) (by omega)
    obtain ⟨b, hb⟩ := exists_addr (k := n.base.toNat - 1) (by omega)
    obtain ⟨c, hc⟩ := exists_addr (k := n.base.toNat + 1) (by omega)
    have hmfirst : First ModuleInfo.contains table b m :=
      h.first_of_holds h₂ (a := a) (by omega) hm ⟨by omega, by omega⟩ ⟨by omega, by omega⟩
    have hnfirst : First ModuleInfo.contains table c n :=
      h.first_of_holds h₂ hc hn ⟨le_rfl, by omega⟩ ⟨by omega, by omega⟩
    have hself : n.contains n.base = true :=
      (ModuleInfo.contains_iff (h.inSpace n hn) n.base).mpr (.inl ⟨le_rfl, by omega⟩)
    obtain ⟨k, hk⟩ := exists_first hn hself
    have hmbase := (hfirst b m hmfirst n.base k hcontains hk).2
    have hnbase := (hfirst c n hnfirst n.base k hself hk).2
    rw [hmbase, hnbase] at hend
    omega
  · intro hseam a m hm b n hcontains hn
    rw [h.eq_of_contains h₂ hseam hm.mem hn.mem hcontains hn.covers_key]
    exact ⟨rfl, rfl⟩

/-- Without modules of one name, nor of the name `dummy`, labels stand for one address. -/
theorem ownLabels_of_ownNames (h : OwnNames table) : OwnLabels table := by
  rintro a b label (⟨m, hm, rfl⟩ | ⟨-, rfl⟩) (⟨n, hn, heq⟩ | ⟨-, heq⟩)
  · obtain ⟨hname, hoff⟩ := Prod.mk.inj heq
    rw [h.1 m hm.mem n hn.mem hname] at hoff
    rw [sub_left_injective hoff]
  · obtain ⟨hname, hoff⟩ := Prod.mk.inj heq
    rw [h.2 m hm.mem hname, sub_zero] at hoff
    rw [hoff]
  · obtain ⟨hname, hoff⟩ := Prod.mk.inj heq
    rw [h.2 n hn.mem hname.symm, sub_zero] at hoff
    rw [hoff]
  · rw [(Prod.mk.inj heq).2]

end Disjoint

end PtkGenerator

import Mathlib.Data.Set.Card
import PtkGenerator.Model.Report

/-!
# What the report keeps of a histogram

A key of the report is the name of a module and an offset, and the two can be read off it
(`reportKey_inj`).  So an entry is overwritten exactly when two executed addresses are found at
one offset of two modules with one name (`Clash`); the addresses that are in no module count as
those of a module called `dummy` at address 0.

The lookup depends on the module that was found last when modules overlap, so the module of an
address is taken in the order in which the histogram is visited (`locate`).
-/

set_option autoImplicit false

namespace PtkGenerator

open Decimal SumMap

/-- Two answers have one key only if they are the same. -/
theorem reportKey_inj {m n : String × Usize} : reportKey m = reportKey n ↔ m = n := by
  constructor
  · intro h
    have hsplit : ∀ k : String × Usize, (reportKey k).toList =
        (k.1.toList ++ [' ', '+']) ++ ' ' :: (Nat.repr k.2.toNat).toList := by
      intro k
      simp [reportKey]
    have hlist := congrArg String.toList h
    rw [hsplit, hsplit] at hlist
    obtain ⟨hname, hoff⟩ := append_repr_inj (by decide) hlist
    apply Prod.ext
    · exact String.toList_inj.mp (List.append_cancel_right hname)
    · exact UInt64.toNat.inj hoff
  · rintro rfl
    rfl

/-! ## The executed addresses -/

/-- The counter of an address in a histogram. -/
def PageMap.cntAt (data : PageMap) (addr : Usize) : Usize :=
  match data.lookup (pageOf addr) with
  | none => 0
  | some insn => (insn.ins (offIdx addr)).execCnt

/-- The count of an address is that of its cell. -/
theorem PageMap.cntAt_of_lookup {data : PageMap} {addr : Usize} {insn : InsPage}
    (h : data.lookup (pageOf addr) = some insn) :
    data.cntAt addr = (insn.ins (offIdx addr)).execCnt := by
  rw [cntAt, h]

/-- The executed addresses of a page with their counters. -/
def pageExecuted (page : Usize) (insn : InsPage) : List (Usize × Usize) :=
  InsPage.idxs.filterMap fun i =>
    if 0 < (insn.ins i).execCnt then some (page + UInt64.ofNat i.val, (insn.ins i).execCnt)
    else none

/-- The executed addresses of a histogram with their counters, as they are visited. -/
def executed (order : List (Σ _ : Usize, InsPage)) : List (Usize × Usize) :=
  order.flatMap fun e => pageExecuted e.1 e.2

/-- The keys of the histogram are addresses of pages. -/
def PageMap.Aligned (data : PageMap) : Prop := ∀ page ∈ data, pageOf page = page

/-- An address is its page with its offset added. -/
theorem pageOf_add_offIdx (addr : Usize) :
    pageOf addr + UInt64.ofNat (offIdx addr).val = addr := by
  obtain ⟨hpage, hoff⟩ := pageOf_add_offset addr (offIdx addr)
  exact eq_of_pageOf_offIdx hpage hoff

/-- The executed addresses of a page are those that count. -/
theorem mem_pageExecuted {page : Usize} {insn : InsPage} {x : Usize × Usize} :
    x ∈ pageExecuted page insn ↔ ∃ i, 0 < (insn.ins i).execCnt ∧
      x = (page + UInt64.ofNat i.val, (insn.ins i).execCnt) := by
  unfold pageExecuted
  rw [List.mem_filterMap]
  constructor
  · rintro ⟨i, -, hi⟩
    split at hi
    · next hpos => exact ⟨i, hpos, (Option.some.inj hi).symm⟩
    · cases hi
  · rintro ⟨i, hpos, rfl⟩
    exact ⟨i, InsPage.mem_idxs i, if_pos hpos⟩

/-- No index is visited twice. -/
theorem nodup_idxs : InsPage.idxs.Nodup := by
  unfold InsPage.idxs
  exact List.nodup_finRange 4096

/-- INTERNAL: of a page with one counter that is not zero there is one executed address. -/
theorem pageExecuted_addAt (page : Usize) (i : Fin 4096) {n : Usize} (hn : 0 < n) :
    pageExecuted page (InsPage.zeroed.addAt i n) = [(page + UInt64.ofNat i.val, n)] := by
  have hother : ∀ j, j ≠ i → (if 0 < ((InsPage.zeroed.addAt i n).ins j).execCnt then
      some (page + UInt64.ofNat j.val, ((InsPage.zeroed.addAt i n).ins j).execCnt)
      else none) = none := by
    intro j hj
    rw [InsPage.execCnt_addAt_zeroed, if_neg hj, if_neg (UInt64.lt_irrefl 0)]
  obtain ⟨front, back, hidxs⟩ := List.append_of_mem (InsPage.mem_idxs i)
  have hnodup := nodup_idxs
  rw [hidxs, List.nodup_middle, List.nodup_cons, List.mem_append, not_or] at hnodup
  rw [pageExecuted, hidxs, List.filterMap_append,
    List.filterMap_eq_nil_iff.mpr fun j hj => hother j (by rintro rfl; exact hnodup.1.1 hj),
    List.nil_append, List.filterMap_cons_some (b := (page + UInt64.ofNat i.val, n)),
    List.filterMap_eq_nil_iff.mpr fun j hj => hother j (by rintro rfl; exact hnodup.1.2 hj)]
  rw [InsPage.execCnt_addAt_zeroed, if_pos rfl, if_pos hn]

section Visited

variable {data : PageMap} {order : List (Σ _ : Usize, InsPage)}

/-- An entry of an aligned map is at its page. -/
theorem aligned_of_mem (ha : data.Aligned) (ho : Order data order) {e : Σ _ : Usize, InsPage}
    (he : e ∈ order) : data.lookup e.1 = some e.2 ∧ pageOf e.1 = e.1 := by
  have hlookup : data.lookup e.1 = some e.2 := by
    rw [← ho.dlookup]
    exact List.mem_dlookup ho.nodupKeys he
  refine ⟨hlookup, ha e.1 ?_⟩
  rw [← Finmap.lookup_isSome, hlookup]
  rfl

/-- INTERNAL: **the visit meets each executed address**, and with its counter. -/
theorem mem_executed (ha : data.Aligned) (ho : Order data order) (x : Usize × Usize) :
    x ∈ executed order ↔ 0 < data.cntAt x.1 ∧ x.2 = data.cntAt x.1 := by
  unfold executed
  simp only [List.mem_flatMap, mem_pageExecuted]
  constructor
  · rintro ⟨e, he, i, hpos, rfl⟩
    obtain ⟨hlookup, hpage⟩ := aligned_of_mem ha ho he
    have hsplit := pageOf_add_offset e.1 i
    rw [hpage] at hsplit
    have hcnt := PageMap.cntAt_of_lookup (hsplit.1 ▸ hlookup)
    rw [hsplit.2] at hcnt
    exact ⟨by rw [hcnt]; exact hpos, hcnt.symm⟩
  · rintro ⟨hpos, hx⟩
    obtain ⟨addr, cnt⟩ := x
    dsimp only at hpos hx
    subst hx
    cases hlookup : data.lookup (pageOf addr) with
    | none =>
      rw [PageMap.cntAt, hlookup] at hpos
      exact absurd hpos (lt_irrefl 0)
    | some insn =>
      have hcnt := PageMap.cntAt_of_lookup hlookup
      have hmem : (⟨pageOf addr, insn⟩ : Σ _ : Usize, InsPage) ∈ order := by
        apply List.of_mem_dlookup
        rw [ho.dlookup]
        exact hlookup
      refine ⟨_, hmem, offIdx addr, hcnt ▸ hpos, ?_⟩
      rw [pageOf_add_offIdx, hcnt]

/-- INTERNAL: no address is met twice: pages are visited once, and their offsets are distinct. -/
theorem executed_distinct (ha : data.Aligned) (ho : Order data order) :
    (executed order).Pairwise fun x y => x.1 ≠ y.1 := by
  unfold executed
  rw [List.pairwise_flatMap]
  constructor
  · intro e he
    have hpage := (aligned_of_mem ha ho he).2
    unfold pageExecuted
    rw [List.pairwise_filterMap]
    refine nodup_idxs.imp fun {i j} hij x hx y hy heq => hij ?_
    have hxi : x.1 = e.1 + UInt64.ofNat i.val := by
      rw [Option.ite_none_right_eq_some] at hx
      exact (congrArg Prod.fst (Option.some.inj hx.2)).symm
    have hyj : y.1 = e.1 + UInt64.ofNat j.val := by
      rw [Option.ite_none_right_eq_some] at hy
      exact (congrArg Prod.fst (Option.some.inj hy.2)).symm
    have hi := (pageOf_add_offset e.1 i).2
    have hj := (pageOf_add_offset e.1 j).2
    rw [hpage] at hi hj
    rw [← hi, ← hj, ← hxi, ← hyj, heq]
  · have hkeys := List.nodupKeys_iff_pairwise.mp ho.nodupKeys
    refine hkeys.imp_of_mem fun {e e'} he he' hne x hx y hy heq => hne ?_
    obtain ⟨i, -, rfl⟩ := mem_pageExecuted.mp hx
    obtain ⟨j, -, rfl⟩ := mem_pageExecuted.mp hy
    have hi := (pageOf_add_offset e.1 i).1
    have hj := (pageOf_add_offset e'.1 j).1
    rw [(aligned_of_mem ha ho he).2] at hi
    rw [(aligned_of_mem ha ho he').2] at hj
    rw [← hi, ← hj]
    exact congrArg pageOf heq

end Visited

/-! ## The module of an address -/

/-- The module that is found for an address: the one that was found last when it contains the
address, otherwise the first one of the table that does. -/
def moduleOf (table : List ModuleInfo) (last : Option ModuleInfo) (addr : Usize) :
    Option ModuleInfo :=
  (last.filter (·.contains addr)).or (table.find? (·.contains addr))

/-- An executed address with its counter and the module it is found in. -/
structure Located where
  addr : Usize
  cnt : Usize
  found : Option ModuleInfo

/-- The modules of the addresses, looked up one after the other. -/
def locate (table : List ModuleInfo) : Option ModuleInfo → List (Usize × Usize) → List Located
  | _, [] => []
  | last, x :: xs =>
    let found := moduleOf table last x.1
    ⟨x.1, x.2, found⟩ :: locate table (found.or last) xs

namespace Located

/-- The name and the offset under which the address is entered. -/
def label (x : Located) : String × Usize :=
  match x.found with
  | some m => (m.name, x.addr - m.base)
  | none => ("dummy", x.addr)

/-- What is entered for the address. -/
def entry (x : Located) : Σ _ : String, Usize := ⟨reportKey x.label, x.cnt⟩

/-- The addresses lie at one offset of two modules with one name; what is in no module lies in
one called `dummy` at address 0. -/
def Clash (x y : Located) : Prop :=
  match x.found, y.found with
  | some m, some n => m ≠ n ∧ m.name = n.name ∧ x.addr - m.base = y.addr - n.base
  | some m, none => m.name = "dummy" ∧ x.addr - m.base = y.addr
  | none, some n => n.name = "dummy" ∧ y.addr - n.base = x.addr
  | none, none => False

/-- Whether two located addresses clash is decided by their modules and offsets. -/
instance : (x y : Located) → Decidable (x.Clash y)
  | ⟨a, _, some m⟩, ⟨b, _, some n⟩ =>
    inferInstanceAs (Decidable (m ≠ n ∧ m.name = n.name ∧ a - m.base = b - n.base))
  | ⟨a, _, some m⟩, ⟨b, _, none⟩ =>
    inferInstanceAs (Decidable (m.name = "dummy" ∧ a - m.base = b))
  | ⟨a, _, none⟩, ⟨b, _, some n⟩ =>
    inferInstanceAs (Decidable (n.name = "dummy" ∧ b - n.base = a))
  | ⟨_, _, none⟩, ⟨_, _, none⟩ => inferInstanceAs (Decidable False)

/-- INTERNAL: two addresses get one key exactly when they clash. -/
theorem key_eq_iff {x y : Located} (h : x.addr ≠ y.addr) :
    x.entry.1 = y.entry.1 ↔ x.Clash y := by
  unfold entry
  rw [reportKey_inj]
  unfold label Clash
  cases hx : x.found with
  | some m =>
    cases hy : y.found with
    | some n =>
      constructor
      · intro heq
        obtain ⟨hname, hoff⟩ := Prod.mk.inj heq
        refine ⟨?_, hname, hoff⟩
        rintro rfl
        exact h (sub_left_injective hoff)
      · rintro ⟨-, hname, hoff⟩
        exact Prod.ext hname hoff
    | none => exact Prod.mk.injEq .. ▸ Iff.rfl
  | none =>
    cases hy : y.found with
    | some n =>
      constructor
      · intro heq
        obtain ⟨hname, hoff⟩ := Prod.mk.inj heq
        exact ⟨hname.symm, hoff.symm⟩
      · rintro ⟨hname, hoff⟩
        exact Prod.ext hname.symm hoff.symm
    | none =>
      constructor
      · intro heq
        exact h (Prod.mk.inj heq).2
      · exact False.elim

end Located

/-- The addresses are located one by one, with their counts. -/
theorem map_addr_locate (table : List ModuleInfo) (last : Option ModuleInfo)
    (xs : List (Usize × Usize)) :
    (locate table last xs).map (fun x => (x.addr, x.cnt)) = xs := by
  induction xs generalizing last with
  | nil => rfl
  | cons x xs ih => rw [locate, List.map_cons, ih]

/-- A module that is found is one of the table. -/
theorem found_mem_table {table : List ModuleInfo} {last : Option ModuleInfo}
    (hlast : ∀ m, last = some m → m ∈ table) {xs : List (Usize × Usize)} {x : Located}
    {m : ModuleInfo} (hx : x ∈ locate table last xs) (hm : x.found = some m) : m ∈ table := by
  have hfound : ∀ last : Option ModuleInfo, (∀ m, last = some m → m ∈ table) →
      ∀ addr m, moduleOf table last addr = some m → m ∈ table := by
    intro last hlast addr m h
    unfold moduleOf at h
    rcases Option.or_eq_some_iff.mp h with h | ⟨-, h⟩
    · exact hlast m (Option.filter_eq_some_iff.mp h).1
    · exact List.mem_of_find?_eq_some h
  induction xs generalizing last with
  | nil => cases hx
  | cons y xs ih =>
    rw [locate, List.mem_cons] at hx
    rcases hx with rfl | hx
    · exact hfound last hlast _ m hm
    · refine ih (fun n hn => ?_) hx
      rcases Option.or_eq_some_iff.mp hn with hn | ⟨-, hn⟩
      · exact hfound last hlast _ n hn
      · exact hlast n hn

/-! ## The map that is written -/

/-- One executed address is entered. -/
def Report.add (r : Report) (x : Usize × Usize) : Report :=
  let (found, p) := r.p.queryModuleInfoByAddr x.1
  let m := match found with
    | .ok m => m
    | .error _ => ("dummy", x.1)
  ⟨p, r.dataWt.insert (reportKey m) x.2⟩

/-- The report is a fold over the executed addresses. -/
theorem writeToFile_eq (table : List ModuleInfo) (order : List (Σ _ : Usize, InsPage)) :
    writeToFile table order =
      ((executed order).foldl Report.add ⟨Process.new table, ∅⟩).dataWt := by
  have hpage : ∀ (r : Report) (e : Σ _ : Usize, InsPage),
      InsPage.idxs.foldl (fun r i => Report.enter r e.1 e.2 i) r =
        (pageExecuted e.1 e.2).foldl Report.add r := by
    intro r e
    rw [pageExecuted, List.foldl_filterMap]
    congr 1
    funext r i
    unfold Report.enter
    by_cases hpos : 0 < (e.2.ins i).execCnt
    · rw [if_pos hpos, if_pos hpos]
      rfl
    · rw [if_neg hpos, if_neg hpos]
  unfold writeToFile executed
  simp only [hpage, List.foldl_flatMap]

/-- INTERNAL: a lookup finds `moduleOf`, and remembers it.
SRC: native_helper/mod.rs:76-94 -/
theorem query_eq (table : List ModuleInfo) (last : Option ModuleInfo) (addr : Usize) :
    Process.queryModuleInfoByAddr ⟨last, table⟩ addr =
      (match moduleOf table last addr with
        | some m => .ok (m.name, addr - m.base)
        | none => .error (), ⟨(moduleOf table last addr).or last, table⟩) := by
  unfold Process.queryModuleInfoByAddr moduleOf
  cases hlast : last.filter (·.contains addr) with
  | some m =>
    have hm : last = some m := (Option.filter_eq_some_iff.mp hlast).1
    simp [hm]
  | none =>
    cases hfind : table.find? (·.contains addr) with
    | some m => simp
    | none => simp

/-- The fold of the report inserts the entries of the located addresses. -/
theorem foldl_add (table : List ModuleInfo) (last : Option ModuleInfo)
    (xs : List (Usize × Usize)) (dataWt : HashMap String Usize) :
    (xs.foldl Report.add ⟨⟨last, table⟩, dataWt⟩).dataWt =
      ((locate table last xs).map Located.entry).foldl (fun m e => m.insert e.1 e.2) dataWt := by
  induction xs generalizing last dataWt with
  | nil => rfl
  | cons x xs ih =>
    have hadd : Report.add ⟨⟨last, table⟩, dataWt⟩ x =
        ⟨⟨(moduleOf table last x.1).or last, table⟩,
          dataWt.insert (Located.entry ⟨x.1, x.2, moduleOf table last x.1⟩).1 x.2⟩ := by
      unfold Report.add
      rw [query_eq]
      cases hm : moduleOf table last x.1 <;> simp [Located.entry, Located.label]
    rw [List.foldl_cons, hadd, ih]
    rfl

/-- The sum of the values of a written map. -/
def valueSum (dataWt : HashMap String Usize) : ℕ := (dataWt.entries.map fun e => e.2.toNat).sum

/-- The sum of the counters of a histogram. -/
def PageMap.countSum (data : PageMap) : ℕ :=
  (data.entries.map fun e => ∑ i, (e.2.ins i).execCnt.toNat).sum

/-- The written map has one entry for each executed address, with the counter of the address, and
no other; its values sum to the counters of the histogram. -/
structure Conserves (data : PageMap) (dataWt : HashMap String Usize) : Prop where
  oneEach : ∃ key : Usize → String,
    Set.BijOn key {addr | 0 < data.cntAt addr} {k | k ∈ dataWt} ∧
      ∀ addr, 0 < data.cntAt addr → dataWt.lookup (key addr) = some (data.cntAt addr)
  total : valueSum dataWt = data.countSum

/-- The counts of a page are those of its executed addresses. -/
theorem sum_pageExecuted (page : Usize) (insn : InsPage) :
    ((pageExecuted page insn).map fun x => x.2.toNat).sum =
      ∑ i, (insn.ins i).execCnt.toNat := by
  rw [← InsPage.sum_idxs, pageExecuted]
  induction InsPage.idxs with
  | nil => rfl
  | cons i is ih =>
    by_cases hpos : 0 < (insn.ins i).execCnt
    · simp [hpos, ih]
    · have hzero : (insn.ins i).execCnt.toNat = 0 := by
        rw [UInt64.lt_iff_toNat_lt] at hpos
        simpa using hpos
      simp [hpos, hzero, ih]

/-- The counts of a map are those of its executed addresses. -/
theorem sum_executed {data : PageMap} {order : List (Σ _ : Usize, InsPage)}
    (ho : Order data order) :
    ((executed order).map fun x => x.2.toNat).sum = data.countSum := by
  rw [PageMap.countSum, ← ho, Multiset.map_coe, Multiset.sum_coe, executed]
  clear ho
  induction order with
  | nil => rfl
  | cons e order ih =>
    rw [List.flatMap_cons, List.map_append, List.sum_append, ih, sum_pageExecuted, List.map_cons,
      List.sum_cons]

section Written

variable {data : PageMap} {order : List (Σ _ : Usize, InsPage)} (table : List ModuleInfo)

/-- The executed addresses with their modules, as `write_to_file` comes to them. -/
def visited (order : List (Σ _ : Usize, InsPage)) : List Located :=
  locate table none (executed order)

/-- The report inserts the entries of the visited addresses. -/
theorem writeToFile_visited (order : List (Σ _ : Usize, InsPage)) :
    writeToFile table order =
      ((visited table order).map Located.entry).foldl (fun m e => m.insert e.1 e.2) ∅ := by
  rw [writeToFile_eq]
  exact foldl_add table none (executed order) ∅

/-- The addresses that count are those that are visited. -/
theorem mem_visited (ha : data.Aligned) (ho : Order data order) (addr : Usize) :
    0 < data.cntAt addr ↔ ∃ x ∈ visited table order, x.addr = addr := by
  have hmap := map_addr_locate table none (executed order)
  constructor
  · intro hpos
    have hmem : (addr, data.cntAt addr) ∈ executed order := (mem_executed ha ho _).mpr ⟨hpos, rfl⟩
    rw [← hmap] at hmem
    obtain ⟨x, hx, heq⟩ := List.mem_map.mp hmem
    exact ⟨x, hx, (Prod.mk.inj heq).1⟩
  · rintro ⟨x, hx, rfl⟩
    have hmem : (x.addr, x.cnt) ∈ executed order := by
      rw [← hmap]
      exact List.mem_map_of_mem hx
    exact ((mem_executed ha ho _).mp hmem).1

/-- The count of a visited address is its count in the map. -/
theorem cnt_of_mem_visited (ha : data.Aligned) (ho : Order data order) {x : Located}
    (hx : x ∈ visited table order) : x.cnt = data.cntAt x.addr := by
  have hmem : (x.addr, x.cnt) ∈ executed order := by
    rw [← map_addr_locate table none (executed order)]
    exact List.mem_map_of_mem hx
  exact ((mem_executed ha ho _).mp hmem).2

/-- No address is visited twice. -/
theorem visited_distinct (ha : data.Aligned) (ho : Order data order) :
    (visited table order).Pairwise fun x y => x.addr ≠ y.addr := by
  have h := executed_distinct ha ho
  rw [← map_addr_locate table none (executed order), List.pairwise_map] at h
  exact h

/-- No address is visited twice. -/
theorem nodup_addr_visited (ha : data.Aligned) (ho : Order data order) :
    ((visited table order).map Located.addr).Nodup := by
  rw [List.Nodup, List.pairwise_map]
  exact visited_distinct table ha ho

/-- INTERNAL: the keys are distinct exactly when no two addresses clash. -/
theorem nodupKeys_visited_iff (ha : data.Aligned) (ho : Order data order) :
    ((visited table order).map Located.entry).NodupKeys ↔
      (visited table order).Pairwise fun x y => ¬ x.Clash y := by
  have hdistinct := visited_distinct table ha ho
  rw [List.nodupKeys_iff_pairwise, List.pairwise_map]
  constructor
  · intro h
    exact (h.and hdistinct).imp fun hxy hclash => hxy.1 ((Located.key_eq_iff hxy.2).mpr hclash)
  · intro h
    exact (h.and hdistinct).imp fun hxy heq => hxy.1 ((Located.key_eq_iff hxy.2).mp heq)

/-- The addresses that count are those that are visited. -/
theorem setOf_executed (ha : data.Aligned) (ho : Order data order) :
    {addr | 0 < data.cntAt addr} = ↑((visited table order).map Located.addr).toFinset := by
  ext addr
  simp [mem_visited table ha ho addr]

/-- The keys of the report are those of the visited addresses. -/
theorem setOf_written : {k | k ∈ writeToFile table order} =
    ↑(((visited table order).map Located.entry).map Sigma.fst).toFinset := by
  ext k
  rw [Set.mem_ofPred_eq, writeToFile_visited, mem_foldl_insert]
  simp [Finmap.notMem_empty]

/-- INTERNAL: as many keys as executed addresses means that no key was entered twice. -/
theorem nodupKeys_of_conserves (ha : data.Aligned) (ho : Order data order)
    (h : Conserves data (writeToFile table order)) :
    ((visited table order).map Located.entry).NodupKeys := by
  obtain ⟨key, hkey, -⟩ := h.oneEach
  have hcard : Set.ncard {k | k ∈ writeToFile table order} =
      Set.ncard {addr | 0 < data.cntAt addr} := by
    rw [← hkey.image_eq, hkey.injOn.ncard_image]
  rw [setOf_written, setOf_executed table ha ho, Set.ncard_coe_finset, Set.ncard_coe_finset,
    List.toFinset_card_of_nodup (nodup_addr_visited table ha ho)] at hcard
  have hlist : (((visited table order).map Located.entry).map Sigma.fst).Nodup := by
    rw [← Multiset.coe_nodup, ← Multiset.toFinset_card_eq_card_iff_nodup]
    rw [List.toFinset_coe, hcard]
    simp
  exact hlist

/-- INTERNAL: **with distinct keys the written map has the entries of the addresses.** -/
theorem conserves_of_nodupKeys (ha : data.Aligned) (ho : Order data order)
    (h : ((visited table order).map Located.entry).NodupKeys) :
    Conserves data (writeToFile table order) := by
  have horder : Order (writeToFile table order) ((visited table order).map Located.entry) := by
    rw [writeToFile_visited]
    exact order_foldl_insert h
  have hinj : Set.InjOn Located.addr {x | x ∈ visited table order} :=
    fun x hx y hy => List.inj_on_of_nodup_map (nodup_addr_visited table ha ho) hx hy
  have hkeys : ∀ x ∈ visited table order, ∀ y ∈ visited table order,
      x.entry.1 = y.entry.1 → x = y := by
    intro x hx y hy
    rw [List.NodupKeys, List.keys, List.map_map] at h
    exact List.inj_on_of_nodup_map h hx hy
  -- the key of an executed address, read off the visit
  have : Nonempty Located := ⟨⟨0, 0, none⟩⟩
  let key : Usize → String := fun addr =>
    (Function.invFunOn Located.addr {x | x ∈ visited table order} addr).entry.1
  have hkey : ∀ x ∈ visited table order, key x.addr = x.entry.1 := by
    intro x hx
    have hinv := hinj.leftInvOn_invFunOn hx
    exact congrArg (fun y : Located => y.entry.1) hinv
  refine ⟨⟨key, ⟨?_, ?_, ?_⟩, ?_⟩, ?_⟩
  · intro addr haddr
    obtain ⟨x, hx, rfl⟩ := (mem_visited table ha ho addr).mp haddr
    rw [setOf_written, hkey x hx]
    simpa using ⟨x, hx, rfl⟩
  · intro a haddr b hb heq
    obtain ⟨x, hx, rfl⟩ := (mem_visited table ha ho a).mp haddr
    obtain ⟨y, hy, rfl⟩ := (mem_visited table ha ho b).mp hb
    rw [hkey x hx, hkey y hy] at heq
    rw [hkeys x hx y hy heq]
  · intro k hk
    rw [setOf_written] at hk
    obtain ⟨e, he, rfl⟩ := List.mem_map.mp (List.mem_toFinset.mp hk)
    obtain ⟨x, hx, rfl⟩ := List.mem_map.mp he
    exact ⟨x.addr, (mem_visited table ha ho x.addr).mpr ⟨x, hx, rfl⟩, hkey x hx⟩
  · intro addr haddr
    obtain ⟨x, hx, rfl⟩ := (mem_visited table ha ho addr).mp haddr
    rw [hkey x hx, ← horder.dlookup, ← cnt_of_mem_visited table ha ho hx]
    exact List.mem_dlookup h (List.mem_map_of_mem hx)
  · rw [valueSum, ← horder, Multiset.map_coe, Multiset.sum_coe, ← sum_executed ho,
      ← map_addr_locate table none (executed order), List.map_map, List.map_map]
    rfl

end Written

/-- INTERNAL: the report conserves the counts exactly when no two addresses clash with the modules
they are found in. -/
theorem conserves_iff_noClash {data : PageMap} {order : List (Σ _ : Usize, InsPage)}
    (ha : data.Aligned) (ho : Order data order) (table : List ModuleInfo) :
    Conserves data (writeToFile table order) ↔
      (visited table order).Pairwise fun x y => ¬ x.Clash y := by
  rw [← nodupKeys_visited_iff table ha ho]
  exact ⟨nodupKeys_of_conserves table ha ho, conserves_of_nodupKeys table ha ho⟩

/-! ## The table and the executed addresses -/

/-- No two executed addresses lie at one offset of modules with one name and different bases; an
address that lies in no module counts as one of a module called `dummy` at address 0. -/
structure NoTwins (data : PageMap) (table : List ModuleInfo) : Prop where
  modules : ∀ a b, 0 < data.cntAt a → 0 < data.cntAt b → ∀ m ∈ table, ∀ n ∈ table,
    m.contains a = true → n.contains b = true → m.name = n.name → a - m.base = b - n.base →
      m.base = n.base
  dummy : ∀ a b, 0 < data.cntAt a → 0 < data.cntAt b → ∀ m ∈ table, m.contains a = true →
    (∀ n ∈ table, n.contains b = false) → m.name = "dummy" → a - m.base = b → a = b

/-- No executed address lies in two modules, unless they have one name and one base. -/
def Unambiguous (data : PageMap) (table : List ModuleInfo) : Prop :=
  ∀ a, 0 < data.cntAt a → ∀ m ∈ table, ∀ n ∈ table, m.contains a = true → n.contains a = true →
    m.name = n.name ∧ m.base = n.base

/-- The module that answers contains the address in its closed range. -/
theorem contains_of_moduleOf {table : List ModuleInfo} {last : Option ModuleInfo} {addr : Usize}
    {m : ModuleInfo} (h : moduleOf table last addr = some m) : m.contains addr = true := by
  unfold moduleOf at h
  rcases Option.or_eq_some_iff.mp h with h | ⟨-, h⟩
  · exact (Option.filter_eq_some_iff.mp h).2
  · exact List.find?_some (p := fun m : ModuleInfo => m.contains addr) h

/-- Where no module answers, none contains the address. -/
theorem moduleOf_eq_none {table : List ModuleInfo} {last : Option ModuleInfo} {addr : Usize}
    (h : moduleOf table last addr = none) : ∀ m ∈ table, m.contains addr = false := by
  intro m hm
  have hfind := (Option.or_eq_none_iff.mp h).2
  simpa using List.find?_eq_none.mp hfind m hm

/-- INTERNAL: what is found for an address holds it, and nothing is found for one that no module of
the table holds. -/
theorem found_spec {table : List ModuleInfo} {last : Option ModuleInfo} {xs : List (Usize × Usize)}
    {x : Located} (hx : x ∈ locate table last xs) :
    (∀ m, x.found = some m → m.contains x.addr = true) ∧
      (x.found = none → ∀ m ∈ table, m.contains x.addr = false) := by
  induction xs generalizing last with
  | nil => cases hx
  | cons y xs ih =>
    rw [locate, List.mem_cons] at hx
    rcases hx with rfl | hx
    · exact ⟨fun m hm => contains_of_moduleOf hm, fun h => moduleOf_eq_none h⟩
    · exact ih hx

section Twins

variable {data : PageMap} {order : List (Σ _ : Usize, InsPage)} {table : List ModuleInfo}

/-- A module that is found is one of the table. -/
theorem found_mem (x : Located) (hx : x ∈ visited table order) (m : ModuleInfo)
    (hm : x.found = some m) : m ∈ table :=
  found_mem_table (fun n hn => by cases hn) hx hm

/-- INTERNAL: without twins no two addresses clash, whatever module each is found in. -/
theorem noClash_of_noTwins (ha : data.Aligned) (ho : Order data order) (h : NoTwins data table) :
    (visited table order).Pairwise fun x y => ¬ x.Clash y := by
  refine (visited_distinct table ha ho).imp_of_mem fun {x y} hx hy hne hclash => hne ?_
  have hxpos := (mem_visited table ha ho x.addr).mpr ⟨x, hx, rfl⟩
  have hypos := (mem_visited table ha ho y.addr).mpr ⟨y, hy, rfl⟩
  obtain ⟨hxin, hxout⟩ := found_spec hx
  obtain ⟨hyin, hyout⟩ := found_spec hy
  unfold Located.Clash at hclash
  cases hxm : x.found with
  | some m =>
    cases hyn : y.found with
    | some n =>
      rw [hxm, hyn] at hclash
      obtain ⟨-, hname, hoff⟩ := hclash
      have hbase := h.modules x.addr y.addr hxpos hypos m (found_mem x hx m hxm) n
        (found_mem y hy n hyn) (hxin m hxm) (hyin n hyn) hname hoff
      rw [hbase] at hoff
      exact sub_left_injective hoff
    | none =>
      rw [hxm, hyn] at hclash
      exact h.dummy x.addr y.addr hxpos hypos m (found_mem x hx m hxm) (hxin m hxm) (hyout hyn)
        hclash.1 hclash.2
  | none =>
    cases hyn : y.found with
    | some n =>
      rw [hxm, hyn] at hclash
      exact (h.dummy y.addr x.addr hypos hxpos n (found_mem y hy n hyn) (hyin n hyn) (hxout hxm)
        hclash.1 hclash.2).symm
    | none =>
      rw [hxm, hyn] at hclash
      exact hclash.elim

/-- INTERNAL: an address that one module of the table holds is found in one that tells the same. -/
theorem found_of_unambiguous (ha : data.Aligned) (ho : Order data order)
    (hu : Unambiguous data table) {addr : Usize} (hpos : 0 < data.cntAt addr) {m : ModuleInfo}
    (hm : m ∈ table) (hin : m.contains addr = true) :
    ∃ x ∈ visited table order, x.addr = addr ∧
      ∃ m', x.found = some m' ∧ m'.name = m.name ∧ m'.base = m.base := by
  obtain ⟨x, hx, rfl⟩ := (mem_visited table ha ho addr).mp hpos
  obtain ⟨hxin, hxout⟩ := found_spec hx
  cases hfound : x.found with
  | none =>
    rw [hxout hfound m hm] at hin
    cases hin
  | some m' =>
    exact ⟨x, hx, rfl, m', hfound,
      hu x.addr hpos m' (found_mem x hx m' hfound) m hm (hxin m' hfound) hin⟩

/-- INTERNAL: twins that are found in the modules they lie in clash. -/
theorem noTwins_of_noClash (ha : data.Aligned) (ho : Order data order) (hu : Unambiguous data table)
    (h : (visited table order).Pairwise fun x y => ¬ x.Clash y) : NoTwins data table := by
  have hdistinct := visited_distinct table ha ho
  -- two visits with one key are one visit
  have hone : ∀ x ∈ visited table order, ∀ y ∈ visited table order, x.label = y.label →
      x.addr = y.addr := by
    intro x hx y hy hlabel
    have hkeys := (nodupKeys_visited_iff table ha ho).mpr h
    rw [List.NodupKeys, List.keys, List.map_map] at hkeys
    exact congrArg Located.addr
      (List.inj_on_of_nodup_map hkeys hx hy (congrArg reportKey hlabel))
  refine ⟨?_, ?_⟩
  · intro a b hapos hbpos m hm n hn ham hbn hname hoff
    obtain ⟨x, hx, rfl, m', hxm, hxname, hxbase⟩ := found_of_unambiguous ha ho hu hapos hm ham
    obtain ⟨y, hy, rfl, n', hyn, hyname, hybase⟩ := found_of_unambiguous ha ho hu hbpos hn hbn
    have haddr : x.addr = y.addr := by
      apply hone x hx y hy
      rw [Located.label, Located.label, hxm, hyn]
      dsimp only
      rw [hxname, hyname, hxbase, hybase, hname, hoff]
    rw [haddr] at hoff
    exact sub_right_injective hoff
  · intro a b hapos hbpos m hm ham hbnone hname hoff
    obtain ⟨x, hx, rfl, m', hxm, hxname, hxbase⟩ := found_of_unambiguous ha ho hu hapos hm ham
    obtain ⟨y, hy, rfl⟩ := (mem_visited table ha ho b).mp hbpos
    have hyn : y.found = none := by
      cases hfound : y.found with
      | none => rfl
      | some n =>
        have hin := (found_spec hy).1 n hfound
        rw [hbnone n (found_mem y hy n hfound)] at hin
        cases hin
    apply hone x hx y hy
    rw [Located.label, Located.label, hxm, hyn]
    dsimp only
    rw [hxname, hxbase, hname, hoff]

end Twins

/-- Modules with one name have one base, and a module called `dummy` has base 0. -/
def OwnNames (table : List ModuleInfo) : Prop :=
  (∀ m ∈ table, ∀ n ∈ table, m.name = n.name → m.base = n.base) ∧
    ∀ m ∈ table, m.name = "dummy" → m.base = 0

/-- Modules with names of their own have no twins. -/
theorem OwnNames.noTwins {table : List ModuleInfo} (h : OwnNames table) (data : PageMap) :
    NoTwins data table where
  modules _ _ _ _ m hm n hn _ _ hname _ := h.1 m hm n hn hname
  dummy a b _ _ m hm _ _ hname hoff := by
    rw [h.2 m hm hname, sub_zero] at hoff
    exact hoff

/-- With such a table no count is lost, whatever was executed. -/
theorem report_conserves_of_ownNames {data : PageMap} {order : List (Σ _ : Usize, InsPage)}
    (ha : data.Aligned) (ho : Order data order) {table : List ModuleInfo} (hn : OwnNames table) :
    Conserves data (writeToFile table order) :=
  (conserves_iff_noClash ha ho table).mpr (noClash_of_noTwins ha ho (hn.noTwins data))

/-! ## Two modules with one name -/

/-- A page whose first instruction was executed once. -/
def firstOnce : InsPage := InsPage.zeroed.addAt 0 1

/-- A page with its first instruction executed has that one address. -/
theorem pageExecuted_firstOnce (page : Usize) : pageExecuted page firstOnce = [(page, 1)] := by
  have h := pageExecuted_addAt page 0 (n := 1) (by decide)
  have hzero : page + UInt64.ofNat (0 : Fin 4096).val = page := add_zero page
  rwa [hzero] at h

/-- A histogram of two pages, in the order in which it is visited. -/
def twoPages : List (Σ _ : Usize, InsPage) := [⟨0x10000, firstOnce⟩, ⟨0x30000, firstOnce⟩]

/-- The two pages are not one. -/
theorem nodupKeys_twoPages : twoPages.NodupKeys := by
  unfold List.NodupKeys twoPages
  decide

/-- The map of the two pages. -/
def twoPagesMap : PageMap := ⟨twoPages, Multiset.coe_nodupKeys.mpr nodupKeys_twoPages⟩

/-- The two pages are at pages. -/
theorem twoPages_aligned : twoPagesMap.Aligned := by
  intro page hpage
  have hmem : page ∈ [(0x10000 : Usize), 0x30000] := hpage
  simp only [List.mem_cons, List.not_mem_nil, or_false] at hmem
  rcases hmem with rfl | rfl <;> rfl

/-- Each of the two pages has its first instruction executed. -/
theorem executed_twoPages : executed twoPages = [(0x10000, 1), (0x30000, 1)] := by
  simp [executed, twoPages, pageExecuted_firstOnce]

end PtkGenerator

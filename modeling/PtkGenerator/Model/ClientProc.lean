import PtkGenerator.Model.DecodeProc

/-!
# What a client sends for a chunk

`proc_data` decodes a chunk into a fresh map and turns each page of it into a map from `u16`
indices to the counters that are not zero.  `SparseMap` is the payload of a `DataRsp` message;
`SparseMap.read` reads it as the same kind of function to summands as a `PageMap`, and the
conversion does not change the reading.
-/

set_option autoImplicit false

namespace PtkGenerator

open SumMap

/-- `HashMap<u16, InsInfo>`. -/
abbrev SparsePage := HashMap UInt16 InsInfo

/-- `HashMap<usize, HashMap<u16, InsInfo>>`, the payload of `DataRsp`. -/
abbrev SparseMap := HashMap Usize SparsePage

/-- One index of a page in the conversion: a counter that is not zero goes into the map.
SRC: server_consumer/client_proc.rs:76-78 -/
def keepNonzero (x : InsPage) (tmpPage : SparsePage) (idx : Fin 4096) : SparsePage :=
  if 0 < (x.ins idx).execCnt then tmpPage.insert (UInt16.ofNat idx.val) (x.ins idx) else tmpPage

/-- The conversion of one page: the counters that are not zero, each under its index.
SRC: server_consumer/client_proc.rs:74-79 -/
def sparsePage (x : InsPage) : SparsePage := InsPage.idxs.foldl (keepNonzero x) ∅

/-- The conversion loop of `proc_data` over the decoded map, visited in the order `order`.
SRC: server_consumer/client_proc.rs:73-81 -/
def sparsify (order : List (Σ _ : Usize, InsPage)) : SparseMap :=
  order.foldl (fun dataRst e => dataRst.insert e.1 (sparsePage e.2)) ∅

/-- `data` is a message that `proc_data` can send for a chunk: the chunk is decoded into a fresh
map and the map is converted in some order.
SRC: server_consumer/client_proc.rs:63-87 -/
def ProcData (ips : List Usize) (data : SparseMap) : Prop :=
  ∃ order, Order (asyncDecodeYield ∅ ips) order ∧ data = sparsify order

/-- The counters of a sparse page, zero where it has no entry. -/
def SparsePage.cnts (x : SparsePage) : Fin 4096 → Usize := fun i =>
  match x.lookup (UInt16.ofNat i) with
  | none => 0
  | some c => c.execCnt

/-- A sparse map as a function to summands. -/
def SparseMap.read (data : SparseMap) : Tally := total SparsePage.cnts data

/-- Every offset of the message is an index into a page. -/
def SparseMap.InPage (data : SparseMap) : Prop :=
  ∀ page x, data.lookup page = some x → ∀ i, i ∈ x → i.toNat < 4096

/-- An index of a page fits the 16 bits it is sent with. -/
theorem toNat_ofNat_idx (i : Fin 4096) : (UInt16.ofNat i.val).toNat = i.val := by
  rw [UInt16.toNat_ofNat']
  exact Nat.mod_eq_of_lt (by omega)

/-- Two indices of a page are sent as the same number only if they are the same. -/
theorem ofNat_idx_inj {i j : Fin 4096} : UInt16.ofNat i.val = UInt16.ofNat j.val ↔ i = j := by
  constructor
  · intro h
    have := congrArg UInt16.toNat h
    rw [toNat_ofNat_idx, toNat_ofNat_idx] at this
    exact Fin.ext this
  · rintro rfl
    rfl

/-- One step of the conversion of a page adds its index where there is a count. -/
theorem lookup_keepNonzero (x : InsPage) (m : SparsePage) (a j : Fin 4096) :
    (keepNonzero x m a).lookup (UInt16.ofNat j.val) =
      if j = a ∧ 0 < (x.ins j).execCnt then some (x.ins j)
      else m.lookup (UInt16.ofNat j.val) := by
  unfold keepNonzero
  by_cases h : j = a
  · subst h
    by_cases hpos : 0 < (x.ins j).execCnt
    · rw [if_pos hpos, Finmap.lookup_insert, if_pos ⟨rfl, hpos⟩]
    · have hif : ¬ (j = j ∧ 0 < (x.ins j).execCnt) := fun e => hpos e.2
      rw [if_neg hpos, if_neg hif]
  · have hne : UInt16.ofNat j.val ≠ UInt16.ofNat a.val := fun e => h (ofNat_idx_inj.mp e)
    have hif : ¬ (j = a ∧ 0 < (x.ins j).execCnt) := fun e => h e.1
    rw [if_neg hif]
    by_cases hpos : 0 < (x.ins a).execCnt
    · rw [if_pos hpos, Finmap.lookup_insert_of_ne _ hne]
    · rw [if_neg hpos]

/-- INTERNAL: after the indices `is`, the page being built has the counters at them that are not
zero, and what it had before everywhere else. -/
theorem lookup_foldl_keepNonzero (x : InsPage) (is : List (Fin 4096)) (m : SparsePage)
    (j : Fin 4096) :
    (is.foldl (keepNonzero x) m).lookup (UInt16.ofNat j.val) =
      if j ∈ is ∧ 0 < (x.ins j).execCnt then some (x.ins j)
      else m.lookup (UInt16.ofNat j.val) := by
  induction is generalizing m with
  | nil => simp
  | cons a is ih =>
    rw [List.foldl_cons, ih, lookup_keepNonzero]
    by_cases hpos : 0 < (x.ins j).execCnt
    · simp only [hpos, and_true, List.mem_cons]
      by_cases hj : j ∈ is
      · simp only [hj, or_true, if_true]
      · simp only [hj, or_false, if_false]
    · simp only [hpos, and_false, if_false]

/-- The conversion of a page adds indices of the page only. -/
theorem mem_foldl_keepNonzero (x : InsPage) (is : List (Fin 4096)) (m : SparsePage)
    (hm : ∀ k ∈ m, k.toNat < 4096) : ∀ k ∈ is.foldl (keepNonzero x) m, k.toNat < 4096 := by
  induction is generalizing m with
  | nil => exact hm
  | cons a is ih =>
    rw [List.foldl_cons]
    apply ih
    unfold keepNonzero
    split
    · intro k hk
      rw [Finmap.mem_insert] at hk
      rcases hk with rfl | hk
      · rw [toNat_ofNat_idx]
        exact a.isLt
      · exact hm k hk
    · exact hm

/-- The sparse page has the counts of the page. -/
@[simp] theorem cnts_sparsePage (x : InsPage) : (sparsePage x).cnts = x.cnts := by
  funext j
  rw [SparsePage.cnts, sparsePage, lookup_foldl_keepNonzero]
  by_cases h : 0 < (x.ins j).execCnt
  · rw [if_pos ⟨InsPage.mem_idxs j, h⟩]
    rfl
  · have h0 : (x.ins j).execCnt = 0 := by
      apply UInt64.toNat.inj
      rw [UInt64.lt_iff_toNat_lt] at h
      simpa using h
    have hif : ¬ (j ∈ InsPage.idxs ∧ 0 < (x.ins j).execCnt) := fun e => h e.2
    rw [if_neg hif, Finmap.lookup_empty]
    exact h0.symm

/-- The indices of a sparse page are indices of a page. -/
theorem mem_sparsePage_lt (x : InsPage) (k : UInt16) (h : k ∈ sparsePage x) : k.toNat < 4096 := by
  refine mem_foldl_keepNonzero x InsPage.idxs ∅ ?_ k h
  exact fun k hk => absurd hk Finmap.notMem_empty

/-- The sparse map has at each page the sparse page, whatever the order of the entries. -/
theorem lookup_sparsify {m : PageMap} {order : List (Σ _ : Usize, InsPage)} (h : Order m order)
    (page : Usize) : (sparsify order).lookup page = (m.lookup page).map sparsePage := by
  rw [sparsify, lookup_foldl_insert sparsePage order h.nodupKeys, h.dlookup, Finmap.lookup_empty,
    Option.or_none]

/-- INTERNAL: the conversion keeps the reading of the map, in whatever order it goes.
SRC: server_consumer/client_proc.rs:73-81 -/
theorem read_sparsify {m : PageMap} {order : List (Σ _ : Usize, InsPage)} (h : Order m order) :
    (sparsify order).read = m.read := by
  funext page
  rw [SparseMap.read, PageMap.read, total, total, lookup_sparsify h]
  cases m.lookup page <;> simp

/-- The counts of a chunk reach the wire as they are. -/
theorem ProcData.read {ips : List Usize} {data : SparseMap} (h : ProcData ips data) :
    data.read = hist ips := by
  obtain ⟨order, ho, rfl⟩ := h
  rw [read_sparsify ho]
  simp

/-- The indices that go on the wire are within their pages. -/
theorem ProcData.inPage {ips : List Usize} {data : SparseMap} (h : ProcData ips data) :
    data.InPage := by
  obtain ⟨order, ho, rfl⟩ := h
  intro page x hx i hi
  rw [lookup_sparsify ho, Option.map_eq_some_iff] at hx
  obtain ⟨p, -, rfl⟩ := hx
  exact mem_sparsePage_lt p i hi

/-- Every chunk is turned into a message in some order of its map. -/
theorem exists_procData (ips : List Usize) : ∃ data, ProcData ips data := by
  obtain ⟨order, h⟩ := order_of_entries (asyncDecodeYield ∅ ips)
  exact ⟨sparsify order, order, h, rfl⟩

end PtkGenerator

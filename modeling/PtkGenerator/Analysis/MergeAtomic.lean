import PtkGenerator.Analysis.DistributedDecode

/-!
# Merging a message: all of it, or a panic

The index of an entry is a `u16` on the wire, and a page has 4096 counters.  A message with an index
outside of a page panics in the middle of the merge, at the first such index of the visit: what came
before it stays merged.  Every other message is merged as a whole.
-/

set_option autoImplicit false

namespace PtkGenerator

open SumMap

/-- Every counter of the message is added at its page and its offset, the other counters are
unchanged, and no other page is added. -/
structure Merged (rstData : PageMap) (data : SparseMap) (rst' : PageMap) : Prop where
  added : ∀ page x, data.lookup page = some x → ∀ i cur, x.lookup i = some cur →
    ∃ h : i.toNat < 4096, (rst'.cnt page ⟨i.toNat, h⟩).toNat =
      (rstData.cnt page ⟨i.toNat, h⟩).toNat + cur.execCnt.toNat
  unchanged : ∀ page (i : Fin 4096),
    (∀ x, data.lookup page = some x → UInt16.ofNat i.val ∉ x) →
      rst'.cnt page i = rstData.cnt page i
  pages : ∀ page, page ∈ rst' ↔ page ∈ rstData ∨ page ∈ data

/-- No sum of two counters exceeds 64 bits. -/
def SumsFit (rstData : PageMap) (data : SparseMap) : Prop :=
  ∀ page x, data.lookup page = some x → ∀ i cur, x.lookup i = some cur → ∀ h : i.toNat < 4096,
    (rstData.cnt page ⟨i.toNat, h⟩).toNat + cur.execCnt.toNat < 2 ^ 64

/-- The arm runs to its end, and merges the message or leaves the map as it is. -/
def MergesAtomically (rstData : PageMap) (data : SparseMap) (visit : Visit) : Prop :=
  ∃ rst', dataRsp rstData visit = .done rst' ∧ (Merged rstData data rst' ∨ rst' = rstData)

/-! ## A message with indices of a page -/

/-- The counts of a message, page by page. -/
theorem SparseMap.cnt_read (data : SparseMap) (page : Usize) (i : Fin 4096) :
    data.read.cnt page i = match data.lookup page with
      | none => 0
      | some x => x.cnts i := by
  unfold Tally.cnt SparseMap.read total
  cases data.lookup page <;> rfl

/-- A count of a message is what its entry says. -/
theorem SparseMap.cnt_read_of_lookup {data : SparseMap} {page : Usize} {x : SparsePage}
    (hx : data.lookup page = some x) {i : UInt16} {cur : InsInfo} (hc : x.lookup i = some cur)
    (hi : i.toNat < 4096) : data.read.cnt page ⟨i.toNat, hi⟩ = cur.execCnt := by
  rw [SparseMap.cnt_read, hx]
  simp only [SparsePage.cnts]
  rw [UInt16.ofNat_toNat, hc]

/-- A message counts nothing where it has no entry. -/
theorem SparseMap.cnt_read_of_notMem {data : SparseMap} {page : Usize} {i : Fin 4096}
    (h : ∀ x, data.lookup page = some x → UInt16.ofNat i.val ∉ x) :
    data.read.cnt page i = 0 := by
  rw [SparseMap.cnt_read]
  cases hx : data.lookup page with
  | none => rfl
  | some x => simp only [SparsePage.cnts, Finmap.lookup_eq_none.mpr (h x hx)]

/-- A page is in a message if the message counts there. -/
theorem SparseMap.mem_iff (data : SparseMap) (page : Usize) : page ∈ data ↔ data.read page ≠ 0 :=
  mem_iff_total_ne_zero SparsePage.cnts data page

/-- INTERNAL: a message with indices of a page is merged as a whole, in whatever order. -/
theorem merged_of_inPage {rstData : PageMap} {data : SparseMap} {visit : Visit}
    (hv : Visits data visit) (hfit : SumsFit rstData data) (hin : data.InPage) :
    ∃ rst', dataRsp rstData visit = .done rst' ∧ Merged rstData data rst' := by
  obtain ⟨rst', hdone, hread⟩ := dataRsp_visits hv hin rstData
  have hcnt : ∀ page i, rst'.cnt page i = rstData.cnt page i + data.read.cnt page i := by
    intro page i
    rw [PageMap.cnt_eq_read, PageMap.cnt_eq_read, hread, Tally.cnt_add]
  refine ⟨rst', hdone, ?_, ?_, ?_⟩
  · intro page x hx i cur hc
    have hi : i.toNat < 4096 := hin page x hx i (Finmap.mem_of_lookup_eq_some hc)
    refine ⟨hi, ?_⟩
    rw [hcnt, SparseMap.cnt_read_of_lookup hx hc hi, UInt64.toNat_add,
      Nat.mod_eq_of_lt (hfit page x hx i cur hc hi)]
  · intro page i h
    rw [hcnt, SparseMap.cnt_read_of_notMem h, add_zero]
  · intro page
    rw [PageMap.mem_iff, PageMap.mem_iff, SparseMap.mem_iff, hread, Pi.add_apply,
      add_ne_zero_iff]

/-! ## A message with another index -/

/-- An index of 4096 or more makes the merge of its page panic. -/
theorem addSparse_panicked {insn : List (Σ _ : UInt16, InsInfo)}
    (h : ¬ ∀ c ∈ insn, c.1.toNat < 4096) (p : InsPage) : ∃ p', addSparse p insn = .panicked p' := by
  induction insn generalizing p with
  | nil => exact absurd (List.forall_mem_nil _) h
  | cons c insn ih =>
    obtain ⟨i, cur⟩ := c
    rw [List.forall_mem_cons, not_and] at h
    rw [addSparse]
    by_cases hi : i.toNat < 4096
    · rw [dif_pos hi]
      exact ih (h hi) _
    · rw [dif_neg hi]
      exact ⟨p, rfl⟩

/-- A page with an index of 4096 or more makes the merge panic. -/
theorem mergePage_panicked {insn : List (Σ _ : UInt16, InsInfo)}
    (h : ¬ ∀ c ∈ insn, c.1.toNat < 4096) (rstData : PageMap) (page : Usize) :
    ∃ rst', mergePage rstData page insn = .panicked rst' := by
  unfold mergePage
  cases rstData.lookup page with
  | none =>
    obtain ⟨p', hp'⟩ := addSparse_panicked h InsPage.zeroed
    simp only [hp']
    exact ⟨_, rfl⟩
  | some p =>
    obtain ⟨p', hp'⟩ := addSparse_panicked h p
    simp only [hp']
    exact ⟨_, rfl⟩

/-- INTERNAL: **a visit that meets an index outside of a page panics**, whatever it merged before.
SRC: server_consumer/client_agent.rs:142-154 -/
theorem dataRsp_panicked {visit : Visit} (h : ¬ ∀ e ∈ visit, ∀ c ∈ e.2, c.1.toNat < 4096)
    (rstData : PageMap) : ∃ rst', dataRsp rstData visit = .panicked rst' := by
  induction visit generalizing rstData with
  | nil => exact absurd (List.forall_mem_nil _) h
  | cons e visit ih =>
    obtain ⟨page, insn⟩ := e
    rw [List.forall_mem_cons, not_and] at h
    rw [dataRsp]
    by_cases hpage : ∀ c ∈ insn, c.1.toNat < 4096
    · obtain ⟨r, hr, -⟩ := mergePage_done hpage rstData page
      simp only [hr]
      exact ih (h hpage) r
    · obtain ⟨rst', hrst'⟩ := mergePage_panicked hpage rstData page
      simp only [hrst']
      exact ⟨rst', rfl⟩

/-- A message is within its pages if the visited entries are. -/
theorem Visits.inPage {data : SparseMap} {visit : Visit} (h : Visits data visit)
    (hlt : ∀ e ∈ visit, ∀ c ∈ e.2, c.1.toNat < 4096) : data.InPage := by
  obtain ⟨order, ho, hv⟩ := h
  intro page x hx i hi
  rw [← ho.dlookup] at hx
  obtain ⟨v, hvm, -, hev⟩ := exists_of_mem_right hv.flip (List.of_mem_dlookup hx)
  rw [← Finmap.lookup_isSome, ← hev.dlookup, List.dlookup_isSome, List.mem_keys] at hi
  obtain ⟨cur, hcur⟩ := hi
  exact hlt v hvm _ hcur

/-- MAIN: **a message is merged atomically if and only if its indices are indices of a page.**  For
every map, every message whose counters can be added in 64 bits, and every order in which its maps
are visited.
SRC: server_consumer/client_agent.rs:139-155 -/
theorem merge_atomic_iff {rstData : PageMap} {data : SparseMap} {visit : Visit}
    (hv : Visits data visit) (hfit : SumsFit rstData data) :
    MergesAtomically rstData data visit ↔ data.InPage := by
  constructor
  · rintro ⟨rst', hdone, -⟩
    by_contra hin
    obtain ⟨r, hr⟩ := dataRsp_panicked (fun hlt => hin (hv.inPage hlt)) rstData
    rw [hr] at hdone
    cases hdone
  · intro hin
    obtain ⟨rst', hdone, hmerged⟩ := merged_of_inPage hv hfit hin
    exact ⟨rst', hdone, .inl hmerged⟩

/-- Into an empty map every message fits. -/
theorem sumsFit_empty (data : SparseMap) : SumsFit ∅ data := by
  intro page x _ i cur _ hi
  have hzero : (PageMap.cnt ∅ page ⟨i.toNat, hi⟩).toNat = 0 := by
    rw [PageMap.cnt, Finmap.lookup_empty]
    rfl
  have := cur.execCnt.toNat_lt
  omega

/-- A page of a message with one counter. -/
def oneEntry (i : UInt16) : SparsePage := Finmap.insert i ⟨1⟩ ∅

/-- One entry is an order of itself. -/
theorem oneEntry_order (i : UInt16) : Order (oneEntry i) [⟨i, ⟨1⟩⟩] :=
  order_foldl_insert (List.nodupKeys_singleton _)

/-- One page with one entry, visited. -/
theorem onePage_visits :
    Visits (Finmap.insert 0x1000 (oneEntry 0) ∅) [(0x1000, [⟨0, ⟨1⟩⟩])] :=
  ⟨[⟨0x1000, oneEntry 0⟩], order_foldl_insert (List.nodupKeys_singleton _),
    .cons ⟨rfl, oneEntry_order 0⟩ .nil⟩

/-- One page with one entry is merged as a whole. -/
theorem merge_atomic_onePage :
    MergesAtomically ∅ (Finmap.insert 0x1000 (oneEntry 0) ∅) [(0x1000, [⟨0, ⟨1⟩⟩])] :=
  (merge_atomic_iff onePage_visits (sumsFit_empty _)).mpr (onePage_visits.inPage (by decide))

/-- A page that can be merged, and behind it one that cannot. -/
def twoPagesVisit : Visit := [(0x1000, [⟨0, ⟨1⟩⟩]), (0x2000, [⟨4096, ⟨1⟩⟩])]

/-- The first page is merged, the second one panics. -/
theorem dataRsp_twoPagesVisit : dataRsp ∅ twoPagesVisit =
    .panicked (Finmap.insert 0x1000 (InsPage.zeroed.addAt 0 1) ∅) := by
  have hfirst : mergePage ∅ 0x1000 [⟨0, ⟨1⟩⟩] =
      .done (Finmap.insert 0x1000 (InsPage.zeroed.addAt 0 1) ∅) := rfl
  have hsecond : mergePage (Finmap.insert 0x1000 (InsPage.zeroed.addAt 0 1) ∅) 0x2000
      [⟨4096, ⟨1⟩⟩] = .panicked (Finmap.insert 0x1000 (InsPage.zeroed.addAt 0 1) ∅) := by
    rw [mergePage, Finmap.lookup_insert_of_ne _ (by decide), Finmap.lookup_empty]
    rfl
  rw [twoPagesVisit, dataRsp, hfirst]
  simp only [dataRsp, hsecond]

/-- MAIN: a message with the index 4096 in its second page ends the receive task, with the first
page merged.
SRC: server_consumer/client_agent.rs:144-145, 150 -/
theorem second_page_panics : ¬ ∀ (rstData : PageMap) (data : SparseMap) (visit : Visit),
    Visits data visit → SumsFit rstData data → MergesAtomically rstData data visit := by
  intro hall
  have hvisits : Visits
      (Finmap.insert 0x2000 (oneEntry 4096) (Finmap.insert 0x1000 (oneEntry 0) ∅)) twoPagesVisit :=
    ⟨[⟨0x1000, oneEntry 0⟩, ⟨0x2000, oneEntry 4096⟩], order_foldl_insert (by simp),
      .cons ⟨rfl, oneEntry_order 0⟩ (.cons ⟨rfl, oneEntry_order 4096⟩ .nil)⟩
  obtain ⟨rst', hdone, -⟩ := hall ∅ _ _ hvisits (sumsFit_empty _)
  rw [dataRsp_twoPagesVisit] at hdone
  cases hdone

end PtkGenerator

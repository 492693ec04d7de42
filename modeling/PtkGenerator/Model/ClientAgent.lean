import PtkGenerator.Model.ClientProc

/-!
# The agent of one client: collecting its results

The receive task of a `ClientAgent` merges the `DataRsp` messages of its client into `rst_data`;
`has_result` and `fetch_result` are how the pool gets at that map.  A message is merged in the
order in which its hash maps are visited (`Visit`), and an index outside of a page panics in the
middle of the loop, so the arm ends in an `Outcome`.
-/

set_option autoImplicit false

namespace PtkGenerator

open SumMap

/-- `ClientState`. -/
inductive ClientState where
  | connected
  | activate
  | working
  | inActivate
  | disConnect
  deriving DecidableEq

/-- The order in which the two nested maps of a message are visited. -/
abbrev Visit := List (Usize × List (Σ _ : UInt16, InsInfo))

/-- `visit` goes through the message `data`: through its pages in some order, and through each of
them in some order. -/
def Visits (data : SparseMap) (visit : Visit) : Prop :=
  ∃ order, Order data order ∧
    List.Forall₂ (fun e v => v.1 = e.1 ∧ Order e.2 v.2) order visit

/-- `for (i, cur) in insn.iter() { p[*i as usize].exec_cnt += cur.exec_cnt; }`.
SRC: server_consumer/client_agent.rs:144-146, 149-151 -/
def addSparse (p : InsPage) : List (Σ _ : UInt16, InsInfo) → Outcome InsPage
  | [] => .done p
  | ⟨i, cur⟩ :: insn =>
    if h : i.toNat < 4096 then addSparse (p.addAt ⟨i.toNat, h⟩ cur.execCnt) insn
    else .panicked p

/-- One page of the message: into the page that is there, which is changed in place, or into a
new one that is inserted once it is complete.
SRC: server_consumer/client_agent.rs:143-153 -/
def mergePage (rstData : PageMap) (page : Usize) (insn : List (Σ _ : UInt16, InsInfo)) :
    Outcome PageMap :=
  match rstData.lookup page with
  | some p =>
    match addSparse p insn with
    | .done p' => .done (rstData.insert page p')
    | .panicked p' => .panicked (rstData.insert page p')
  | none =>
    match addSparse InsPage.zeroed insn with
    | .done tmp => .done (rstData.insert page tmp)
    | .panicked _ => .panicked rstData

/-- The `DataRsp` arm of the receive task.
SRC: server_consumer/client_agent.rs:139-155 -/
def dataRsp (rstData : PageMap) : Visit → Outcome PageMap
  | [] => .done rstData
  | (page, insn) :: visit =>
    match mergePage rstData page insn with
    | .done rstData' => dataRsp rstData' visit
    | .panicked rstData' => .panicked rstData'

/-- `has_result`: what the source returns is whether the map is empty.
SRC: server_consumer/client_agent.rs:186-189 -/
def hasResult (rstData : PageMap) : Bool := decide (rstData.keys = ∅)

/-- `fetch_result`: a copy of the map, which is cleared.
SRC: server_consumer/client_agent.rs:191-196 -/
def fetchResult (rstData : PageMap) : PageMap × PageMap := (rstData, ∅)

/-- `has_result` is true of the empty map, and of no other. -/
@[simp] theorem hasResult_iff (rstData : PageMap) : hasResult rstData = true ↔ rstData = ∅ := by
  rw [hasResult, decide_eq_true_eq]
  constructor
  · intro h
    apply Finmap.ext_lookup
    intro k
    rw [Finmap.lookup_empty, Finmap.lookup_eq_none, ← Finmap.mem_keys, h]
    exact Finset.notMem_empty k
  · rintro rfl
    exact Finmap.keys_empty

/-! ## What the merge adds -/

/-- The counters a visited page adds: those of its indices inside a page. -/
def sparseCnts (insn : List (Σ _ : UInt16, InsInfo)) : Fin 4096 → Usize :=
  (insn.map fun c =>
    if h : c.1.toNat < 4096 then Pi.single ⟨c.1.toNat, h⟩ c.2.execCnt else 0).sum

/-- INTERNAL: the inner loop runs to its end exactly when every index is one of a page, and then
adds every counter.
SRC: server_consumer/client_agent.rs:144-146 -/
theorem addSparse_done {insn : List (Σ _ : UInt16, InsInfo)} (h : ∀ c ∈ insn, c.1.toNat < 4096)
    (p : InsPage) : ∃ p', addSparse p insn = .done p' ∧ p'.cnts = p.cnts + sparseCnts insn := by
  induction insn generalizing p with
  | nil => exact ⟨p, rfl, by simp [sparseCnts]⟩
  | cons c insn ih =>
    obtain ⟨i, cur⟩ := c
    have hi : i.toNat < 4096 := h ⟨i, cur⟩ List.mem_cons_self
    obtain ⟨p', hp', hc⟩ := ih (fun c hc => h c (List.mem_cons_of_mem _ hc))
      (p.addAt ⟨i.toNat, hi⟩ cur.execCnt)
    refine ⟨p', ?_, ?_⟩
    · rw [addSparse, dif_pos hi, hp']
    · rw [hc, InsPage.cnts_addAt, sparseCnts, sparseCnts, List.map_cons, List.sum_cons, dif_pos hi,
        add_assoc]

/-- With indices below 4096 the merge of a page adds its counts and does not panic. -/
theorem mergePage_done {insn : List (Σ _ : UInt16, InsInfo)} (h : ∀ c ∈ insn, c.1.toNat < 4096)
    (rstData : PageMap) (page : Usize) :
    ∃ rst', mergePage rstData page insn = .done rst' ∧
      rst'.read = rstData.read + single page (sparseCnts insn) := by
  obtain ⟨tmp, htmp, hz⟩ := addSparse_done h InsPage.zeroed
  -- the update of a present page, as a function, so that the step is an `upsert`
  have hstep : ∀ old, ∃ p', addSparse old insn = .done p' ∧
      p'.cnts = old.cnts + sparseCnts insn := fun old => addSparse_done h old
  choose f hf hadd using hstep
  refine ⟨upsert f tmp page rstData, ?_, ?_⟩
  · unfold mergePage upsert
    cases rstData.lookup page with
    | none => simp [htmp]
    | some p => simp [hf]
  · exact total_upsert hadd (by simp [hz]) page rstData

/-- INTERNAL: **a message with indices of a page is merged to its end**, and its pages are added
in the order of the visit.
SRC: server_consumer/client_agent.rs:139-155 -/
theorem dataRsp_done {visit : Visit} (h : ∀ e ∈ visit, ∀ c ∈ e.2, c.1.toNat < 4096)
    (rstData : PageMap) :
    ∃ rst', dataRsp rstData visit = .done rst' ∧
      rst'.read = rstData.read + (visit.map fun e => single e.1 (sparseCnts e.2)).sum := by
  induction visit generalizing rstData with
  | nil => exact ⟨rstData, rfl, by simp⟩
  | cons e visit ih =>
    obtain ⟨page, insn⟩ := e
    obtain ⟨r₁, h₁, hr₁⟩ := mergePage_done (h (page, insn) List.mem_cons_self) rstData page
    obtain ⟨r₂, h₂, hr₂⟩ := ih (fun e he => h e (List.mem_cons_of_mem _ he)) r₁
    refine ⟨r₂, ?_, ?_⟩
    · rw [dataRsp, h₁]
      exact h₂
    · rw [hr₂, hr₁, List.map_cons, List.sum_cons, add_assoc]

/-! ## A visit of a message -/

/-- The visited entries of a page hold its counts, in any order. -/
theorem sparseCnts_of_order {x : SparsePage} {insn : List (Σ _ : UInt16, InsInfo)}
    (ho : Order x insn) (hx : ∀ i ∈ x, i.toNat < 4096) : sparseCnts insn = x.cnts := by
  have key : ∀ l : List (Σ _ : UInt16, InsInfo), l.NodupKeys → (∀ c ∈ l, c.1.toNat < 4096) →
      ∀ j : Fin 4096, sparseCnts l j =
        (l.dlookup (UInt16.ofNat j.val)).elim 0 InsInfo.execCnt := by
    intro l
    induction l with
    | nil => simp [sparseCnts]
    | cons c l ih =>
      intro hl hlt j
      rw [List.nodupKeys_cons] at hl
      have hc := hlt c List.mem_cons_self
      have hcons : sparseCnts (c :: l) j =
          (Pi.single ⟨c.1.toNat, hc⟩ c.2.execCnt : Fin 4096 → Usize) j + sparseCnts l j := by
        rw [sparseCnts, List.map_cons, List.sum_cons, dif_pos hc]
        rfl
      rw [hcons, ih hl.2 (fun c h => hlt c (List.mem_cons_of_mem _ h)) j]
      by_cases hj : UInt16.ofNat j.val = c.1
      · have hidx : j = ⟨c.1.toNat, hc⟩ := by
          apply Fin.ext
          rw [← toNat_ofNat_idx j, hj]
        rw [hj, List.dlookup_cons_eq, List.dlookup_eq_none.mpr hl.1, ← hidx]
        simp
      · have hne : j ≠ ⟨c.1.toNat, hc⟩ := by
          rintro rfl
          exact hj (by simp)
        rw [List.dlookup_cons_ne l c hj, Pi.single_eq_of_ne hne, zero_add]
  funext j
  have hmem : ∀ c ∈ insn, c.1.toNat < 4096 := by
    intro c hc
    apply hx
    rw [← Finmap.lookup_isSome, ← ho.dlookup, List.dlookup_isSome]
    exact List.mem_keys_of_mem hc
  rw [key insn ho.nodupKeys hmem j, ho.dlookup, SparsePage.cnts]
  cases x.lookup (UInt16.ofNat j.val) with
  | none | some c => rfl

/-- Where every index of the message is within its page, so is every index that is visited. -/
theorem Visits.lt {data : SparseMap} {visit : Visit} (h : Visits data visit)
    (hin : data.InPage) : ∀ e ∈ visit, ∀ c ∈ e.2, c.1.toNat < 4096 := by
  obtain ⟨order, ho, hv⟩ := h
  intro v hvm c hc
  obtain ⟨e, he, hev⟩ := exists_of_mem_right hv hvm
  have hl : data.lookup e.1 = some e.2 := by
    rw [← ho.dlookup]
    exact List.mem_dlookup ho.nodupKeys he
  refine hin e.1 e.2 hl c.1 ?_
  rw [← Finmap.lookup_isSome, ← hev.2.dlookup, List.dlookup_isSome]
  exact List.mem_keys_of_mem hc

/-- INTERNAL: **a visit adds the message**, in whatever order it goes through the two maps. -/
theorem Visits.sum {data : SparseMap} {visit : Visit} (h : Visits data visit)
    (hin : data.InPage) :
    (visit.map fun e => single e.1 (sparseCnts e.2)).sum = data.read := by
  obtain ⟨order, ho, hv⟩ := h
  have hx : ∀ e ∈ order, ∀ i ∈ e.2, i.toNat < 4096 := by
    intro e he i hi
    refine hin e.1 e.2 ?_ i hi
    rw [← ho.dlookup]
    exact List.mem_dlookup ho.nodupKeys he
  rw [SparseMap.read, ← sum_order ho SparsePage.cnts]
  congr 1
  clear ho
  induction hv with
  | nil => rfl
  | cons hab _ ih =>
    rw [List.map_cons, List.map_cons, ih (fun e he => hx e (List.mem_cons_of_mem _ he)), hab.1,
      sparseCnts_of_order hab.2 (hx _ List.mem_cons_self)]

/-- INTERNAL: **merging a message adds it**, for every order of iteration.
SRC: server_consumer/client_agent.rs:139-155 -/
theorem dataRsp_visits {data : SparseMap} {visit : Visit} (h : Visits data visit)
    (hin : data.InPage) (rstData : PageMap) :
    ∃ rst', dataRsp rstData visit = .done rst' ∧ rst'.read = rstData.read + data.read := by
  obtain ⟨rst', h₁, h₂⟩ := dataRsp_done (h.lt hin) rstData
  exact ⟨rst', h₁, by rw [h₂, h.sum hin]⟩

/-- Every message can be visited in some order. -/
theorem exists_visits (data : SparseMap) : ∃ visit, Visits data visit := by
  obtain ⟨order, ho⟩ := order_of_entries data
  have hall : ∀ o : List (Σ _ : Usize, SparsePage), ∃ visit : Visit,
      List.Forall₂ (fun e v => v.1 = e.1 ∧ Order e.2 v.2) o visit := by
    intro o
    induction o with
    | nil => exact ⟨[], .nil⟩
    | cons e o ih =>
      obtain ⟨visit, hv⟩ := ih
      obtain ⟨insn, hi⟩ := order_of_entries e.2
      exact ⟨(e.1, insn) :: visit, .cons ⟨rfl, hi⟩ hv⟩
  obtain ⟨visit, hv⟩ := hall order
  exact ⟨visit, order, ho, hv⟩

end PtkGenerator

import PtkGenerator.Model.ClientAgent

/-!
# Distributed decoding refines local decoding

Both paths count the instructions of the same chunks.  Locally every worker decodes its share
into one map and `collect_all_data` merges the maps.  In the distributed path every chunk is
decoded into a map of its own, converted, sent, merged by the agent of the client, and
`get_result` merges what it fetches from the agents.

Each of these loops is a homomorphism into tallies (`read_decodeYield`, `ProcData.read`,
`dataRsp_visits`, `PageMap.read_merge`), so both paths read as the sum of the histograms of the
chunks they worked on.  That sum does not see how the chunks were shared out, in which order
the messages arrived or in which order a hash map was visited.
-/

set_option autoImplicit false

namespace PtkGenerator

open SumMap

/-- `collect_all_data`: the maps of the workers, each visited in some order, are merged one
after the other.
SRC: bin/online_proc.rs:272-292 -/
def collectAllData (orders : List (List (Σ _ : Usize, InsPage))) : PageMap :=
  orders.foldl PageMap.merge ∅

/-- The merge loop of `get_result` over the maps fetched from the agents.
SRC: server_consumer/client_pool.rs:90-106 -/
def getResultMerge (orders : List (List (Σ _ : Usize, InsPage))) : PageMap :=
  orders.foldl PageMap.merge ∅

/-- The map of a worker that decodes the chunks `part`, one after the other.
SRC: bin/online_proc.rs:44-53 -/
def workerMap (part : List (List Usize)) : PageMap := part.foldl decodeYield ∅

/-- The `DataRsp` messages of an agent, merged as they arrive; a panic ends the task.
SRC: server_consumer/client_agent.rs:113, 139-155 -/
def mergeArrivals (rstData : PageMap) : List Visit → Outcome PageMap
  | [] => .done rstData
  | visit :: visits =>
    match dataRsp rstData visit with
    | .done rstData' => mergeArrivals rstData' visits
    | .panicked rstData' => .panicked rstData'

/-- A local run over the chunks: how they are shared out among the workers, and the order in
which the map of each worker is visited at the end. -/
structure LocalRun (chunks : List (List Usize)) where
  parts : List (List (List Usize))
  parts_perm : parts.flatten.Perm chunks
  orders : List (List (Σ _ : Usize, InsPage))
  orders_spec : List.Forall₂ (fun part order => Order (workerMap part) order) parts orders

/-- The map a local run ends with. -/
def LocalRun.result {chunks : List (List Usize)} (r : LocalRun chunks) : PageMap :=
  collectAllData r.orders

/-- One agent of a distributed run: the chunks its two workers decode, the messages each of
them sends, the order in which they arrive and the order in which each of them is visited. -/
structure AgentRun where
  chunks₀ : List (List Usize)
  chunks₁ : List (List Usize)
  sent₀ : List SparseMap
  sent₁ : List SparseMap
  sent₀_spec : List.Forall₂ ProcData chunks₀ sent₀
  sent₁_spec : List.Forall₂ ProcData chunks₁ sent₁
  arrivals : List SparseMap
  arrivals_perm : arrivals.Perm (sent₀ ++ sent₁)
  visits : List Visit
  visits_spec : List.Forall₂ Visits arrivals visits

namespace AgentRun

/-- The chunks published to the agent. -/
def chunks (a : AgentRun) : List (List Usize) := a.chunks₀ ++ a.chunks₁

/-- How the receive task of the agent ends its run over the messages. -/
def outcome (a : AgentRun) : Outcome PageMap := mergeArrivals ∅ a.visits

/-- The map the pool fetches from the agent. -/
def fetched (a : AgentRun) : PageMap := (fetchResult a.outcome.state).1

end AgentRun

/-- A distributed run over the chunks: the agents, and the order in which the map fetched from
each of them is visited. -/
structure DistributedRun (chunks : List (List Usize)) where
  agents : List AgentRun
  agents_perm : (agents.map AgentRun.chunks).flatten.Perm chunks
  orders : List (List (Σ _ : Usize, InsPage))
  orders_spec : List.Forall₂ (fun a order => Order a.fetched order) agents orders

/-- The map a distributed run ends with. -/
def DistributedRun.result {chunks : List (List Usize)} (r : DistributedRun chunks) : PageMap :=
  getResultMerge r.orders

/-! ## The readings of the two paths -/

/-- The merge of maps, in any order of each, adds their counts. -/
theorem read_foldl_merge {ι : Type} {f : ι → PageMap} {is : List ι}
    {orders : List (List (Σ _ : Usize, InsPage))}
    (h : List.Forall₂ (fun i order => Order (f i) order) is orders) (rst : PageMap) :
    (orders.foldl PageMap.merge rst).read = rst.read + (is.map fun i => (f i).read).sum := by
  induction h generalizing rst with
  | nil => simp
  | cons ho _ ih =>
    rw [List.foldl_cons, ih, PageMap.read_merge ho, List.map_cons, List.sum_cons, add_assoc]

/-- The map of a worker counts its chunks. -/
theorem read_workerMap (part : List (List Usize)) :
    (workerMap part).read = (part.map hist).sum := by
  rw [workerMap, foldl_sum PageMap.read decodeYield hist read_decodeYield]
  simp

/-- The parts of the chunks have the counts of the chunks. -/
theorem sum_hist_of_perm {parts : List (List (List Usize))} {chunks : List (List Usize)}
    (h : parts.flatten.Perm chunks) :
    (parts.map fun part => (part.map hist).sum).sum = (chunks.map hist).sum := by
  rw [← (h.map hist).sum_eq, List.map_flatten, List.sum_flatten, List.map_map]
  rfl

/-- The local run counts every chunk. -/
theorem LocalRun.read_result {chunks : List (List Usize)} (r : LocalRun chunks) :
    r.result.read = (chunks.map hist).sum := by
  rw [result, collectAllData, read_foldl_merge r.orders_spec, PageMap.read_empty, zero_add]
  simp only [read_workerMap]
  exact sum_hist_of_perm r.parts_perm

/-- INTERNAL: the receive task merges all messages of the clients, and never panics on one.
SRC: server_consumer/client_agent.rs:139-155 -/
theorem mergeArrivals_done {arrivals : List SparseMap} {visits : List Visit}
    (h : List.Forall₂ Visits arrivals visits) (hin : ∀ d ∈ arrivals, d.InPage)
    (rstData : PageMap) :
    ∃ rst', mergeArrivals rstData visits = .done rst' ∧
      rst'.read = rstData.read + (arrivals.map SparseMap.read).sum := by
  induction h generalizing rstData with
  | nil => exact ⟨rstData, rfl, by simp⟩
  | cons hv _ ih =>
    obtain ⟨r₁, h₁, hr₁⟩ := dataRsp_visits hv (hin _ List.mem_cons_self) rstData
    obtain ⟨r₂, h₂, hr₂⟩ := ih (fun d hd => hin d (List.mem_cons_of_mem _ hd)) r₁
    refine ⟨r₂, ?_, ?_⟩
    · rw [mergeArrivals, h₁]
      exact h₂
    · rw [hr₂, hr₁, List.map_cons, List.sum_cons, add_assoc]

/-- Each message has the counts of its chunk, and indices within the pages. -/
theorem forall₂_procData {chunks : List (List Usize)} {sent : List SparseMap}
    (h : List.Forall₂ ProcData chunks sent) :
    (∀ d ∈ sent, d.InPage) ∧ sent.map SparseMap.read = chunks.map hist := by
  induction h with
  | nil => simp
  | cons hp _ ih =>
    refine ⟨?_, by rw [List.map_cons, List.map_cons, ih.2, hp.read]⟩
    intro d hd
    rcases List.mem_cons.mp hd with rfl | hd
    · exact hp.inPage
    · exact ih.1 d hd

/-- INTERNAL: the agent ends with the sum of the histograms of its chunks, in whatever order
the messages of its two workers arrive. -/
theorem AgentRun.outcome_done (a : AgentRun) :
    ∃ rst', a.outcome = .done rst' ∧ rst'.read = (a.chunks.map hist).sum := by
  obtain ⟨hin₀, hr₀⟩ := forall₂_procData a.sent₀_spec
  obtain ⟨hin₁, hr₁⟩ := forall₂_procData a.sent₁_spec
  have hin : ∀ d ∈ a.arrivals, d.InPage := by
    intro d hd
    rcases List.mem_append.mp (a.arrivals_perm.mem_iff.mp hd) with h | h
    · exact hin₀ d h
    · exact hin₁ d h
  obtain ⟨rst', h₁, h₂⟩ := mergeArrivals_done a.visits_spec hin ∅
  refine ⟨rst', h₁, ?_⟩
  rw [h₂, (a.arrivals_perm.map SparseMap.read).sum_eq, List.map_append, hr₀, hr₁,
    PageMap.read_empty, zero_add, chunks, List.map_append]

/-- What is fetched from an agent counts the chunks of its client. -/
theorem AgentRun.read_fetched (a : AgentRun) : a.fetched.read = (a.chunks.map hist).sum := by
  obtain ⟨rst', h₁, h₂⟩ := a.outcome_done
  rw [fetched, h₁]
  exact h₂

/-- The distributed run counts every chunk. -/
theorem DistributedRun.read_result {chunks : List (List Usize)} (r : DistributedRun chunks) :
    r.result.read = (chunks.map hist).sum := by
  rw [result, getResultMerge, read_foldl_merge r.orders_spec, PageMap.read_empty, zero_add]
  simp only [AgentRun.read_fetched]
  rw [← sum_hist_of_perm r.agents_perm, List.map_map]
  rfl

/-! ## Both paths count the addresses -/

/-- The counter a map has at a page and an offset, zero where it has no page. -/
def PageMap.cnt (m : PageMap) (page : Usize) (i : Fin 4096) : Usize :=
  match m.lookup page with
  | none => 0
  | some p => (p.ins i).execCnt

/-- A count of the map is one of its tally. -/
theorem PageMap.cnt_eq_read (m : PageMap) (page : Usize) (i : Fin 4096) :
    m.cnt page i = m.read.cnt page i := by
  unfold PageMap.cnt Tally.cnt PageMap.read total
  cases m.lookup page <;> rfl

/-- MAIN: **distributed decoding refines local decoding.**  For every collection of chunks, a
local and a distributed run over it end with the same map, whatever the partition, the
assignment, the arrival orders and the orders of iteration are; no receive task panics on the
way.  The map has the pages of the executed addresses, and the counter of an address is the
number of its occurrences (the counters being 64 bits wide).
SRC: bin/online_proc.rs:272-300, server_consumer/client_pool.rs:88-119 -/
theorem distributed_refines_local {chunks : List (List Usize)} (l : LocalRun chunks)
    (d : DistributedRun chunks) :
    d.result = l.result ∧
      (∀ a ∈ d.agents, ∃ rst', a.outcome = .done rst') ∧
      (∀ page, page ∈ l.result ↔ ∃ addr ∈ chunks.flatten, pageOf addr = page) ∧
      ∀ page ∈ l.result, ∀ i : Fin 4096, (l.result.cnt page i).toNat =
        chunks.flatten.count (page + UInt64.ofNat i.val) % 2 ^ 64 := by
  have hl : l.result.read = hist chunks.flatten := by rw [l.read_result, hist_flatten]
  have hpages : ∀ page, page ∈ l.result ↔ ∃ addr ∈ chunks.flatten, pageOf addr = page := by
    intro page
    rw [PageMap.mem_iff, hl, hist_ne_zero_iff]
  refine ⟨?_, ?_, hpages, ?_⟩
  · apply PageMap.read_injective
    rw [l.read_result, d.read_result]
  · intro a _
    obtain ⟨rst', h, -⟩ := a.outcome_done
    exact ⟨rst', h⟩
  · intro page hpage i
    obtain ⟨a, -, rfl⟩ := (hpages page).mp hpage
    obtain ⟨hp, hi⟩ := pageOf_add_offset a i
    have h := cnt_hist chunks.flatten (pageOf a + UInt64.ofNat i.val)
    rw [hp, hi] at h
    rw [PageMap.cnt_eq_read, hl, h]

/-- Chunks can be decoded locally. -/
theorem exists_localRun (chunks : List (List Usize)) : Nonempty (LocalRun chunks) := by
  obtain ⟨order, h⟩ := order_of_entries (workerMap chunks)
  exact ⟨⟨[chunks], by simp, [order], .cons h .nil⟩⟩

/-- Chunks can be decoded by clients. -/
theorem exists_distributedRun (chunks : List (List Usize)) :
    Nonempty (DistributedRun chunks) := by
  have hsent : ∀ cs : List (List Usize), ∃ sent, List.Forall₂ ProcData cs sent := by
    intro cs
    induction cs with
    | nil => exact ⟨[], .nil⟩
    | cons c cs ih =>
      obtain ⟨sent, h⟩ := ih
      obtain ⟨data, hd⟩ := exists_procData c
      exact ⟨data :: sent, .cons hd h⟩
  have hvisits : ∀ ds : List SparseMap, ∃ visits, List.Forall₂ Visits ds visits := by
    intro ds
    induction ds with
    | nil => exact ⟨[], .nil⟩
    | cons d ds ih =>
      obtain ⟨visits, h⟩ := ih
      obtain ⟨visit, hv⟩ := exists_visits d
      exact ⟨visit :: visits, .cons hv h⟩
  obtain ⟨sent, hs⟩ := hsent chunks
  obtain ⟨visits, hv⟩ := hvisits sent
  have hperm : ∃ a : AgentRun, a.chunks.Perm chunks :=
    ⟨⟨chunks, [], sent, [], hs, .nil, sent, by simp, visits, hv⟩, by simp [AgentRun.chunks]⟩
  obtain ⟨a, ha⟩ := hperm
  obtain ⟨order, ho⟩ := order_of_entries a.fetched
  exact ⟨⟨[a], by simpa using ha, [order], .cons ho .nil⟩⟩

end PtkGenerator

import PtkGenerator.Analysis.ServerConserves

/-!
# What `server` reports

The workers of `server` end without taking a chunk, and nobody calls `get_result`.  So the maps that
`collect_all_data` goes through are empty in every run, and the counts stay with the agents.  There
they are those that `online_proc` would report of the same streams, however the two programs are
scheduled.
-/

set_option autoImplicit false

namespace PtkGenerator

open SumMap

variable {n m L L' outLen outLen' : ℕ} {split : Bytes → List ℕ} {yields : Bytes → List Usize}

/-! ## The maps of the workers -/

/-- No worker has counted anything. -/
def Server.Idle (s : Server n m) : Prop := ∀ j, (s.threads.workers j).data = ∅

/-- What the pipeline does without its workers leaves their maps alone. -/
theorem Pipeline.data_front {s t : Pipeline n} {op : PipelineOp n} (hop : op.Front)
    (h : (pipelineMachine n split yields).step s op = some t) (j : Fin (n - 1)) :
    (t.workers j).data = (s.workers j).data := by
  cases step_cases h with
  | workerRecv => exact hop.elim
  | workerDecode => exact hop.elim
  | workerEnd => exact hop.elim
  | _ => rfl

/-- No step of the server counts anything in a worker. -/
theorem Server.Idle.step {s t : Server n m} (hs : s.Idle) (h : s.Step split t) : t.Idle := by
  intro j
  cases h with
  | threads op threads hop hthreads =>
    exact (Pipeline.data_front hop hthreads j).trans (hs j)
  | workers threads hspliters hqueue hmain hcollecting hdata => exact (hdata j).trans (hs j)
  | _ => exact hs j

/-- INTERNAL: **the workers of `server` count nothing.**
SRC: server.rs:38-56 -/
theorem serverProgram_idle [NeZero L] {s : Setup n L (Server n m)}
    (hs : (serverProgram n m L outLen split).Reachable s) : s.processor.Idle := by
  refine (serverProgram n m L outLen split).invariant (P := fun s => s.processor.Idle)
    (fun _ => rfl) ?_ hs
  intro s op t hidle h
  obtain hsame | ⟨i, d, threads, hthreads, hproc⟩ | hstep := serverProgram_step h
  · rw [hsame]
    exact hidle
  · rw [hproc]
    intro j
    obtain ⟨-, ⟨-, rfl⟩ | ⟨-, rfl⟩⟩ := Pipeline.processor_cases hthreads
    · exact hidle j
    · exact hidle j
  · exact hidle.step hstep

/-! ## The report -/

/-- The maps of idle workers are collected to an empty map. -/
theorem collectAllData_empty {pds : List PageMap} (h : ∀ data ∈ pds, data = ∅)
    {orders : List (List (Σ _ : Usize, InsPage))} (ho : List.Forall₂ Order pds orders) :
    collectAllData orders = ∅ := by
  rw [collectAllData]
  induction ho with
  | nil => rfl
  | cons hhead _ ih =>
    obtain ⟨hempty, hrest⟩ := List.forall_mem_cons.mp h
    rw [hempty] at hhead
    rw [List.foldl_cons, eq_nil_of_order_empty hhead]
    exact ih hrest

/-- INTERNAL: **the report of `server` is empty** whenever it is written.
SRC: server.rs:38-56, 285-342 -/
theorem serverReport_empty [NeZero L] {s : Setup n L (Server n m)}
    (hs : (serverProgram n m L outLen split).Reachable s)
    {orders : List (List (Σ _ : Usize, InsPage))}
    (ho : List.Forall₂ Order s.processor.threads.pds orders)
    {order : List (Σ _ : Usize, InsPage)} (horder : Order (collectAllData orders) order)
    (table : List ModuleInfo) : writeToFile table order = ∅ := by
  have hpds : ∀ data ∈ s.processor.threads.pds, data = ∅ := by
    intro data hdata
    rcases List.mem_append.mp hdata with hworker | hlast
    · obtain ⟨j, -, rfl⟩ := List.mem_map.mp hworker
      exact serverProgram_idle hs j
    · exact List.mem_singleton.mp hlast
  rw [collectAllData_empty hpds ho] at horder
  rw [eq_nil_of_order_empty horder]
  rfl

/-- The splitters of the two programs make the same chunks when they are fed the same buffers, and
also when they are fed the same bytes and `split` cuts a stream at its own sync points. -/
theorem chunksOf_eq {s t : Pipeline n}
    (h : (∀ b, (s.spliters b).fed = (t.spliters b).fed) ∨ SplitSpec split ∧
      ∀ b, (s.spliters b).fed.flatten = (t.spliters b).fed.flatten) (b : Fin n) :
    s.chunksOf split b = t.chunksOf split b := by
  rcases h with hfed | ⟨hspec, hflat⟩
  · rw [Pipeline.chunksOf, Pipeline.chunksOf, hfed b]
  · rw [Pipeline.chunksOf_eq_segments hspec, Pipeline.chunksOf_eq_segments hspec, hflat b]

/-- MAIN: **the agents of `server` hold what `online_proc` reports.**  Take any run of `online_proc`
and any run of `server`, each with its own driver, schedule, ring length and clients, in which the
splitters are fed the same buffers, or the same bytes come out of the rings and `split` cuts a
stream at its own sync points.  When `online_proc` is behind `wait_for_complete`, the clients of
`server` have decoded and answered everything with nothing lost, and each chunk has yielded there
what it yields to `online_proc`, the agents hold for each address the count that `online_proc`
reports, as long as it fits.  What `server` itself reports is the empty map, in every run and at
every moment.
SRC: online_proc.rs:38-113, 207-300, server.rs:38-153, 249-342, client_pool.rs:38-86,
client_agent.rs:77-207, client_proc.rs:31-175 -/
theorem server_agrees_with_online [NeZero L] [NeZero L'] (h2 : 2 ≤ n)
    {s : Setup n L (Online n)} (hs : (onlineProgram n L outLen split yields).Reachable s)
    {t : Setup n L' (Server n m)} (ht : (serverProgram n m L' outLen' split).Reachable t)
    (hsame : (∀ b, (s.processor.pipeline.spliters b).fed = (t.processor.threads.spliters b).fed) ∨
      SplitSpec split ∧ ∀ b, s.capture.delivered b = t.capture.delivered b) :
    (s.processor.pipeline.main = .completed → t.processor.Drained →
      (∀ d ∈ t.processor.network.decoded, d.2 = yields d.1) →
      ∀ orders, List.Forall₂ Order s.processor.pipeline.pds orders → ∀ addr,
        t.processor.network.decodedNum (pageOf addr) (offIdx addr) < 2 ^ 64 →
        t.processor.network.tasks.pool.heldNum (pageOf addr) (offIdx addr) =
          ((collectAllData orders).cntAt addr).toNat) ∧
    ∀ orders, List.Forall₂ Order t.processor.threads.pds orders →
      ∀ order table, Order (collectAllData orders) order → writeToFile table order = ∅ := by
  refine ⟨fun hdone hd hyields orders ho addr hlt => ?_,
    fun orders ho order table horder => serverReport_empty ht ho horder table⟩
  have hsame' : (∀ b, (s.processor.pipeline.spliters b).fed =
        (t.processor.threads.spliters b).fed) ∨
      SplitSpec split ∧ ∀ b, (s.processor.pipeline.spliters b).fed.flatten =
        (t.processor.threads.spliters b).fed.flatten := by
    refine hsame.imp_right fun ⟨hspec, hdelivered⟩ => ⟨hspec, fun b => ?_⟩
    rw [(online_keeps n L outLen split yields).delivered hs b, hdelivered b]
    exact ((server_keeps n m L' outLen' split).delivered ht b).symm
  have hips : s.processor.pipeline.ips split yields = t.processor.threads.ips split yields := by
    simp only [Pipeline.ips, chunksOf_eq hsame']
  have hread := Pipeline.read_eq_ips h2
    ((onlineProgram_mapsTo n L outLen split yields).reachable hs) hdone ho
  have hnum := decodedNum_of_yields (decoded_drained ht hd) hyields (pageOf addr) (offIdx addr)
  rw [Nat.mod_eq_of_lt hlt] at hnum
  rw [heldNum_drained ht hd hlt, hnum, ← hips, ← hread, Tally.num, ← PageMap.cnt_eq_read]
  rfl

/-- Two PSB+ with a TNT packet between them come out of the first ring of both programs, and the
piece between the PSB+ has one execution. -/
theorem server_agrees_with_online_oneChunk : ∃ s ops t,
    (onlineProgram 2 64 64 psbSplit fun _ => [0x401000]).exec
        (onlineProgram 2 64 64 psbSplit fun _ => [0x401000]).init ctrlCRun = some s ∧
      (serverProgram 2 2 64 64 psbSplit).exec (serverProgram 2 2 64 64 psbSplit).init
        (oneChunkServerRun ++ ops) = some t ∧
      t.processor.network.decoded = [(psbPlus ++ [0x06], [0x401000])] ∧
      ∀ orders, List.Forall₂ Order s.processor.pipeline.pds orders →
        t.processor.network.tasks.pool.heldNum 0x401000 0 =
          ((collectAllData orders).cntAt 0x401000).toNat := by
  have hrun : ∃ s ∈ (onlineProgram 2 64 64 psbSplit fun _ => [0x401000]).exec
      (onlineProgram 2 64 64 psbSplit fun _ => [0x401000]).init ctrlCRun,
      s.processor.pipeline.main = .completed ∧ (s.processor.pipeline.spliters 0).fed =
        [psbPlus ++ [0x06] ++ psbPlus] ∧ (s.processor.pipeline.spliters 1).fed = [] := by
    decide +kernel
  obtain ⟨s, hs, hdone, hs₀, hs₁⟩ := hrun
  obtain ⟨ops, t, ht, ht₀, ht₁, hdecoded, hd⟩ := exists_oneChunkServed [0x401000]
  refine ⟨s, ops, t, hs, ht, hdecoded, fun orders ho => ?_⟩
  have hfed : ∀ b, (s.processor.pipeline.spliters b).fed =
      (t.processor.threads.spliters b).fed := by
    rw [Fin.forall_fin_two]
    exact ⟨hs₀.trans ht₀.symm, hs₁.trans ht₁.symm⟩
  have hyields : ∀ d ∈ t.processor.network.decoded, d.2 = [0x401000] := by
    rw [hdecoded]
    simp
  have hnum : t.processor.network.decodedNum 0x401000 0 = 1 := by
    rw [Network.decodedNum, hdecoded]
    rfl
  exact (server_agrees_with_online (by decide) ⟨_, hs⟩ ⟨_, ht⟩ (.inl hfed)).1 hdone hd hyields
    orders ho 0x401000 (lt_of_eq_of_lt hnum (by decide))

end PtkGenerator

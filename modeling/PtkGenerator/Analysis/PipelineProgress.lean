import PtkGenerator.Analysis.LocalPipeline

/-!
# The threads come to their end

Each step of a thread takes the pipeline nearer to its end, by a measure in which a byte that a
splitter has is worth more than what can become of it: to be sent as a chunk, received, and
decoded.  Once `main` waits, some thread or `main` can always take a step until `main` is behind
`wait_for_complete`, so the threads do not block each other.
-/

set_option autoImplicit false

namespace PtkGenerator

open Cuts Families

variable {cpuNums : ℕ} {split : Bytes → List ℕ} {yields : Bytes → List Usize}

namespace Pipeline

/-- The steps, one for each thing that can happen. -/
inductive Step (split : Bytes → List ℕ) (yields : Bytes → List Usize) (s : Pipeline cpuNums) :
    PipelineOp cpuNums → Pipeline cpuNums → Prop
  | fed (i d) : s.main = .collecting → Step split yields s (.processor i d)
      (s.setSpliter i { s.spliters i with
        rx := (s.spliters i).rx ++ [d], fed := (s.spliters i).fed ++ [d] })
  | noData (i) : s.main = .collecting → Step split yields s (.processor i []) s
  | stop : s.main = .collecting → Step split yields s .stop { s with main := .waitSpliter 0 }
  | dropTx (i) (hi : i < cpuNums) : s.main = .waitSpliter i →
      (s.spliters ⟨i, hi⟩).txAlive = true → Step split yields s .dropTx
        (s.setSpliter ⟨i, hi⟩ { s.spliters ⟨i, hi⟩ with txAlive := false })
  | joinSpliter (i) : i < cpuNums → s.main = .waitSpliter i →
      Step split yields s .joinSpliter { s with main := .waitSpliter (i + 1) }
  | splitersDone (i) : cpuNums ≤ i → s.main = .waitSpliter i →
      Step split yields s .joinSpliter { s with main := .waitWorker 0 }
  | joinWorker (j) : j < cpuNums - 1 → s.main = .waitWorker j →
      Step split yields s .joinWorker { s with main := .waitWorker (j + 1) }
  | workersDone (j) : cpuNums - 1 ≤ j → s.main = .waitWorker j →
      Step split yields s .joinWorker { s with main := .completed }
  | spliterRecv (i d rx chunks assemedData) : (s.spliters i).outgoing = [] →
      (s.spliters i).rx = d :: rx →
      PtkGenerator.spliterRecv split (s.spliters i).assemedData d = some (chunks, assemedData) →
      Step split yields s (.spliterRecv i)
        (s.setSpliter i { s.spliters i with rx, assemedData, outgoing := chunks })
  | spliterSend (i c outgoing) : (s.spliters i).outgoing = c :: outgoing →
      Step split yields s (.spliterSend i)
        { s.setSpliter i
            { s.spliters i with outgoing, sent := (s.spliters i).sent ++ [c] } with
          queue := s.queue ++ [⟨i, (s.spliters i).sent.length, c⟩] }
  | spliterEnd (i) : (s.spliters i).ended = false → Step split yields s (.spliterEnd i)
      (s.setSpliter i { s.spliters i with ended := true })
  | workerRecv (j c queue) : (s.workers j).current = none → s.queue = c :: queue →
      Step split yields s (.workerRecv j)
        { s.setWorker j { s.workers j with current := some c } with queue }
  | workerDecode (j c) : (s.workers j).current = some c → Step split yields s (.workerDecode j)
      (s.setWorker j { s.workers j with
        current := none
        data := decodeYield (s.workers j).data (yields c.data)
        decoded := (s.workers j).decoded ++ [c] })
  | workerEnd (j) : (s.workers j).ended = false → Step split yields s (.workerEnd j)
      (s.setWorker j { s.workers j with ended := true })

/-- INTERNAL: a step is one of these. -/
theorem step_cases {s t : Pipeline cpuNums} {op : PipelineOp cpuNums}
    (h : (pipelineMachine cpuNums split yields).step s op = some t) :
    Step split yields s op t := by
  cases op with
  | processor i d =>
    obtain ⟨hm, ⟨-, rfl⟩ | ⟨rfl, rfl⟩⟩ := processor_cases h
    · exact .fed i d hm
    · exact .noData i hm
  | stop =>
    obtain ⟨hm, rfl⟩ := stop_cases h
    exact .stop hm
  | dropTx =>
    obtain ⟨i, hi, hm, halive, rfl⟩ := dropTx_cases h
    exact .dropTx i hi hm halive
  | joinSpliter =>
    obtain ⟨i, hm, ⟨hi, -, rfl⟩ | ⟨hi, rfl⟩⟩ := joinSpliter_cases h
    · exact .joinSpliter i hi hm
    · exact .splitersDone i hi hm
  | joinWorker =>
    obtain ⟨j, hm, ⟨hj, -, rfl⟩ | ⟨hj, rfl⟩⟩ := joinWorker_cases h
    · exact .joinWorker j hj hm
    · exact .workersDone j hj hm
  | spliterRecv i =>
    obtain ⟨d, rx, chunks, assemedData, -, hout, hrx, hrecv, rfl⟩ := spliterRecv_cases h
    exact .spliterRecv i d rx chunks assemedData hout hrx hrecv
  | spliterSend i =>
    obtain ⟨c, outgoing, hout, rfl⟩ := spliterSend_cases h
    exact .spliterSend i c outgoing hout
  | spliterEnd i =>
    obtain ⟨⟨hend, -⟩, rfl⟩ := spliterEnd_cases h
    exact .spliterEnd i hend
  | workerRecv j =>
    obtain ⟨c, queue, -, hnone, hq, rfl⟩ := workerRecv_cases h
    exact .workerRecv j c queue hnone hq
  | workerDecode j =>
    obtain ⟨c, hc, rfl⟩ := workerDecode_cases h
    exact .workerDecode j c hc
  | workerEnd j =>
    obtain ⟨⟨hend, -⟩, rfl⟩ := workerEnd_cases h
    exact .workerEnd j hend

end Pipeline

/-! ## The measure -/

/-- What a splitter may still do: end, lose its sender, take a buffer, and for each byte send a
chunk that is received and decoded. -/
def Spliter.work (sp : Spliter) : ℕ :=
  (if sp.ended then 0 else 1) + (if sp.txAlive then 1 else 0) + sp.rx.length +
    4 * (sp.rx.flatten.length + sp.assemedData.length + sp.outgoing.flatten.length)

/-- The steps that are left to a worker. -/
def Worker.work (w : Worker cpuNums) : ℕ :=
  (if w.ended then 0 else 1) + if w.current.isSome then 1 else 0

/-- The joins that `main` has before it. -/
def MainPhase.work (cpuNums : ℕ) : MainPhase → ℕ
  | .collecting => 2 * cpuNums + 3
  | .waitSpliter i => (cpuNums - i) + cpuNums + 2
  | .waitWorker j => (cpuNums - 1 - j) + 1
  | .completed => 0

/-- The steps that are left to the pipeline. -/
def Pipeline.work (s : Pipeline cpuNums) : ℕ :=
  ∑ i, (s.spliters i).work + 2 * s.queue.length + ∑ j, (s.workers j).work + s.main.work cpuNums

/-- The steps behind the capture: those of the threads, and the joins of `main`. -/
def PipelineOp.BehindCapture : PipelineOp cpuNums → Prop
  | .processor _ _ => False
  | .stop => False
  | _ => True

/-- No chunk that waits to be sent is empty. -/
def Pipeline.NoEmptyChunk (s : Pipeline cpuNums) : Prop :=
  ∀ i, ∀ c ∈ (s.spliters i).outgoing, c ≠ []

/-- Between increasing offsets no segment is empty. -/
theorem segments_ne_nil {d : Bytes} {os : List ℕ} (h : os.Pairwise (· < ·))
    (hd : ∀ o ∈ os, o < d.length) : ∀ c ∈ segments d os, c ≠ [] := by
  induction os with
  | nil => nofun
  | cons a os ih =>
    cases os with
    | nil => nofun
    | cons b os =>
      rw [segments_cons_cons, List.forall_mem_cons]
      rw [List.pairwise_cons] at h
      refine ⟨fun hnil => ?_, ih h.2 fun o ho => hd o (List.mem_cons_of_mem a ho)⟩
      have hab : a < b := h.1 b List.mem_cons_self
      have ha : a < d.length := hd a List.mem_cons_self
      have hlen := congrArg List.length hnil
      rw [List.length_take, List.length_drop, List.length_nil] at hlen
      omega

/-- INTERNAL: **increasing offsets** leave the splitter without a panic, and no chunk is empty. -/
theorem createSpliterThread_of_offsets (h : SplitOffsets split) (bufs : List Bytes) :
    ∃ chunks, createSpliterThread split bufs = some chunks ∧ ∀ c ∈ chunks, c ≠ [] := by
  have hrun : ∀ assemedData, ∃ r, spliterRun split assemedData bufs = some r ∧
      ∀ c ∈ r.1, c ≠ [] := by
    induction bufs with
    | nil => exact fun assemedData => ⟨_, rfl, nofun⟩
    | cons d bufs ih =>
      intro assemedData
      obtain ⟨r, hr, hne⟩ :=
        ih (fromLast (assemedData ++ d) (split (assemedData ++ d)))
      refine ⟨(segments (assemedData ++ d) (split (assemedData ++ d)) ++ r.1, r.2), ?_,
        fun c hc => ?_⟩
      · simp only [spliterRun, spliterRecv_eq h, Option.bind_eq_bind, Option.bind_some, hr]
      · rcases List.mem_append.mp hc with hnew | hlater
        · exact segments_ne_nil (h.increasing _) (h.within _) c hnew
        · exact hne c hlater
  obtain ⟨r, hr, hne⟩ := hrun []
  exact ⟨r.1, by rw [createSpliterThread, hr, Option.map_some], hne⟩

/-- The chunks of a buffer and what is kept are no more than what there was. -/
theorem length_spliterRecv (h : SplitOffsets split) {assemedData assemedData' d : Bytes}
    {chunks : List Bytes}
    (hrecv : PtkGenerator.spliterRecv split assemedData d = some (chunks, assemedData')) :
    chunks.flatten.length + assemedData'.length ≤ assemedData.length + d.length := by
  rw [spliterRecv_eq h, Option.some.injEq, Prod.mk.injEq] at hrecv
  obtain ⟨rfl, rfl⟩ := hrecv
  rw [← List.length_append, flatten_segments _ (h.increasing _), fromFirst, List.length_drop,
    ← List.length_append]
  exact Nat.sub_le _ _

namespace Pipeline

/-- A splitter without an empty chunk may take the place of another. -/
theorem noEmptyChunk_setSpliter {s : Pipeline cpuNums} (h : s.NoEmptyChunk) {i : Fin cpuNums}
    {sp : Spliter} (hsp : ∀ c ∈ sp.outgoing, c ≠ []) : (s.setSpliter i sp).NoEmptyChunk :=
  forall_update (P := fun _ (sp : Spliter) => ∀ c ∈ sp.outgoing, c ≠ []) (f := s.spliters) h hsp

/-- INTERNAL: the splitters send no empty chunk. -/
theorem noEmptyChunk (h : SplitOffsets split) {s : Pipeline cpuNums}
    (hs : (pipelineMachine cpuNums split yields).Reachable s) : s.NoEmptyChunk := by
  refine Machine.invariant _ (P := NoEmptyChunk)
    (fun _ _ hc => absurd hc List.not_mem_nil) ?_ hs
  intro s op t hne hstep
  cases step_cases hstep with
  | fed i d => exact noEmptyChunk_setSpliter hne (hne i)
  | dropTx i hi => exact noEmptyChunk_setSpliter hne (hne _)
  | spliterRecv i d rx chunks assemedData _ _ hrecv =>
    rw [spliterRecv_eq h, Option.some.injEq, Prod.mk.injEq] at hrecv
    obtain ⟨rfl, rfl⟩ := hrecv
    exact noEmptyChunk_setSpliter hne (segments_ne_nil (h.increasing _) (h.within _))
  | spliterSend i c outgoing hout =>
    refine noEmptyChunk_setSpliter hne fun c' hc' => hne i c' ?_
    rw [hout]
    exact List.mem_cons_of_mem c hc'
  | spliterEnd i => exact noEmptyChunk_setSpliter hne (hne i)
  | _ => exact hne

/-! ## A step brings the end nearer -/

/-- What a splitter has less to do, the pipeline has. -/
theorem work_setSpliter {s : Pipeline cpuNums} {i : Fin cpuNums} {sp : Spliter} {k : ℕ}
    (h : sp.work + k = (s.spliters i).work) : (s.setSpliter i sp).work + k = s.work := by
  have hsum := add_sum_update (g := fun _ (sp : Spliter) => sp.work) (f := s.spliters) h
  simp only [work, setSpliter]
  omega

/-- A splitter with more to do leaves the pipeline more. -/
theorem work_setSpliter_add {s : Pipeline cpuNums} {i : Fin cpuNums} {sp : Spliter} {k : ℕ}
    (h : sp.work = (s.spliters i).work + k) : (s.setSpliter i sp).work = s.work + k := by
  have hsum := sum_update_add (g := fun _ (sp : Spliter) => sp.work) (f := s.spliters) h
  simp only [work, setSpliter]
  omega

/-- A worker with less to do leaves the pipeline less. -/
theorem work_setWorker {s : Pipeline cpuNums} {j : Fin (cpuNums - 1)} {w : Worker cpuNums} {k : ℕ}
    (h : w.work + k = (s.workers j).work) : (s.setWorker j w).work + k = s.work := by
  have hsum := add_sum_update (g := fun _ (w : Worker cpuNums) => w.work) (f := s.workers) h
  simp only [work, setWorker]
  omega

/-- A worker with more to do leaves the pipeline more. -/
theorem work_setWorker_add {s : Pipeline cpuNums} {j : Fin (cpuNums - 1)} {w : Worker cpuNums}
    {k : ℕ} (h : w.work = (s.workers j).work + k) : (s.setWorker j w).work = s.work + k := by
  have hsum := sum_update_add (g := fun _ (w : Worker cpuNums) => w.work) (f := s.workers) h
  simp only [work, setWorker]
  omega

/-- A buffer adds to the work by no more than what each of its bytes is worth. -/
theorem work_processor {s t : Pipeline cpuNums} {i : Fin cpuNums} {d : Bytes}
    (h : (pipelineMachine cpuNums split yields).step s (.processor i d) = some t) :
    t.work ≤ s.work + (4 * d.length + 1) := by
  cases step_cases h with
  | fed _ _ hm =>
    refine (work_setSpliter_add ?_).le
    simp only [Spliter.work, List.length_append, List.flatten_append, List.flatten_singleton,
      List.length_singleton]
    omega
  | noData => exact Nat.le_add_right _ _

/-- INTERNAL: **every other step brings the threads nearer to their end.**
SRC: online_proc.rs:38-97, 115-173, 207-241 -/
theorem work_lt (h : SplitOffsets split) {s t : Pipeline cpuNums} (hne : s.NoEmptyChunk)
    {op : PipelineOp cpuNums} (hop : ∀ i d, op ≠ .processor i d)
    (hstep : (pipelineMachine cpuNums split yields).step s op = some t) : t.work < s.work := by
  cases step_cases hstep with
  | fed i d => exact absurd rfl (hop i d)
  | noData i => exact absurd rfl (hop i [])
  | stop hm =>
    simp only [work, hm, MainPhase.work]
    omega
  | dropTx i hi hm halive =>
    refine Nat.lt_of_succ_le (work_setSpliter (k := 1) ?_).le
    simp only [Spliter.work, halive, if_true, Bool.false_eq_true, if_false]
    omega
  | joinSpliter i hi hm =>
    simp only [work, hm, MainPhase.work]
    omega
  | splitersDone i hi hm =>
    simp only [work, hm, MainPhase.work]
    omega
  | joinWorker j hj hm =>
    simp only [work, hm, MainPhase.work]
    omega
  | workersDone j hj hm =>
    simp only [work, hm, MainPhase.work]
    omega
  | spliterRecv i d rx chunks assemedData hout hrx hrecv =>
    -- the bytes of the buffer are in the chunks and in what is kept
    have hlen := length_spliterRecv h hrecv
    obtain ⟨k, hk⟩ := Nat.exists_eq_add_of_le hlen
    have hset : (s.setSpliter i { s.spliters i with
        rx, assemedData, outgoing := chunks }).work + (1 + 4 * k) = s.work :=
      work_setSpliter (by
        simp only [Spliter.work, hout, hrx, List.length_cons, List.flatten_cons,
          List.length_append, List.flatten_nil, List.length_nil]
        omega)
    omega
  | spliterSend i c outgoing hout =>
    have hc : 0 < c.length :=
      List.length_pos_of_ne_nil (hne i c (hout ▸ List.mem_cons_self))
    have hsp : ({ s.spliters i with
        outgoing, sent := (s.spliters i).sent ++ [c] } : Spliter).work + 4 * c.length =
          (s.spliters i).work := by
      simp only [Spliter.work, hout, List.flatten_cons, List.length_append]
      omega
    have hset := work_setSpliter hsp
    simp only [work, setSpliter, List.length_append, List.length_singleton] at hset ⊢
    omega
  | spliterEnd i hend =>
    refine Nat.lt_of_succ_le (work_setSpliter (k := 1) ?_).le
    simp only [Spliter.work, hend, if_true, Bool.false_eq_true, if_false]
    omega
  | workerRecv j c queue hfree hq =>
    have hset := work_setWorker_add (s := s) (j := j) (k := 1) (w := { s.workers j with
      current := some c }) (by
        simp only [Worker.work, hfree, Option.isSome_some, Option.isSome_none, if_true,
          Bool.false_eq_true, if_false])
    simp only [work, setWorker, hq, List.length_cons] at hset ⊢
    omega
  | workerDecode j c hc =>
    refine Nat.lt_of_succ_le (work_setWorker (k := 1) ?_).le
    simp only [Worker.work, hc, Option.isSome_some, Option.isSome_none, if_true,
      Bool.false_eq_true, if_false]
  | workerEnd j hend =>
    refine Nat.lt_of_succ_le (work_setWorker (k := 1) ?_).le
    simp only [Worker.work, hend, if_true, Bool.false_eq_true, if_false]
    omega

/-! ## The threads do not block each other -/

/-- A splitter whose sender is dropped sends, takes a buffer, or ends. -/
theorem exists_step_spliter (h : SplitOffsets split) {s : Pipeline cpuNums} {i : Fin cpuNums}
    (halive : (s.spliters i).txAlive = false) (hend : (s.spliters i).ended = false) :
    ∃ op : PipelineOp cpuNums, (op = .spliterRecv i ∨ op = .spliterSend i ∨ op = .spliterEnd i) ∧
      ((pipelineMachine cpuNums split yields).step s op).isSome := by
  cases hout : (s.spliters i).outgoing with
  | cons c outgoing =>
    refine ⟨.spliterSend i, .inr (.inl rfl), ?_⟩
    simp only [pipelineMachine, Pipeline.spliterSend, hout]
    rfl
  | nil =>
    cases hrx : (s.spliters i).rx with
    | nil =>
      refine ⟨.spliterEnd i, .inr (.inr rfl), ?_⟩
      simp only [pipelineMachine, Pipeline.spliterEnd]
      rw [if_pos ⟨hend, halive, hrx, hout⟩]
      rfl
    | cons d rx =>
      refine ⟨.spliterRecv i, .inl rfl, ?_⟩
      simp only [pipelineMachine, Pipeline.spliterRecv, hend, hout, hrx, Bool.false_eq_true,
        ne_eq, not_true_eq_false, or_self, if_false, spliterRecv_eq h, Option.bind_eq_bind,
        Option.bind_some]
      rfl

/-- Once the splitters have ended, a worker decodes, takes a chunk, or ends. -/
theorem exists_step_worker {s : Pipeline cpuNums} (hall : ∀ i, (s.spliters i).ended = true)
    {j : Fin (cpuNums - 1)} (hend : (s.workers j).ended = false) :
    ∃ op : PipelineOp cpuNums, op.BehindCapture ∧
      ((pipelineMachine cpuNums split yields).step s op).isSome := by
  cases hc : (s.workers j).current with
  | some c =>
    refine ⟨.workerDecode j, trivial, ?_⟩
    simp only [pipelineMachine, Pipeline.workerDecode, hc]
    rfl
  | none =>
    cases hq : s.queue with
    | nil =>
      refine ⟨.workerEnd j, trivial, ?_⟩
      simp only [pipelineMachine, Pipeline.workerEnd]
      rw [if_pos ⟨hend, hc, hq, hall⟩]
      rfl
    | cons c queue =>
      refine ⟨.workerRecv j, trivial, ?_⟩
      simp only [pipelineMachine, Pipeline.workerRecv, hend, hc, hq, Option.isSome_none,
        Bool.false_eq_true, or_self, if_false]
      rfl

/-- INTERNAL: **`wait_for_complete` is never stuck.**
SRC: online_proc.rs:207-241 -/
theorem exists_step (h : SplitOffsets split) {s : Pipeline cpuNums}
    (hs : (pipelineMachine cpuNums split yields).Reachable s) (hstart : s.main ≠ .collecting)
    (hdone : s.main ≠ .completed) :
    ∃ op : PipelineOp cpuNums, op.BehindCapture ∧
      ((pipelineMachine cpuNums split yields).step s op).isSome := by
  have hmain := (pipelineMachine_inv hs).main
  cases hm : s.main with
  | collecting => exact absurd hm hstart
  | completed => exact absurd hm hdone
  | waitSpliter i =>
    by_cases hi : i < cpuNums
    · cases halive : (s.spliters ⟨i, hi⟩).txAlive with
      | true =>
        refine ⟨.dropTx, trivial, ?_⟩
        simp only [pipelineMachine, Pipeline.dropTx, hm, dif_pos hi, halive, if_true]
        rfl
      | false =>
        cases hend : (s.spliters ⟨i, hi⟩).ended with
        | false =>
          obtain ⟨op, hop, hstep⟩ := exists_step_spliter h halive hend
          exact ⟨op, by rcases hop with rfl | rfl | rfl <;> trivial, hstep⟩
        | true =>
          refine ⟨.joinSpliter, trivial, ?_⟩
          simp only [pipelineMachine, Pipeline.joinSpliter, hm, dif_pos hi]
          rw [if_pos ⟨halive, hend⟩]
          rfl
    · refine ⟨.joinSpliter, trivial, ?_⟩
      simp only [pipelineMachine, Pipeline.joinSpliter, hm, dif_neg hi]
      rfl
  | waitWorker j =>
    rw [hm] at hmain
    by_cases hj : j < cpuNums - 1
    · cases hend : (s.workers ⟨j, hj⟩).ended with
      | false => exact exists_step_worker hmain.1 hend
      | true =>
        refine ⟨.joinWorker, trivial, ?_⟩
        simp only [pipelineMachine, Pipeline.joinWorker, hm, dif_pos hj]
        rw [if_pos hend]
        rfl
    · refine ⟨.joinWorker, trivial, ?_⟩
      simp only [pipelineMachine, Pipeline.joinWorker, hm, dif_neg hj]
      rfl

end Pipeline

end PtkGenerator

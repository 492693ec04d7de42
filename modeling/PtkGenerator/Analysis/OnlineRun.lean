import PtkGenerator.Analysis.PipelineProgress
import PtkGenerator.Analysis.ProgramStreams
import PtkGenerator.Analysis.ReportCounts
import PtkGenerator.Analysis.StopDrain
import PtkGenerator.Model.OnlineCapture

/-!
# What a run of `online_proc` comes to

The threads run as the pipeline does, and the splitters are fed what comes out of the rings.  So
when `main` merges the maps of the workers, what it gets is the histogram of the streams: the
pieces between the sync points of what was fetched of each.
-/

set_option autoImplicit false

namespace PtkGenerator

open Cuts SumMap

variable {n L outLen : ℕ} [NeZero L] {split : Bytes → List ℕ} {yields : Bytes → List Usize}

omit [NeZero L] in
/-- INTERNAL: **what runs beside the capture**: Ctrl-C, a step of the threads, or a panic; a
splitter panics with one CPU only, and `main` with a splitter that did.
SRC: online_proc.rs:38-97, 207-241 -/
theorem onlineBeside_cases {s : Setup n L (Online n)} {op : OnlineOp n} {p : Online n}
    (h : onlineBeside split yields s op = some p) :
    (op = .ctrlC ∧ p = { s.processor with gStop := true }) ∨
      (∃ o pipeline, op = .thread o ∧ (∀ i d, o ≠ .processor i d) ∧
        (o = .stop → s.capture.phase = .returned) ∧
        (pipelineMachine n split yields).step s.processor.pipeline o = some pipeline ∧
        p = s.processor.withPipeline pipeline) ∨
      (∃ i, n < 2 ∧
        p = { s.processor with crashed := Function.update s.processor.crashed i true }) ∨
      ∃ i, s.processor.crashed i = true ∧ p = { s.processor with panicked := true } := by
  unfold onlineBeside at h
  obtain ⟨-, h⟩ := Option.ite_none_left_eq_some.mp h
  cases op with
  | ctrlC => exact .inl ⟨rfl, (Option.some.inj h).symm⟩
  | thread o =>
    refine .inr ?_
    cases o with
    | processor i d => cases h
    | stop =>
      obtain ⟨hreturned, hstop⟩ := Option.ite_none_right_eq_some.mp h
      obtain ⟨pipeline, hp, rfl⟩ := Option.map_eq_some_iff.mp hstop
      exact .inl ⟨_, pipeline, rfl, nofun, fun _ => hreturned, hp, rfl⟩
    | joinSpliter =>
      simp only [Online.joinSpliter] at h
      split at h
      · next hcrashed =>
        obtain rfl := Option.some.inj h
        unfold Online.joinsCrashed at hcrashed
        split at hcrashed
        · split at hcrashed
          · exact .inr (.inr ⟨_, (Bool.and_eq_true_iff.mp hcrashed).1, rfl⟩)
          · cases hcrashed
        · cases hcrashed
      · obtain ⟨pipeline, hp, rfl⟩ := Option.map_eq_some_iff.mp h
        exact .inl ⟨_, pipeline, rfl, nofun, nofun, hp, rfl⟩
    | spliterRecv i =>
      obtain ⟨-, h⟩ := Option.ite_none_left_eq_some.mp h
      obtain ⟨pipeline, hp, rfl⟩ := Option.map_eq_some_iff.mp h
      exact .inl ⟨_, pipeline, rfl, nofun, nofun, hp, rfl⟩
    | spliterEnd i =>
      obtain ⟨-, h⟩ := Option.ite_none_left_eq_some.mp h
      obtain ⟨pipeline, hp, rfl⟩ := Option.map_eq_some_iff.mp h
      exact .inl ⟨_, pipeline, rfl, nofun, nofun, hp, rfl⟩
    | spliterSend i =>
      simp only [Online.spliterSend] at h
      obtain ⟨-, h⟩ := Option.ite_none_left_eq_some.mp h
      split at h
      · obtain ⟨pipeline, hp, rfl⟩ := Option.map_eq_some_iff.mp h
        exact .inl ⟨_, pipeline, rfl, nofun, nofun, hp, rfl⟩
      · next hone =>
        obtain ⟨-, h⟩ := Option.ite_none_left_eq_some.mp h
        exact .inr (.inl ⟨i, by omega, (Option.some.inj h).symm⟩)
    | _ =>
      obtain ⟨pipeline, hp, rfl⟩ := Option.map_eq_some_iff.mp h
      exact .inl ⟨_, pipeline, rfl, nofun, nofun, hp, rfl⟩

/-- `processor` gives the bytes to the splitter of the CPU. -/
theorem onlineProcessor_eq_some {s t : Online n} {i : ℕ} {buff : Bytes} {size : ℕ} {answer : Bool}
    (h : onlineProcessor n s i buff size = some (t, answer)) :
    ∃ (hi : i < n) (pipeline : Pipeline n),
      s.pipeline.processor ⟨i, hi⟩ (buff.take size) = some pipeline ∧
        t = s.withPipeline pipeline ∧ answer = !s.gStop := by
  unfold onlineProcessor at h
  split at h
  · next hi =>
    obtain ⟨-, h⟩ := Option.ite_none_right_eq_some.mp h
    obtain ⟨-, h⟩ := Option.ite_none_left_eq_some.mp h
    obtain ⟨pipeline, hp, heq⟩ := Option.map_eq_some_iff.mp h
    obtain ⟨rfl, rfl⟩ := Prod.mk.inj heq
    exact ⟨hi, pipeline, hp, rfl, rfl⟩
  · cases h

/-- INTERNAL: **the threads of `online_proc` are the pipeline.**
SRC: online_proc.rs:38-113, 207-241 -/
theorem onlineProgram_mapsTo (n L outLen : ℕ) [NeZero L] (split : Bytes → List ℕ)
    (yields : Bytes → List Usize) :
    (onlineProgram n L outLen split yields).MapsTo (pipelineMachine n split yields)
      fun s => s.processor.pipeline where
  init := rfl
  step := by
    intro s op s' _ h
    cases op with
    | write b x =>
      obtain ⟨c, -, rfl⟩ := Option.map_eq_some_iff.mp h
      exact .inl rfl
    | loop =>
      obtain ⟨-, hnext⟩ := Option.ite_none_right_eq_some.mp h
      obtain rfl := Option.some.inj hnext
      obtain hsame | hpanic | ⟨c, -, hnext⟩ | ⟨r, p, answer, c, -, hp, -, hnext⟩ :=
        Setup.next_cases (onlineProcessor n) s
      · rw [hsame]
        exact .inl rfl
      · rw [hpanic]
        exact .inl rfl
      · rw [hnext]
        exact .inl rfl
      · obtain ⟨hi, pipeline, hpipeline, rfl, -⟩ := onlineProcessor_eq_some hp
        rw [hnext]
        exact .inr ⟨.processor _ _, hpipeline⟩
    | beside op =>
      obtain ⟨p, hp, rfl⟩ := Option.map_eq_some_iff.mp h
      rcases onlineBeside_cases hp with
        ⟨-, rfl⟩ | ⟨o, pipeline, -, -, -, hstep, rfl⟩ | ⟨i, -, rfl⟩ | ⟨i, -, rfl⟩
      · exact .inl rfl
      · exact .inr ⟨o, hstep⟩
      · exact .inl rfl
      · exact .inl rfl

/-! ## What the splitters are fed -/

omit [NeZero L] in
/-- A buffer goes to the splitter of its CPU, and no other step feeds one. -/
theorem fed_processor {s t : Pipeline n} {i : Fin n} {d : Bytes}
    (h : s.processor i d = some t) (b : Fin n) :
    (t.spliters b).fed.flatten =
      (s.spliters b).fed.flatten ++ if i.val = b.val then d else [] := by
  obtain ⟨-, ⟨-, rfl⟩ | ⟨rfl, rfl⟩⟩ := Pipeline.processor_cases h
  · by_cases hb : b = i
    · subst hb
      rw [if_pos rfl]
      simp only [Pipeline.setSpliter, Function.update_self, List.flatten_append,
        List.flatten_singleton]
    · rw [if_neg fun e => hb (Fin.ext e.symm), List.append_nil]
      simp only [Pipeline.setSpliter, Function.update_of_ne hb]
  · rw [ite_self, List.append_nil]

omit [NeZero L] in
/-- Only the capture feeds a splitter. -/
theorem fed_step {s t : Pipeline n} {op : PipelineOp n} (hop : ∀ i d, op ≠ .processor i d)
    (h : (pipelineMachine n split yields).step s op = some t) (b : Fin n) :
    (t.spliters b).fed = (s.spliters b).fed := by
  have hset : ∀ (i : Fin n) (sp : Spliter), sp.fed = (s.spliters i).fed →
      (Function.update s.spliters i sp b).fed = (s.spliters b).fed := by
    intro i sp hfed
    by_cases hb : b = i
    · subst hb
      rw [Function.update_self, hfed]
    · rw [Function.update_of_ne hb]
  cases Pipeline.step_cases h with
  | fed i d => exact absurd rfl (hop i d)
  | dropTx i hi => exact hset _ _ rfl
  | spliterRecv i => exact hset i _ rfl
  | spliterSend i => exact hset i _ rfl
  | spliterEnd i => exact hset i _ rfl
  | _ => rfl

/-- INTERNAL: the buffers of a splitter are what came out of the ring.
SRC: online_proc.rs:99-113 -/
theorem online_keeps (n L outLen : ℕ) [NeZero L] (split : Bytes → List ℕ)
    (yields : Bytes → List Usize) :
    Keeps (onlineProgram n L outLen split yields) (onlineProcessor n) (onlineBeside split yields)
      fun s b => (s.pipeline.spliters b).fed.flatten where
  init _ := rfl
  call := by
    intro s _ i buff size t answer h b
    obtain ⟨hi, pipeline, hp, rfl, -⟩ := onlineProcessor_eq_some h
    exact fed_processor hp b
  beside := by
    intro s op t h b
    rcases onlineBeside_cases h with
      ⟨-, rfl⟩ | ⟨o, pipeline, -, hop, -, hstep, rfl⟩ | ⟨i, -, rfl⟩ | ⟨i, -, rfl⟩
    · rfl
    · exact congrArg List.flatten (fed_step hop hstep b)
    · rfl
    · rfl

/-! ## `main` does not panic -/

omit [NeZero L] in
/-- While the capture goes on, `main` collects. -/
theorem main_step {s t : Pipeline n} {op : PipelineOp n} (hm : s.main = .collecting)
    (hop : op ≠ .stop) (h : (pipelineMachine n split yields).step s op = some t) :
    t.main = .collecting := by
  cases Pipeline.step_cases h with
  | stop => exact absurd rfl hop
  | dropTx i hi hm' => exact hm
  | joinSpliter i hi hm' => cases hm.symm.trans hm'
  | splitersDone i hi hm' => cases hm.symm.trans hm'
  | joinWorker j hj hm' => cases hm.symm.trans hm'
  | workersDone j hj hm' => cases hm.symm.trans hm'
  | _ => exact hm

/-- `main` is in the loop or behind it, and then it waits for the threads; nobody has panicked. -/
structure OnlineOk (s : Setup n L (Online n)) : Prop where
  panicked : s.panicked = false
  crashed : ∀ i, s.processor.crashed i = false
  joined : s.processor.panicked = false
  i_lt : s.capture.i < n
  main : s.processor.pipeline.main ≠ .collecting → s.capture.phase = .returned

/-- While the loop runs the processor takes what it is given. -/
theorem onlineProcessor_of_ok {s : Setup n L (Online n)} (hok : OnlineOk s)
    (hinv : s.capture.Inv) {r : ℕ} (hphase : s.capture.phase = .handing r) :
    ∃ pipeline, onlineProcessor n s.processor s.capture.i s.capture.tmpBuff r =
      some (s.processor.withPipeline pipeline, !s.processor.gStop) := by
  have hmain : s.processor.pipeline.main = .collecting := by
    by_contra hne
    have hret := hok.main hne
    rw [hphase] at hret
    cases hret
  have hr : r ≤ s.capture.tmpBuff.length := by
    have hle := hinv.copied_le
    rwa [hphase, Phase.copied] at hle
  have hsome : ∃ pipeline, s.processor.pipeline.processor ⟨s.capture.i, hok.i_lt⟩
      (s.capture.tmpBuff.take r) = some pipeline := by
    rw [Pipeline.processor, if_pos hmain]
    split
    · exact ⟨_, rfl⟩
    · exact ⟨_, rfl⟩
  obtain ⟨pipeline, hp⟩ := hsome
  refine ⟨pipeline, ?_⟩
  have hsound : ¬ (0 < r ∧ s.processor.crashed ⟨s.capture.i, hok.i_lt⟩ = true) := by
    rw [hok.crashed]
    simp
  rw [onlineProcessor, dif_pos hok.i_lt, if_pos hr, if_neg hsound, hp]
  rfl

/-- A step of the loop: it copies a byte or ends a call of `fetch_data`, or what was fetched goes
to a splitter. -/
theorem onlineLoop_cases (hmax : n ≤ maxCpuNum) {s : Setup n L (Online n)} (hok : OnlineOk s)
    (hinv : s.capture.Inv) (hne : s.capture.phase ≠ .returned) :
    (∃ c fetched, s.capture.iterate = some c ∧
        s.next (onlineProcessor n) = { s with capture := c, fetched }) ∨
      ∃ r pipeline c handed, s.capture.phase = .handing r ∧
        s.processor.pipeline.processor ⟨s.capture.i, hok.i_lt⟩ (s.capture.tmpBuff.take r) =
          some pipeline ∧
        s.capture.process (!s.processor.gStop) = some c ∧
        s.next (onlineProcessor n) =
          { s with capture := c, processor := s.processor.withPipeline pipeline, handed } := by
  cases hphase : s.capture.phase with
  | fetching k =>
    obtain ⟨c, hc⟩ := Capture.iterate_isSome hphase hok.i_lt
    exact .inl ⟨c, _, hc,
      Setup.next_of_iterate hphase (hok.i_lt.trans_le hmax) hc (onlineProcessor n)⟩
  | handing r =>
    obtain ⟨pipeline, hp⟩ := onlineProcessor_of_ok hok hinv hphase
    obtain ⟨c, hc⟩ := Capture.process_isSome hphase hok.i_lt (!s.processor.gStop)
    obtain ⟨_, pipeline', hpipeline, heq, -⟩ := onlineProcessor_eq_some hp
    obtain rfl : pipeline = pipeline' := congrArg Online.pipeline heq
    exact .inr ⟨r, pipeline, c, _, rfl, hpipeline, hc, Setup.next_of_process hphase hp hc⟩
  | returned => exact absurd hphase hne

/-- The loop of the capture keeps its place with `main`. -/
theorem OnlineOk.loop (hmax : n ≤ maxCpuNum) {s : Setup n L (Online n)} (hok : OnlineOk s)
    (hinv : s.capture.Inv) (hne : s.capture.phase ≠ .returned) :
    OnlineOk (s.next (onlineProcessor n)) := by
  have hmain : s.processor.pipeline.main = .collecting := by
    by_contra hm
    exact hne (hok.main hm)
  obtain ⟨c, fetched, hc, hnext⟩ | ⟨r, pipeline, c, handed, -, hp, hc, hnext⟩ :=
    onlineLoop_cases hmax hok hinv hne
  · rw [hnext]
    obtain ⟨k, hi, -, ⟨-, -, rfl⟩ | ⟨-, rfl⟩⟩ := Capture.iterate_cases hc
    · exact ⟨hok.panicked, hok.crashed, hok.joined, hok.i_lt, fun hm => absurd hmain hm⟩
    · exact ⟨hok.panicked, hok.crashed, hok.joined, hok.i_lt, fun hm => absurd hmain hm⟩
  · rw [hnext]
    have hstep : (pipelineMachine n (fun _ => []) fun _ => []).step s.processor.pipeline
        (.processor ⟨s.capture.i, hok.i_lt⟩ (s.capture.tmpBuff.take r)) = some pipeline := hp
    have hcollecting : pipeline.main = .collecting := main_step hmain (by simp) hstep
    exact ⟨hok.panicked, hok.crashed, hok.joined, Capture.process_i_lt hc,
      fun hm => absurd hcollecting hm⟩

/-- INTERNAL: **every run of `online_proc` with two CPUs or more is in order.**
SRC: online_proc.rs:302-395 -/
theorem onlineProgram_ok (h2 : 2 ≤ n) (hmax : n ≤ maxCpuNum) {s : Setup n L (Online n)}
    (hs : (onlineProgram n L outLen split yields).Reachable s) : OnlineOk s := by
  refine Machine.invariant_of_reachable _ (P := OnlineOk)
    ⟨rfl, fun _ => rfl, rfl, Nat.zero_lt_of_lt h2, fun hm => absurd rfl hm⟩ ?_ hs
  intro s op t hs hok hstep
  cases op with
  | write b x =>
    obtain ⟨c, hc, rfl⟩ := Option.map_eq_some_iff.mp hstep
    obtain ⟨-, rfl⟩ := Capture.write_cases hc
    exact ⟨hok.panicked, hok.crashed, hok.joined, hok.i_lt, hok.main⟩
  | loop =>
    obtain ⟨⟨-, hrunning⟩, hnext⟩ := Option.ite_none_right_eq_some.mp hstep
    obtain rfl := Option.some.inj hnext
    rw [Setup.running, Bool.and_eq_true, decide_eq_true_eq] at hrunning
    exact hok.loop hmax (captureProgram_inv hs).1 hrunning.2
  | beside op =>
    obtain ⟨p, hp, rfl⟩ := Option.map_eq_some_iff.mp hstep
    rcases onlineBeside_cases hp with
      ⟨-, rfl⟩ | ⟨o, pipeline, -, -, hstop, hop, rfl⟩ | ⟨i, hone, -⟩ | ⟨i, hcrashed, -⟩
    · exact ⟨hok.panicked, hok.crashed, hok.joined, hok.i_lt, hok.main⟩
    · refine ⟨hok.panicked, hok.crashed, hok.joined, hok.i_lt, fun hne => ?_⟩
      by_cases hm : s.processor.pipeline.main = .collecting
      · by_cases ho : o = .stop
        · exact hstop ho
        · exact absurd (main_step hm ho hop) hne
      · exact hok.main hm
    · omega
    · rw [hok.crashed] at hcrashed
      cases hcrashed

/-! ## What is counted -/

/-- The chunks that a splitter makes of the buffers it was fed. -/
def Pipeline.chunksOf (split : Bytes → List ℕ) (s : Pipeline n) (b : Fin n) : List Bytes :=
  (createSpliterThread split (s.spliters b).fed).getD []

/-- The instructions that the chunks of all CPUs yield. -/
def Pipeline.ips (split : Bytes → List ℕ) (yields : Bytes → List Usize) (s : Pipeline n) :
    List Usize :=
  (List.finRange n).flatMap fun b => (s.chunksOf split b).flatMap yields

omit [NeZero L] in
/-- INTERNAL: the splitters make chunks of their buffers without a panic, and no chunk is empty.
SRC: online_proc.rs:64-86, data_spliter/mod.rs:4-14 -/
theorem Pipeline.chunksOf_spec (hsplit : SplitOffsets split) (s : Pipeline n) (b : Fin n) :
    createSpliterThread split (s.spliters b).fed = some (s.chunksOf split b) ∧
      ∀ c ∈ s.chunksOf split b, c ≠ [] := by
  obtain ⟨chunks, hchunks, hne⟩ := createSpliterThread_of_offsets hsplit (s.spliters b).fed
  rw [chunksOf, hchunks]
  exact ⟨rfl, hne⟩

omit [NeZero L] in
/-- Where `split` cuts a stream at its own sync points, these are its pieces. -/
theorem Pipeline.chunksOf_eq_segments (hsplit : SplitSpec split) (s : Pipeline n) (b : Fin n) :
    s.chunksOf split b =
      segments (s.spliters b).fed.flatten (split (s.spliters b).fed.flatten) := by
  rw [chunksOf, createSpliterThread, spliterRun_eq hsplit]
  rfl

omit [NeZero L] in
/-- A splitter that has ended has sent its chunks. -/
theorem Pipeline.Inv.chunksOf_eq_sent {s : Pipeline n} (h : s.Inv split yields) {b : Fin n}
    (hended : (s.spliters b).ended = true) : s.chunksOf split b = (s.spliters b).sent := by
  rw [chunksOf, h.sent_eq hended]
  rfl

omit [NeZero L] in
/-- The histograms of the chunks of all CPUs, together. -/
theorem sum_hist_flatMap (yields : Bytes → List Usize) (chunks : Fin n → List Bytes) :
    ∑ b, ((chunks b).map fun d => hist (yields d)).sum =
      hist ((List.finRange n).flatMap fun b => (chunks b).flatMap yields) := by
  have hchunks : ∀ chunks : List Bytes,
      (chunks.map fun d => hist (yields d)).sum = hist (chunks.flatMap yields) := by
    intro chunks
    rw [List.flatMap, hist_flatten, List.map_map]
    rfl
  simp only [hchunks]
  rw [List.flatMap, hist_flatten, List.map_map, Fin.sum_univ_def]
  rfl

omit [NeZero L] in
/-- INTERNAL: **the merged map is the histogram of the chunks.**
SRC: online_proc.rs:38-113, 207-241, 272-292 -/
theorem Pipeline.read_eq_ips (h2 : 2 ≤ n) {s : Pipeline n}
    (hs : (pipelineMachine n split yields).Reachable s) (hdone : s.main = .completed)
    {orders : List (List (Σ _ : Usize, InsPage))} (ho : List.Forall₂ Order s.pds orders) :
    (collectAllData orders).read = hist (s.ips split yields) := by
  have hinv := pipelineMachine_inv hs
  rw [hinv.read_collectAllData h2 hdone ho, Pipeline.ips, ← sum_hist_flatMap]
  refine Finset.sum_congr rfl fun b _ => ?_
  have hended := hinv.main
  rw [hdone] at hended
  rw [hinv.chunksOf_eq_sent (hended.1 b)]

omit [NeZero L] in
/-- A map that reads as a histogram has the counters of the instructions at the addresses of their
pages. -/
theorem cntAt_of_read {data : PageMap} {ips : List Usize} (h : data.read = hist ips)
    (addr : Usize) : (data.cntAt addr).toNat = ips.count addr % 2 ^ 64 := by
  rw [← cnt_hist, ← h, ← PageMap.cnt_eq_read]
  rfl

omit [NeZero L] in
/-- A map that reads as a histogram has its pages at page addresses. -/
theorem aligned_of_read {data : PageMap} {ips : List Usize} (h : data.read = hist ips) :
    data.Aligned := by
  intro page hpage
  rw [PageMap.mem_iff, h, hist_ne_zero_iff] at hpage
  obtain ⟨addr, -, rfl⟩ := hpage
  exact pageOf_pageOf addr

/-- What the driver writes to a ring, one byte after the other. -/
def writes {n : ℕ} {β : Type} (b : Fin n) (bytes : Bytes) : List (ProgramOp n β) :=
  bytes.map fun x => .write b x

/-- The first stream is two PSB+ with a TNT packet between them, `psbPlus ++ [0x06] ++ psbPlus`.  It
is fetched, Ctrl-C is pressed, and the threads end. -/
def ctrlCRun : List (ProgramOp 2 (OnlineOp 2)) :=
  writes 0 (psbPlus ++ [0x06] ++ psbPlus) ++ List.replicate 38 .loop ++ [.beside .ctrlC] ++
    List.replicate 3 .loop ++
    ([.spliterRecv 0, .stop, .dropTx, .spliterSend 0, .spliterEnd 0, .joinSpliter, .dropTx,
      .workerRecv (Fin.last 0), .spliterEnd 1, .joinSpliter, .joinSpliter,
      .workerDecode (Fin.last 0), .workerEnd (Fin.last 0), .joinWorker, .joinWorker] :
        List (PipelineOp 2)).map fun op => .beside (.thread op)

end PtkGenerator

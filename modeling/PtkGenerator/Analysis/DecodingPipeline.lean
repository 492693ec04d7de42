import PtkGenerator.Analysis.OnlineRun
import PtkGenerator.Analysis.PipelineProgress
import PtkGenerator.Analysis.RemoteDecode
import PtkGenerator.Model.DecodingPipeline

/-!
# The threads decode as the pipeline says

The pipeline takes for granted what a chunk yields.  With a decoder that reads the target through
the cacher of its worker, this is what the decode of the chunk returns on the memory of the target:
which chunks a worker has decoded before, and what its cacher holds by that, makes no difference.
So every run of the threads with their decoders is a run of the pipeline.
-/

set_option autoImplicit false

namespace PtkGenerator

open Cuts Machine SumMap

variable {ρ σ : Type} {n k : ℕ} {T : Target} {split : Bytes → List ℕ}

/-! ## What was decoded stays decoded -/

/-- A change of one worker keeps what the others have decoded. -/
theorem Pipeline.decoded_setWorker {s : Pipeline n} {j : Fin (n - 1)} {w : Worker n}
    (h : (s.workers j).decoded <+: w.decoded) (i : Fin (n - 1)) :
    (s.workers i).decoded <+: ((s.setWorker j w).workers i).decoded := by
  change _ <+: (Function.update s.workers j w i).decoded
  by_cases hi : i = j
  · subst hi
    rw [Function.update_self]
    exact h
  · rw [Function.update_of_ne hi]

/-- A step of the pipeline takes nothing back that was decoded. -/
theorem Pipeline.Step.decoded {yields : Bytes → List Usize} {s t : Pipeline n} {op : PipelineOp n}
    (h : Step split yields s op t) (i : Fin (n - 1)) :
    (s.workers i).decoded <+: (t.workers i).decoded := by
  cases h with
  | workerRecv j c queue _ _ =>
    exact decoded_setWorker (w := { s.workers j with current := some c }) List.prefix_rfl i
  | workerDecode j c _ => exact decoded_setWorker (List.prefix_append _ _) i
  | workerEnd j _ =>
    exact decoded_setWorker (w := { s.workers j with ended := true }) List.prefix_rfl i
  | fed | noData | stop | dropTx | joinSpliter | splitersDone | joinWorker | workersDone
  | spliterRecv | spliterSend | spliterEnd => exact List.prefix_rfl

namespace DecodingPipeline

variable {d : ImageDecoder ρ} {f : Reader σ} {w : σ}

/-- A step decodes a chunk, or is one of the pipeline that decodes nothing. -/
theorem step_cases {s t : DecodingPipeline σ n} {op : PipelineOp n}
    (h : (decodingMachine n split d f w k).step s op = some t) :
    (∃ j c, op = .workerDecode j ∧ (s.threads.workers j).current = some c ∧
      t = {
        threads := s.threads.setWorker j { s.threads.workers j with
          current := none
          data := ((decodeLoop (s.threads.workers j).data).run (d.cached f)
            (d.new c.data, s.cachers j) k).state.dataRst
          decoded := (s.threads.workers j).decoded ++ [c] }
        cachers := Function.update s.cachers j ((decodeLoop (s.threads.workers j).data).run
          (d.cached f) (d.new c.data, s.cachers j) k).world.2 }) ∨
      t.cachers = s.cachers ∧ ∀ yields,
        (pipelineMachine n split yields).step s.threads op = some t.threads := by
  cases op with
  | workerDecode j =>
    simp only [decodingMachine, decode] at h
    split at h
    · cases h
    · next c hc => exact .inl ⟨j, c, rfl, hc, (Option.some.inj h).symm⟩
  | _ =>
    obtain ⟨threads, hthreads, rfl⟩ := Option.map_eq_some_iff.mp h
    exact .inr ⟨rfl, fun _ => hthreads⟩

/-- A step of the threads takes nothing back that was decoded. -/
theorem decoded_step {s t : DecodingPipeline σ n} {op : PipelineOp n}
    (h : (decodingMachine n split d f w k).step s op = some t) (i : Fin (n - 1)) :
    (s.threads.workers i).decoded <+: (t.threads.workers i).decoded := by
  rcases step_cases h with ⟨j, c, -, -, rfl⟩ | ⟨-, hstep⟩
  · exact Pipeline.decoded_setWorker (List.prefix_append _ _) i
  · exact (Pipeline.step_cases (hstep fun _ => [])).decoded i

/-- All that was decoded in the threads read what is readable. -/
def Readable (d : ImageDecoder ρ) (T : Target) (k : ℕ) (s : DecodingPipeline σ n) : Prop :=
  ∀ j, ∀ c ∈ (s.threads.workers j).decoded, d.Decodes T k c.data

/-- INTERNAL: **a step of the threads with their decoders is one of the pipeline**, and it leaves
in the cachers what is in the memory.
SRC: online_proc.rs:44-54, decode_proc/mod.rs:15-93 -/
theorem refines_step (hf : f.Serves T.mem) {s t : DecodingPipeline σ n} {op : PipelineOp n}
    (hinv : ∀ j, CacheInv T.mem (s.cachers j).1) (hd : t.Readable d T k)
    (h : (decodingMachine n split d f w k).step s op = some t) :
    (pipelineMachine n split (d.yields T k)).step s.threads op = some t.threads ∧
      ∀ j, CacheInv T.mem (t.cachers j).1 := by
  rcases step_cases h with ⟨j, c, rfl, hc, rfl⟩ | ⟨hcachers, hstep⟩
  · have hchunk : d.Decodes T k c.data := by
      apply hd j c
      change c ∈ (Function.update s.threads.workers j _ j).decoded
      rw [Function.update_self]
      exact List.mem_append_right _ (List.mem_singleton_self c)
    obtain ⟨hmap, hcache⟩ :=
      d.cached_decodes hf hchunk (hinv j) (s.threads.workers j).data
    constructor
    · simp only [pipelineMachine, Pipeline.workerDecode, hc, hmap]
    · exact Families.forall_update (P := fun _ (c : MemCacher σ × σ) => CacheInv T.mem c.1)
        hinv hcache
  · exact ⟨hstep _, fun j => by rw [hcachers]; exact hinv j⟩

/-- INTERNAL: **a run of the threads with their decoders is one of the pipeline.**  By induction on
the run; what was decoded at its end bears on every step before. -/
theorem refines (hf : f.Serves T.mem) {s : DecodingPipeline σ n}
    (hs : (decodingMachine n split d f w k).Reachable s) (hd : s.Readable d T k) :
    (pipelineMachine n split (d.yields T k)).Reachable s.threads := by
  have hrun := (decodingMachine n split d f w k).invariant
    (P := fun s => s.Readable d T k →
      (pipelineMachine n split (d.yields T k)).Reachable s.threads ∧
        ∀ j, CacheInv T.mem (s.cachers j).1)
    (fun _ => ⟨⟨[], rfl⟩, fun _ => CacheInv.new T.mem⟩) ?_ hs
  · exact (hrun hd).1
  · intro s op t ih h hdt
    have hds : s.Readable d T k := fun j c hc => hdt j c ((decoded_step h j).subset hc)
    obtain ⟨hreach, hinv⟩ := ih hds
    obtain ⟨hstep, hinv'⟩ := refines_step hf hinv hdt h
    exact ⟨Machine.Reachable.step _ hreach hstep, hinv'⟩

end DecodingPipeline

/-- MAIN: **the threads decode what the target has executed, caches and reads included.**  For every
decoder, every target and every schedule of the threads, as long as all that is read for a chunk is
readable and outside of page 0: the threads with their decoders run as the pipeline does in which a
chunk yields what its decode returns on the memory itself; and when `wait_for_complete` has
returned, the merged counter of an address is the number of times that the decoder returns it in the
chunks that the splitters make of what they were fed, in 64 bits.  No chunk is empty, and where
`split` cuts a stream at its own sync points the chunks are the pieces between them.
SRC: online_proc.rs:38-97, 115-173, 207-241, 272-292; decode_proc/mod.rs:15-93;
mem_cacher/mod.rs:28-82; pt_ctrl/mod.rs:109-150 -/
theorem threads_decode_executed {d : ImageDecoder ρ} (hsplit : SplitOffsets split) (h2 : 2 ≤ n)
    {s : DecodingPipeline Unit n}
    (hs : (decodingMachine n split d (decodeReader T) () k).Reachable s)
    (hd : s.Readable d T k) :
    (pipelineMachine n split (d.yields T k)).Reachable s.threads ∧
    (∀ b, createSpliterThread split (s.threads.spliters b).fed =
        some (s.threads.chunksOf split b) ∧
      (∀ c ∈ s.threads.chunksOf split b, c ≠ []) ∧
      (SplitSpec split → s.threads.chunksOf split b =
        segments (s.threads.spliters b).fed.flatten
          (split (s.threads.spliters b).fed.flatten))) ∧
    (s.threads.main = .completed → ∀ orders, List.Forall₂ Order s.threads.pds orders → ∀ addr,
      ((collectAllData orders).cntAt addr).toNat =
        (s.threads.ips split (d.yields T k)).count addr % 2 ^ 64) := by
  have hreach := DecodingPipeline.refines (decodeReader_serves T) hs hd
  refine ⟨hreach, fun b => ?_,
    fun hdone orders ho => cntAt_of_read (Pipeline.read_eq_ips h2 hreach hdone ho)⟩
  obtain ⟨hchunks, hne⟩ := s.threads.chunksOf_spec hsplit b
  exact ⟨hchunks, hne, fun hspec => Pipeline.chunksOf_eq_segments hspec s.threads b⟩

/-- Two CPUs and two chunks, each with one instruction at 0x1000. -/
theorem threads_decode_executed_two :
    ∃ s, (decodingMachine 2 psbSplit oneRead (decodeReader sevensTarget) () 5).exec
        (decodingMachine 2 psbSplit oneRead (decodeReader sevensTarget) () 5).init twoCpuRun =
          some s ∧
      ∀ orders, List.Forall₂ Order s.threads.pds orders →
        ((collectAllData orders).cntAt 0x1000).toNat = 2 := by
  have hrun : ∃ s, (decodingMachine 2 psbSplit oneRead (decodeReader sevensTarget) () 5).exec
      (decodingMachine 2 psbSplit oneRead (decodeReader sevensTarget) () 5).init twoCpuRun =
        some s ∧ s.threads.main = .completed ∧
      s.threads.ips psbSplit (oneRead.yields sevensTarget 5) = [0x1000, 0x1000] :=
    ⟨_, rfl, rfl, rfl⟩
  obtain ⟨s, hs, hdone, hips⟩ := hrun
  refine ⟨s, hs, fun orders ho => ?_⟩
  rw [(threads_decode_executed psbSplit_spec.toSplitOffsets (by decide) ⟨twoCpuRun, hs⟩
    (fun _ c _ => oneRead_decodes c.data)).2.2 hdone orders ho 0x1000, hips]
  rfl

end PtkGenerator

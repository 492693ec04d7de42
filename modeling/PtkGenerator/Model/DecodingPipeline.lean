import PtkGenerator.Model.ImageDecoder
import PtkGenerator.Model.Pipeline

/-!
# The threads with their decoders

A worker of `online_proc` has a cacher of its own, and decodes each chunk with it into its map.
Here the threads are those of the pipeline, but what a worker counts is what `decode` makes of the
chunk and of the memory that the decoder reads meanwhile.
-/

set_option autoImplicit false

namespace PtkGenerator

variable {ρ σ : Type} {n : ℕ}

/-- The threads, and the cachers of the workers with what their readers work on. -/
structure DecodingPipeline (σ : Type) (n : ℕ) where
  threads : Pipeline n
  cachers : Fin (n - 1) → MemCacher σ × σ

namespace DecodingPipeline

/-- A worker decodes its chunk into its map; `k` bounds the calls of the decoder for a chunk.
SRC: online_proc.rs:47-53, decode_proc/mod.rs:15-93 -/
def decode (d : ImageDecoder ρ) (f : Reader σ) (k : ℕ) (s : DecodingPipeline σ n)
    (j : Fin (n - 1)) : Option (DecodingPipeline σ n) :=
  let w := s.threads.workers j
  match w.current with
  | none => none
  | some c =>
    let x := (DecodeProc.decode w.data).run (d.cached f) (d.new c.data, s.cachers j) k
    some {
      threads := s.threads.setWorker j { w with
        current := none
        data := x.state.dataRst
        decoded := w.decoded ++ [c] }
      cachers := Function.update s.cachers j x.world.2 }

/-- A step of a thread that decodes nothing. -/
def thread (split : Bytes → List ℕ) (s : DecodingPipeline σ n) (op : PipelineOp n) :
    Option (DecodingPipeline σ n) :=
  ((pipelineMachine n split fun _ => []).step s.threads op).map fun threads => { s with threads }

end DecodingPipeline

/-- The threads of `create_env`, each worker with a new cacher.
SRC: online_proc.rs:38-97, 115-173, 207-241; decode_proc/mod.rs:15-93 -/
def decodingMachine (n : ℕ) (split : Bytes → List ℕ) (d : ImageDecoder ρ) (f : Reader σ) (w : σ)
    (k : ℕ) : Machine (DecodingPipeline σ n) (PipelineOp n) where
  init := ⟨(pipelineMachine n split fun _ => []).init, fun _ => (MemCacher.new, w)⟩
  step s
    | .workerDecode j => s.decode d f k j
    | op => s.thread split op

end PtkGenerator

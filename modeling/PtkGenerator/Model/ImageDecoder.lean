import PtkGenerator.Library.Asking
import PtkGenerator.Library.Driven
import PtkGenerator.Model.Connection
import PtkGenerator.Model.DecodeLoop
import PtkGenerator.Model.ReadMem

/-!
# The decoder and its image

`decode` and `async_decode` give the decoder an image whose callback is `get_content` of the cacher.
So `event`, `next` and `sync_forward` may read the memory of the target before they return, and what
they return depends on what was read.  A read is answered with as many bytes as the callback
returns; what else is in the buffer is not looked at.  The first `sync_forward` comes before the
image is set, and nothing can be read there.

A worker keeps its cacher from chunk to chunk.  The reader of a worker of a client may give the
buffer back that it was lent, so its callback is `getContentWith`.
-/

set_option autoImplicit false

namespace PtkGenerator

/-- A read of the image: the buffer and the address. -/
abbrev ImageRead := Bytes × Usize

/-- A call of the decoder: it reads the image, and comes back with its answer. -/
abbrev Reading (β : Type) := Asking ImageRead Bytes β

/-- A decoder: its state for the bytes of a chunk, and its calls. -/
structure ImageDecoder (ρ : Type) where
  new : Bytes → ρ
  syncForward : ρ → Reading (Except PtErrorCode Status × ρ)
  event : ρ → Reading (Except PtErrorCode Status × ρ)
  next : ρ → Reading (Except PtErrorCode (Usize × Status) × ρ)

variable {ρ σ : Type}

/-- What answers the reads of the image, with the cacher and the world it leaves; where
`get_content` is stopped by a fault there is no answer. -/
abbrev ImageCallback (σ : Type) :=
  MemCacher σ × σ → ImageRead → Option (Bytes × (MemCacher σ × σ))

/-- The callback of `decode`.
SRC: decode_proc/mod.rs:39 -/
def imageCallback : ImageCallback σ := fun s q =>
  match s.1.getContent s.2 q.1 q.2 with
  | .ok g => some (g.rst.take g.count, (g.cacher, g.world))
  | .error _ => none

/-- The callback of `async_decode`.
SRC: decode_proc/mod.rs:121 -/
def asyncImageCallback (f : RawReader σ) : ImageCallback σ := fun s q =>
  match s.1.getContentWith f s.2 q.1 q.2 with
  | .ok g => some (g.rst.take g.count, (g.cacher, g.world))
  | .error _ => none

namespace ImageDecoder

/-- The calls of the decoder in the loop.  The first `sync_forward` reads nothing; when it has come
back, the reader is installed and the image is set.
SRC: decode_proc/mod.rs:26-44, 106-126 -/
def calls (d : ImageDecoder ρ) (callback : ImageCallback σ) (install : MemCacher σ → MemCacher σ) :
    Machine.Environment DecodeState DecoderAnswer (ρ × MemCacher σ × σ) := fun w s =>
  match s.phase with
  | .sync => ((d.syncForward w.1).evaluated fun _ => some []).map fun x =>
      (.syncForward x.1, (x.2, match x.1 with
        | .ok _ => (install w.2.1, w.2.2)
        | .error _ => w.2))
  | .drain => ((d.event w.1).answered callback w.2).map fun x => (.event x.1.1, (x.1.2, x.2))
  | .next => ((d.next w.1).answered callback w.2).map fun x => (.next x.1.1, (x.1.2, x.2))
  | .resync => ((d.syncForward w.1).answered callback w.2).map fun x =>
      (.syncForward x.1.1, (x.1.2, x.2))
  | .returned => none

/-- The calls in `decode`, whose reader is `f`. -/
def cached (d : ImageDecoder ρ) (f : Reader σ) :
    Machine.Environment DecodeState DecoderAnswer (ρ × MemCacher σ × σ) :=
  d.calls imageCallback fun c => c.install f

/-- The calls in `async_decode`, whose reader is `f`; it goes with the callback here, not with the
cacher. -/
def asyncCached (d : ImageDecoder ρ) (f : RawReader σ) :
    Machine.Environment DecodeState DecoderAnswer (ρ × MemCacher σ × σ) :=
  d.calls (asyncImageCallback f) id

/-- A worker of `online_proc` and the chunks it takes, with one cacher and one map; `n` bounds the
calls of the decoder for a chunk.
SRC: online_proc.rs:38-56, decode_proc/mod.rs:15-93 -/
def localWorker (d : ImageDecoder ρ) (f : Reader σ) (n : ℕ) :
    MemCacher σ × σ → PageMap → List Bytes → PageMap
  | _, dataRst, [] => dataRst
  | s, dataRst, data :: chunks =>
    let x := (DecodeProc.decode dataRst).run (d.cached f) (d.new data, s) n
    localWorker d f n x.world.2 x.state.dataRst chunks

/-- A worker of a client and what it takes, with one cacher and a new map for each chunk; nothing
when a decode is stopped by a fault or goes on after `n` calls.
SRC: client_proc.rs:56-72, decode_proc/mod.rs:96-175 -/
def procWorker (d : ImageDecoder ρ) (f : RawReader σ) (n : ℕ) :
    MemCacher σ × σ → List ProcCtrl → Option (List PageMap)
  | _, [] => some []
  | s, .init :: ctrl => procWorker d f n (s.1.clearData, s.2) ctrl
  | s, .proc data :: ctrl =>
    let x := (DecodeProc.asyncDecode ∅).run (d.asyncCached f) (d.new data, s) n
    match x.state.phase with
    | .returned => (procWorker d f n x.world.2 ctrl).map fun maps => x.state.dataRst :: maps
    | _ => none

end ImageDecoder

end PtkGenerator

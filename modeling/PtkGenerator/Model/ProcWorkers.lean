import PtkGenerator.Model.Connection
import PtkGenerator.Model.MemCacher

/-!
# The workers of a client

`connect` starts workers that run `proc_data` on one control channel.  An `Init` message and a
`DataReq` message go into the channel in the order in which they come, and each of them is taken
by one of the workers.  Every worker has a `MemCacher` of its own, which an `Init` that the worker
takes clears.

What the decoder asks for is up to the decoder: a worker that decodes calls `get_content` for
ranges that come with the steps.  A range that crosses a page is read in two steps, and a page that
is not in the cache is fetched in one step and inserted in another, so that a message can come in
between.  The messages `Init` are numbered; a page is stamped with the number of those received when
it was fetched, that is when the answer of `f` came.
-/

set_option autoImplicit false

namespace PtkGenerator

open Ranges

/-- Where a worker is in the loop of `proc_data`: at `recv`, with a chunk before the decoder found
its first synchronisation point, decoding, with a page in hand that was fetched and is not in the
cache yet, behind the first page of a range that crosses a page, or stopped by a fault.  A page in
hand stands with the number of the `Init` messages received when it was fetched, and with what is
left of the range behind the page. -/
inductive ProcPhase where
  | idle
  | taken (data : Bytes) (epoch : ℕ)
  | decoding (epoch : ℕ)
  | fetched (epoch : ℕ) (tmpBuff : PageBuf) (number : ℕ) (rst : Bytes) (addr : Usize)
      (tail : Option (Bytes × Usize))
  | split (epoch : ℕ) (rst : Bytes) (addr : Usize)
  | failed

namespace ProcPhase

/-- The number of the `Init` messages that came before the chunk of the worker. -/
def epoch : ProcPhase → Option ℕ
  | .idle => none
  | .taken _ e => some e
  | .decoding e => some e
  | .fetched e _ _ _ _ _ => some e
  | .split e _ _ => some e
  | .failed => none

/-- Behind a page: the rest of the range, or the next call. -/
def behind (e : ℕ) : Option (Bytes × Usize) → ProcPhase
  | none => .decoding e
  | some (rst, addr) => .split e rst addr

/-- Behind a page the worker is still at the chunk it was at. -/
@[simp] theorem epoch_behind (e : ℕ) (tail : Option (Bytes × Usize)) :
    (behind e tail).epoch = some e := by
  cases tail <;> rfl

end ProcPhase

/-- A worker: its cache, with the stamps of the pages; the number of the `Init` it took last, and
how many had been received when it fetched the first page that went into the cache after that. -/
structure ProcWorker (σ : Type) where
  cacher : MemCacher σ
  phase : ProcPhase
  lastInit : ℕ
  firstFetch : Option ℕ
  stamp : Usize → ℕ

namespace ProcWorker

variable {σ : Type}

/-- SRC: client_proc.rs:57 -/
def new : ProcWorker σ := ⟨MemCacher.new, .idle, 0, none, fun _ => 0⟩

/-- The worker takes an `Init`.
SRC: client_proc.rs:60-62 -/
def takeInit (w : ProcWorker σ) (number : ℕ) : ProcWorker σ :=
  { w with cacher := w.cacher.clearData, lastInit := number, firstFetch := none }

/-- A page is read when `inits` messages `Init` have been received: from the cache or by `f`.
SRC: mem_cacher/mod.rs:35-57 -/
def onePage (w : ProcWorker σ) (inits : ℕ) (world : σ) (rst : Bytes) (addr : Usize) (e : ℕ)
    (tail : Option (Bytes × Usize)) : ProcWorker σ × σ :=
  match w.cacher.fetchOnePage world rst addr with
  | .error _ => ({ w with phase := .failed }, world)
  | .ok (.inl g) => ({ w with phase := .behind e tail }, g.world)
  | .ok (.inr (tmpBuff, world')) =>
    ({ w with phase := .fetched e tmpBuff inits rst addr tail }, world')

/-- The page in hand goes into the cache.
SRC: mem_cacher/mod.rs:58-62 -/
def store (w : ProcWorker σ) (world : σ) : Option (ProcWorker σ) :=
  match w.phase with
  | .fetched e tmpBuff number rst addr tail =>
    match w.cacher.storePage tmpBuff world rst addr with
    | .error _ => some { w with phase := .failed }
    | .ok g =>
      some { w with
        cacher := g.cacher
        phase := .behind e tail
        firstFetch := w.firstFetch.or (some number)
        stamp := Function.update w.stamp (pageOf addr) number }
  | _ => none

/-- `get_content` up to its first page.
SRC: mem_cacher/mod.rs:70-79 -/
def content (w : ProcWorker σ) (inits : ℕ) (world : σ) (rst : Bytes) (addr : Usize) :
    Option (ProcWorker σ × σ) :=
  match w.phase with
  | .decoding e =>
    let startAddr := pageOf addr
    if 2 ^ 64 ≤ addr.toNat + rst.length then some ({ w with phase := .failed }, world)
    else
      let endAddr := pageOf (addr + UInt64.ofNat rst.length)
      if startAddr = endAddr then some (w.onePage inits world rst addr e none)
      else if endAddr < addr then some ({ w with phase := .failed }, world)
      else
        let firstPageSize := (endAddr - addr).toNat
        if rst.length < firstPageSize then some ({ w with phase := .failed }, world)
        else
          some (w.onePage inits world (rst.take firstPageSize) addr e
            (some (rst.drop firstPageSize, addr + UInt64.ofNat firstPageSize)))
  | _ => none

/-- `get_content` behind its first page.
SRC: mem_cacher/mod.rs:80-81 -/
def rest (w : ProcWorker σ) (inits : ℕ) (world : σ) : Option (ProcWorker σ × σ) :=
  match w.phase with
  | .split e rst addr => some (w.onePage inits world rst addr e none)
  | _ => none

end ProcWorker

/-- A client: the control channel, where an `Init` stands with its number and a `Proc` with the
number of the `Init` messages that came before it; the number of the `Init` messages received,
the workers, and the world in which they read the target. -/
structure ProcClient (σ : Type) (n : ℕ) where
  procRx : List (ProcCtrl × ℕ)
  inits : ℕ
  worker : Fin n → ProcWorker σ
  world : σ

/-- The steps of the receive loop, of the world and of the workers. -/
inductive ProcOp (σ : Type) (n : ℕ) where
  | recvInit
  | recvDataReq (data : Bytes)
  | world (w : σ)
  | take (i : Fin n)
  | sync (i : Fin n)
  | content (i : Fin n) (rst : Bytes) (addr : Usize)
  | store (i : Fin n)
  | rest (i : Fin n)
  | finish (i : Fin n)

namespace ProcClient

variable {σ : Type} {n : ℕ}

/-- The worker goes on as `w`. -/
def put (s : ProcClient σ n) (i : Fin n) (w : ProcWorker σ) : ProcClient σ n :=
  { s with worker := Function.update s.worker i w }

/-- `proc_rx.recv()`.
SRC: client_proc.rs:58-63 -/
def take (s : ProcClient σ n) (i : Fin n) : Option (ProcClient σ n) :=
  match (s.worker i).phase, s.procRx with
  | .idle, (.init, number) :: procRx =>
    some { s.put i ((s.worker i).takeInit number) with procRx }
  | .idle, (.proc data, epoch) :: procRx =>
    some { s.put i { s.worker i with phase := .taken data epoch } with procRx }
  | _, _ => none

end ProcClient

/-- The client with `n` workers, whose chunks are decoded with the reader `f`; `connect` starts
two.
SRC: client_proc.rs:52-90, 135-157, decode_proc/mod.rs:96-121 -/
def procMachine {σ : Type} (n : ℕ) (f : Reader σ) (world : σ) :
    Machine (ProcClient σ n) (ProcOp σ n) where
  init := ⟨[], 0, fun _ => ProcWorker.new, world⟩
  step s
    | .recvInit =>
      some { s with procRx := s.procRx ++ [(.init, s.inits + 1)], inits := s.inits + 1 }
    | .recvDataReq data => some { s with procRx := s.procRx ++ [(.proc data, s.inits)] }
    | .world w => some { s with world := w }
    | .take i => s.take i
    | .sync i =>
      match (s.worker i).phase with
      | .taken _ e =>
        some (s.put i { s.worker i with
          cacher := (s.worker i).cacher.install f
          phase := .decoding e })
      | _ => none
    | .content i rst addr =>
      ((s.worker i).content s.inits s.world rst addr).map fun r => { s.put i r.1 with world := r.2 }
    | .store i => ((s.worker i).store s.world).map fun w => s.put i w
    | .rest i =>
      ((s.worker i).rest s.inits s.world).map fun r => { s.put i r.1 with world := r.2 }
    | .finish i =>
      match (s.worker i).phase with
      | .taken _ _ | .decoding _ => some (s.put i { s.worker i with phase := .idle })
      | _ => none

end PtkGenerator

import PtkGenerator.Library.Machine
import PtkGenerator.Library.Window
import PtkGenerator.Model.Types

/-!
# The capture loop

The driver writes one trace stream per CPU into a ring that starts out full of 0xFF.
`setup_pt_no_pmi` sweeps over the rings: `fetch_data` copies bytes out of a ring, writing 0xFF
over them, until ten cells in a row are 0xFF or the output buffer is full, and the processor is
handed what was copied.

The driver does not wait for the loop, so a sweep is a machine whose steps are the iterations of
`fetch_data`, the calls of the processor and the writes of the driver in between.  `written` and
`delivered` record the streams and what the processor was handed of them.
-/

set_option autoImplicit false

namespace PtkGenerator

open RingBuffer

variable {n L : ℕ} [NeZero L]

/-! ## `fetch_data` -/

/-- One of the ten bytes from `pos + i` on is not 0xFF.
SRC: pt_ctrl/mod.rs:288-296 -/
def isValid (buff : Fin L → UInt8) (pos i : ℕ) : Bool :=
  (List.range 10).any fun j => buff (cellAt L (pos + i + j)) ≠ 0xFF

/-- One iteration of `fetch_data`: the byte copied and the ring after it, or the end of the loop.
SRC: pt_ctrl/mod.rs:286-305 -/
def fetchIter (buff : Fin L → UInt8) (pos i : ℕ) : Option (UInt8 × (Fin L → UInt8)) :=
  if isValid buff pos i then
    let offset := cellAt L (i + pos)
    some (buff offset, Function.update buff offset 0xFF)
  else none

/-- The loop of `fetch_data`, with the number of iterations that are left: the ring, the output
buffer and the number of bytes copied, which is also the loop variable. -/
def fetchLoop (pos : ℕ) : ℕ → (Fin L → UInt8) → Bytes → ℕ → (Fin L → UInt8) × Bytes × ℕ
  | 0, buff, outBuff, rstSize => (buff, outBuff, rstSize)
  | left + 1, buff, outBuff, rstSize =>
    match fetchIter buff pos rstSize with
    | none => (buff, outBuff, rstSize)
    | some (cur, buff') => fetchLoop pos left buff' (outBuff.set rstSize cur) (rstSize + 1)

/-- `fetch_data`, with the driver at rest.
SRC: pt_ctrl/mod.rs:284-308 -/
def fetchData (buff : Fin L → UInt8) (pos : ℕ) (outBuff : Bytes) : (Fin L → UInt8) × Bytes × ℕ :=
  fetchLoop pos outBuff.length buff outBuff 0

/-! ## The sweeps -/

/-- Where the loop of `setup_pt_no_pmi` is: in `fetch_data`, about to call the processor, or
behind its return. -/
inductive Phase where
  | fetching (rstSize : ℕ)
  | handing (readSize : ℕ)
  | returned
  deriving DecidableEq

/-- The bytes that were copied out of the current ring and not handed on yet. -/
@[simp] def Phase.copied : Phase → ℕ
  | .fetching rstSize => rstSize
  | .handing readSize => readSize
  | .returned => 0

/-- The variables of `setup_pt_no_pmi`, the rings, and the two records. -/
structure Capture (n L : ℕ) where
  buffs : Fin n → Fin L → UInt8
  readPos : Fin n → ℕ
  tmpBuff : Bytes
  flags : Fin n → Bool
  i : ℕ
  phase : Phase
  written : Fin n → Bytes
  delivered : Fin n → Bytes

/-- The bytes copied out of a ring so far. -/
def Capture.taken (s : Capture n L) (b : Fin n) : ℕ :=
  (s.delivered b).length + if s.i = b then s.phase.copied else 0

/-- The bytes that are in a ring and were not copied out of it. -/
def Capture.undelivered (s : Capture n L) (b : Fin n) : Bytes := (s.written b).drop (s.taken b)

/-- A write of the driver, an iteration of `fetch_data`, a call of the processor with its
answer. -/
inductive CaptureOp (n : ℕ) where
  | write (b : Fin n) (x : UInt8)
  | iterate
  | process (answer : Bool)

namespace Capture

/-- The driver puts a byte behind the last one, unless the ring is full. -/
def write (s : Capture n L) (b : Fin n) (x : UInt8) : Option (Capture n L) :=
  if (s.written b).length < s.taken b + L then
    some { s with
      buffs := Function.update s.buffs b
        (Function.update (s.buffs b) (cellAt L (s.written b).length) x)
      written := Function.update s.written b (s.written b ++ [x]) }
  else none

/-- An iteration of `fetch_data` on the current ring.
SRC: pt_ctrl/mod.rs:286-306 -/
def iterate (s : Capture n L) : Option (Capture n L) :=
  match s.phase with
  | .fetching rstSize =>
    if hi : s.i < n then
      if rstSize < s.tmpBuff.length then
        match fetchIter (s.buffs ⟨s.i, hi⟩) (s.readPos ⟨s.i, hi⟩) rstSize with
        | none => some { s with phase := .handing rstSize }
        | some (cur, buff) => some { s with
            buffs := Function.update s.buffs ⟨s.i, hi⟩ buff
            tmpBuff := s.tmpBuff.set rstSize cur
            phase := .fetching (rstSize + 1) }
      else some { s with phase := .handing rstSize }
    else none
  | _ => none

/-- `read_pos` after a call of `fetch_data`, the call of the processor, and its answer.
SRC: pt_ctrl/mod.rs:341-343 -/
def handOn (s : Capture n L) (b : Fin n) (readSize : ℕ) (answer : Bool) : Capture n L :=
  { s with
    readPos := Function.update s.readPos b ((s.readPos b + readSize) % L)
    delivered := Function.update s.delivered b (s.delivered b ++ s.tmpBuff.take readSize)
    flags := if answer then s.flags else Function.update s.flags b true }

/-- The next ring of the sweep, or a new sweep, which begins with all flags down.
SRC: pt_ctrl/mod.rs:335-337 -/
def nextBuffer (s : Capture n L) : Capture n L :=
  if s.i + 1 < n then { s with i := s.i + 1, phase := .fetching 0 }
  else { s with i := 0, flags := fun _ => false, phase := .fetching 0 }

/-- What follows `fetch_data`.
SRC: pt_ctrl/mod.rs:341-347 -/
def process (s : Capture n L) (answer : Bool) : Option (Capture n L) :=
  match s.phase with
  | .handing readSize =>
    if hi : s.i < n then
      let s' := s.handOn ⟨s.i, hi⟩ readSize answer
      if answer = false ∧ ∀ j, s'.flags j = true then some { s' with phase := .returned }
      else some s'.nextBuffer
    else none
  | _ => none

end Capture

/-- `setup_pt_no_pmi` over `n` rings of length `L`, with an output buffer of `outLen` bytes
(1024 * 800 in the source), and the driver.
SRC: pt_ctrl/mod.rs:330-352 -/
def captureMachine (n L outLen : ℕ) [NeZero L] : Machine (Capture n L) (CaptureOp n) where
  init :=
    { buffs := fun _ _ => 0xFF
      readPos := fun _ => 0
      tmpBuff := List.replicate outLen 0
      flags := fun _ => false
      i := 0
      phase := .fetching 0
      written := fun _ => []
      delivered := fun _ => [] }
  step s
    | .write b x => s.write b x
    | .iterate => s.iterate
    | .process answer => s.process answer

end PtkGenerator

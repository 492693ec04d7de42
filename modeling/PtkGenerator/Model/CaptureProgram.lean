import PtkGenerator.Library.Refinement
import PtkGenerator.Model.SetupLoop

/-!
# A program around the capture

`main` of `collector`, `online_proc` and `server` goes into `setup_pt_no_pmi` with a processor, and
what the processor feeds runs beside the loop: threads, tasks, and behind the return `main` itself.
The state of all of them is the one of the processor.  The driver writes its streams into the rings
meanwhile, never over a byte that was not copied out yet.
-/

set_option autoImplicit false

namespace PtkGenerator

variable {n L : ℕ} {P β : Type}

/-- The steps of the driver, of the loop and of what runs beside it. -/
inductive ProgramOp (n : ℕ) (β : Type) where
  | write (b : Fin n) (x : UInt8)
  | loop
  | beside (op : β)

/-- The program begins with the processor in the state `p`; `begun` says when `main` has come to
the loop.
SRC: pt_ctrl/mod.rs:310-354 -/
def captureProgram (n L outLen : ℕ) [NeZero L] (processor : Processor P) (begun : P → Bool)
    (beside : Setup n L P → β → Option P) (p : P) : Machine (Setup n L P) (ProgramOp n β) where
  init := (setupMachine n L outLen processor p).init
  step s
    | .write b x => (s.capture.write b x).map fun capture => { s with capture }
    | .loop =>
      if begun s.processor = true ∧ s.running = true then some (s.next processor) else none
    | .beside op => (beside s op).map fun processor => { s with processor }

end PtkGenerator

import PtkGenerator.Analysis.RingDelivery
import PtkGenerator.Model.CaptureProgram

/-!
# What a program around the capture is fed

The capture of a program runs as it does with the driver alone, whatever the processor answers.  So
each of the streams that come out of the rings is a prefix of what the driver wrote, and what a
processor keeps of its calls, if nothing beside it changes that, is what came out.
-/

set_option autoImplicit false

namespace PtkGenerator

variable {n L outLen : ℕ} [NeZero L] {P β : Type} {processor : Processor P} {begun : P → Bool}
  {beside : Setup n L P → β → Option P} {p : P}

/-- INTERNAL: **the capture of a program is the capture.**
SRC: pt_ctrl/mod.rs:330-352 -/
theorem captureProgram_mapsTo (n L outLen : ℕ) [NeZero L] (processor : Processor P)
    (begun : P → Bool) (beside : Setup n L P → β → Option P) (p : P) :
    (captureProgram n L outLen processor begun beside p).MapsTo (captureMachine n L outLen)
      Setup.capture where
  init := rfl
  step := by
    intro s op s' _ h
    cases op with
    | write b x =>
      obtain ⟨c, hc, rfl⟩ := Option.map_eq_some_iff.mp h
      exact .inr ⟨.write b x, hc⟩
    | loop =>
      obtain ⟨-, hnext⟩ := Option.ite_none_right_eq_some.mp h
      obtain rfl := Option.some.inj hnext
      obtain hsame | hpanic | ⟨c, hc, hnext⟩ | ⟨r, p, answer, c, -, -, hc, hnext⟩ :=
        Setup.next_cases processor s
      · exact .inl (congrArg Setup.capture hsame)
      · rw [hpanic]
        exact .inl rfl
      · rw [hnext]
        exact .inr ⟨.iterate, hc⟩
      · rw [hnext]
        exact .inr ⟨.process answer, hc⟩
    | beside op =>
      obtain ⟨p', -, rfl⟩ := Option.map_eq_some_iff.mp h
      exact .inl rfl

/-- The capture of every reachable program is in order. -/
theorem captureProgram_inv {s : Setup n L P}
    (hs : (captureProgram n L outLen processor begun beside p).Reachable s) :
    s.capture.Inv ∧ s.capture.tmpBuff.length = outLen :=
  captureMachine_inv ((captureProgram_mapsTo n L outLen processor begun beside p).reachable hs)

/-- INTERNAL: **a program is fed a prefix of each stream.**
SRC: pt_ctrl/mod.rs:284-308, 334-352 -/
theorem delivered_written {s : Setup n L P}
    (hs : (captureProgram n L outLen processor begun beside p).Reachable s) (b : Fin n) :
    s.capture.delivered b <+: s.capture.written b := by
  rw [(captureProgram_inv hs).1.delivered b]
  exact List.take_prefix _ _

/-- What `keeps` says of the processor is made of its calls alone: a call appends what it is given
for its buffer. -/
structure Keeps (M : Machine (Setup n L P) (ProgramOp n β)) (processor : Processor P)
    (beside : Setup n L P → β → Option P) (keeps : P → Fin n → Bytes) : Prop where
  init : ∀ b, keeps M.init.processor b = []
  call : ∀ s : Setup n L P, M.Reachable s → ∀ i buff size q answer,
    processor s.processor i buff size = some (q, answer) →
      ∀ b : Fin n, keeps q b = keeps s.processor b ++ if i = b.val then buff.take size else []
  beside : ∀ s op q, beside s op = some q → ∀ b, keeps q b = keeps s.processor b

/-- INTERNAL: **a processor keeps what was handed on.**
SRC: pt_ctrl/mod.rs:337-347 -/
theorem Keeps.delivered {keeps : P → Fin n → Bytes}
    (h : Keeps (captureProgram n L outLen processor begun beside p) processor beside keeps)
    {s : Setup n L P}
    (hs : (captureProgram n L outLen processor begun beside p).Reachable s) (b : Fin n) :
    keeps s.processor b = s.capture.delivered b := by
  refine Machine.invariant_of_reachable _ (P := fun s : Setup n L P =>
    ∀ b, keeps s.processor b = s.capture.delivered b) h.init ?_ hs b
  intro s op s' hs hkeeps hstep b
  cases op with
  | write b' x =>
    obtain ⟨c, hc, rfl⟩ := Option.map_eq_some_iff.mp hstep
    obtain ⟨-, rfl⟩ := Capture.write_cases hc
    exact hkeeps b
  | loop =>
    obtain ⟨-, hnext⟩ := Option.ite_none_right_eq_some.mp hstep
    obtain rfl := Option.some.inj hnext
    obtain hsame | hpanic | ⟨c, hc, hnext⟩ | ⟨r, p', answer, c, hphase, hp, hc, hnext⟩ :=
      Setup.next_cases processor s
    · rw [hsame]
      exact hkeeps b
    · rw [hpanic]
      exact hkeeps b
    · rw [hnext]
      obtain ⟨k, hi, -, ⟨-, -, rfl⟩ | ⟨-, rfl⟩⟩ := Capture.iterate_cases hc
      · exact hkeeps b
      · exact hkeeps b
    · rw [hnext]
      obtain ⟨r', hi, hphase', -, -, -, -, -, hdelivered⟩ := Capture.process_cases hc
      obtain rfl := Phase.handing.inj (hphase.symm.trans hphase')
      simp only [hdelivered]
      rw [h.call s hs _ _ _ _ _ hp b, hkeeps b]
      by_cases hb : s.capture.i = b.val
      · obtain rfl : b = ⟨s.capture.i, hi⟩ := Fin.ext hb.symm
        rw [if_pos rfl, Function.update_self]
      · rw [if_neg hb, Function.update_of_ne (fun e => hb (congrArg Fin.val e).symm),
          List.append_nil]
  | beside op =>
    obtain ⟨p', hp', rfl⟩ := Option.map_eq_some_iff.mp hstep
    simp only
    rw [h.beside s op p' hp' b]
    exact hkeeps b

end PtkGenerator

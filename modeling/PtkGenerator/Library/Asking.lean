import Mathlib.Data.Option.Basic
import Mathlib.Tactic.Common

/-!
# Computations that ask

A computation asks questions, each depending on the answers so far, until it has a result.  Whoever
answers may keep a state, so the same question may be answered from a cache the second time.  What
it comes to depends on the answers only: who answers as a specification does, as long as that has
an answer, leads to the result that the specification leads to (`answered_eq`).
-/

set_option autoImplicit false

/-- A computation with questions in `Q`, answers in `R` and a result in `β`. -/
inductive Asking (Q R β : Type) where
  | done (b : β)
  | ask (q : Q) (resume : R → Asking Q R β)

namespace Asking

variable {Q R β σ : Type}

/-- The result, when a party with a state answers; `none` when it does not answer. -/
def answered (answer : σ → Q → Option (R × σ)) : σ → Asking Q R β → Option (β × σ)
  | s, .done b => some (b, s)
  | s, .ask q resume => (answer s q).bind fun r => answered answer r.2 (resume r.1)

/-- The result, when the answer to a question is always the same. -/
def evaluated (spec : Q → Option R) : Asking Q R β → Option β
  | .done b => some b
  | .ask q resume => (spec q).bind fun r => evaluated spec (resume r)

/-- A computation that comes to its result without an answer asks nothing. -/
theorem eq_done_of_evaluated {x : Asking Q R β} {b : β}
    (h : x.evaluated (fun _ => none) = some b) : x = .done b := by
  cases x with
  | done b' => exact congrArg done (Option.some.inj h)
  | ask q resume => cases h

/-- Where no question is answered, a computation comes to what it comes to without asking. -/
theorem answered_eq_evaluated {answer : σ → Q → Option (R × σ)} {s : σ}
    (h : ∀ q, answer s q = none) (x : Asking Q R β) :
    x.answered answer s = (x.evaluated fun _ => none).map fun b => (b, s) := by
  cases x with
  | done b => rfl
  | ask q resume => rw [answered, h, Option.bind_none, evaluated, Option.bind_none, Option.map_none]

/-- **Who answers as specified leads to the specified result.** -/
theorem answered_eq {answer : σ → Q → Option (R × σ)} {spec : Q → Option R} {I : σ → Prop}
    (hanswer : ∀ s q r, I s → spec q = some r → ∃ s', answer s q = some (r, s') ∧ I s')
    {s : σ} (hs : I s) {x : Asking Q R β} {b : β} (hx : x.evaluated spec = some b) :
    ∃ s', x.answered answer s = some (b, s') ∧ I s' := by
  induction x generalizing s with
  | done b' =>
    obtain rfl := Option.some.inj hx
    exact ⟨s, rfl, hs⟩
  | ask q resume ih =>
    obtain ⟨r, hr, hrest⟩ := Option.bind_eq_some_iff.mp hx
    obtain ⟨s', hs', hI⟩ := hanswer s q r hs hr
    obtain ⟨s'', hs'', hI'⟩ := ih r hI hrest
    exact ⟨s'', by rw [answered, hs', Option.bind_some, hs''], hI'⟩

end Asking

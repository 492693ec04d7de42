import Mathlib.Tactic.Common
import PtkGenerator.Library.Machine

/-!
# A machine and the environment it asks

A program that does nothing but ask its environment and go on with the answer is a machine whose
events are the answers.  `run` is what becomes of the two: the state of the machine, that of the
environment, and the answers so far.  `exec_log` brings a result about the runs of the machine back
to it, and `exists_ended` is how it is shown to end: from some time on every answer takes the
machine nearer to its end.
-/

set_option autoImplicit false

namespace Machine

variable {σ α ρ : Type*}

/-- What the environment answers to the question the machine asks in a state; there is no answer
where the machine asks nothing. -/
abbrev Environment (σ α ρ : Type*) := ρ → σ → Option (α × ρ)

/-- A machine at work, with the answers it was given. -/
structure Driven (σ α ρ : Type*) where
  state : σ
  world : ρ
  log : List α

variable (M : Machine σ α) (E : Environment σ α ρ)

/-- The machine asks nothing any more. -/
def Ended (x : Driven σ α ρ) : Prop := E x.world x.state = none

/-- One question, if there is one, and its answer. -/
def ask (x : Driven σ α ρ) : Driven σ α ρ :=
  match E x.world x.state with
  | none => x
  | some (a, w) =>
    match M.step x.state a with
    | none => x
    | some s => ⟨s, w, x.log ++ [a]⟩

/-- The machine after `n` questions, or fewer when it has ended. -/
def run (w : ρ) : ℕ → Driven σ α ρ
  | 0 => ⟨M.init, w, []⟩
  | n + 1 => M.ask E (run w n)

/-- The answer to the question that is asked after `n` others. -/
def answerAt (w : ρ) (n : ℕ) : Option α :=
  (E (M.run E w n).world (M.run E w n).state).map Prod.fst

variable {M E}

/-- One answer more of the environment is asked for after the others. -/
theorem run_succ (w : ρ) (n : ℕ) : M.run E w (n + 1) = M.ask E (M.run E w n) := rfl

/-- INTERNAL: the state is the one the answers lead to. -/
theorem exec_log (w : ρ) (n : ℕ) :
    M.exec M.init (M.run E w n).log = some (M.run E w n).state := by
  induction n with
  | zero => rfl
  | succ n ih =>
    rw [run_succ, ask]
    cases hE : E (M.run E w n).world (M.run E w n).state with
    | none => exact ih
    | some e =>
      obtain ⟨a, w'⟩ := e
      cases hs : M.step (M.run E w n).state a with
      | none => simpa only [hs] using ih
      | some s =>
        simp only [hs]
        exact M.exec_append.mpr ⟨_, ih, M.exec_cons_eq_some.mpr ⟨s, hs, rfl⟩⟩

/-- A machine that has ended stays as it is. -/
theorem run_of_ended {w : ρ} {n : ℕ} (h : Ended E (M.run E w n)) {m : ℕ} (hm : n ≤ m) :
    M.run E w m = M.run E w n := by
  induction hm with
  | refl => rfl
  | step _ ih => rw [run_succ, ih, ask, h]

/-- A run that has ended does not depend on how long it is watched. -/
theorem run_eq_of_ended {w : ρ} {m n : ℕ} (hm : Ended E (M.run E w m))
    (hn : Ended E (M.run E w n)) : M.run E w m = M.run E w n := by
  rcases Nat.le_total m n with h | h
  · exact (run_of_ended hm h).symm
  · exact run_of_ended hn h

/-- **Two environments that answer alike** drive the machine alike, as long as the one that answers
less does not leave a question open that the other answers. -/
theorem run_eq_of_answers {ρ' : Type*} {E' : Environment σ α ρ'} {R : σ → ρ → ρ' → Prop}
    (hanswer : ∀ s w w' a v, R s w w' → E w s = some (a, v) →
      ∃ v', E' w' s = some (a, v') ∧ ∀ s', M.step s a = some s' → R s' v v')
    {w : ρ} {w' : ρ'} (hR : R M.init w w') {n : ℕ}
    (hopen : ∀ m < n, Ended E (M.run E w m) → ∀ v', E' v' (M.run E w m).state = none) :
    (M.run E' w' n).state = (M.run E w n).state ∧ (M.run E' w' n).log = (M.run E w n).log ∧
      R (M.run E w n).state (M.run E w n).world (M.run E' w' n).world := by
  induction n with
  | zero => exact ⟨rfl, rfl, hR⟩
  | succ n ih =>
    obtain ⟨hstate, hlog, hworld⟩ := ih fun m hm => hopen m (Nat.lt_succ_of_lt hm)
    simp only [run_succ, ask, hstate]
    cases hE : E (M.run E w n).world (M.run E w n).state with
    | none =>
      simp only [hopen n (Nat.lt_succ_self n) hE]
      exact ⟨hstate, hlog, hworld⟩
    | some e =>
      obtain ⟨a, v⟩ := e
      obtain ⟨v', hv', hnext⟩ := hanswer _ _ _ a v hworld hE
      simp only [hv']
      cases hs : M.step (M.run E w n).state a with
      | none => exact ⟨hstate, hlog, hworld⟩
      | some s => exact ⟨rfl, by rw [hlog], hnext s hs⟩

/-- **The machine ends** when, from some time on, every answer takes it nearer to its end. -/
theorem exists_ended {w : ρ} (μ : σ → ℕ) (k : ℕ)
    (h : ∀ n, k ≤ n → ∀ a w', E (M.run E w n).world (M.run E w n).state = some (a, w') →
      ∃ s', M.step (M.run E w n).state a = some s' ∧ μ s' < μ (M.run E w n).state) :
    ∃ n, Ended E (M.run E w n) := by
  by_contra hnone
  have hrun : ∀ n, k ≤ n → ∃ a w', E (M.run E w n).world (M.run E w n).state = some (a, w') := by
    intro n _
    obtain ⟨⟨a, w'⟩, hsome⟩ := Option.ne_none_iff_exists'.mp fun he => hnone ⟨n, he⟩
    exact ⟨a, w', hsome⟩
  -- each question takes at least one off the measure
  have hdown : ∀ j, μ (M.run E w (k + j)).state + j ≤ μ (M.run E w k).state := by
    intro j
    induction j with
    | zero => exact Nat.le_refl _
    | succ j ih =>
      obtain ⟨a, w', ha⟩ := hrun (k + j) (Nat.le_add_right k j)
      obtain ⟨s', hs', hlt⟩ := h (k + j) (Nat.le_add_right k j) a w' ha
      have hnext : (M.run E w (k + (j + 1))).state = s' := by
        rw [← Nat.add_assoc, run_succ, ask, ha]
        simp only [hs']
      rw [hnext]
      omega
  have := hdown (μ (M.run E w k).state + 1)
  omega

end Machine

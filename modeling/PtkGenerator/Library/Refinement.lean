import PtkGenerator.Library.Machine

/-!
# Refinement

A machine refines another along a relation of their states when each of its steps is answered by a
run of the other: one step, several, or none.  Whatever holds of every reachable state of the
other machine then holds of what it is related to.
-/

set_option autoImplicit false

namespace Machine

variable {σ τ α β : Type*}

/-- `M` refines `N` along `R`. -/
structure Refines (M : Machine σ α) (N : Machine τ β) (R : σ → τ → Prop) : Prop where
  init : R M.init N.init
  step : ∀ s a s' t, M.Reachable s → R s t → M.step s a = some s' →
    ∃ bs t', N.exec t bs = some t' ∧ R s' t'

namespace Refines

variable {M : Machine σ α} {N : Machine τ β} {R : σ → τ → Prop}

/-- INTERNAL: a run is answered by a run. -/
theorem exec (h : M.Refines N R) {s s' : σ} {t : τ} {as : List α} (hs : M.Reachable s)
    (hR : R s t) (hexec : M.exec s as = some s') : ∃ bs t', N.exec t bs = some t' ∧ R s' t' := by
  induction as generalizing s t with
  | nil =>
    obtain rfl := Option.some.inj hexec
    exact ⟨[], t, rfl, hR⟩
  | cons a as ih =>
    obtain ⟨u, hu, hrest⟩ := (M.exec_cons_eq_some).mp hexec
    obtain ⟨bs, t', ht', hR'⟩ := h.step s a u t hs hR hu
    have hone : M.exec s [a] = some u := (M.exec_cons_eq_some).mpr ⟨u, hu, rfl⟩
    obtain ⟨cs, t'', ht'', hR''⟩ := ih (hs.exec M hone) hR' hrest
    exact ⟨bs ++ cs, t'', (N.exec_append).mpr ⟨t', ht', ht''⟩, hR''⟩

/-- **A reachable state is related to a reachable one.** -/
theorem reachable (h : M.Refines N R) {s : σ} (hs : M.Reachable s) :
    ∃ t, N.Reachable t ∧ R s t := by
  obtain ⟨as, has⟩ := hs
  obtain ⟨bs, t, ht, hR⟩ := h.exec ⟨[], rfl⟩ h.init has
  exact ⟨t, ⟨bs, ht⟩, hR⟩

end Refines

/-- `f` maps `M` to `N`: a step is one of `N` on what is mapped, or leaves that as it is. -/
structure MapsTo (M : Machine σ α) (N : Machine τ β) (f : σ → τ) : Prop where
  init : f M.init = N.init
  step : ∀ s a s', M.Reachable s → M.step s a = some s' →
    f s' = f s ∨ ∃ b, N.step (f s) b = some (f s')

namespace MapsTo

variable {M : Machine σ α} {N : Machine τ β} {f : σ → τ}

/-- A map of states that keeps the steps is a simulation. -/
theorem refines (h : M.MapsTo N f) : M.Refines N fun s t => f s = t where
  init := h.init
  step := by
    rintro s a s' t hs rfl hstep
    rcases h.step s a s' hs hstep with hsame | ⟨b, hb⟩
    · exact ⟨[], f s, rfl, hsame⟩
    · exact ⟨[b], f s', (N.exec_cons_eq_some).mpr ⟨f s', hb, rfl⟩, rfl⟩

/-- A map that keeps the steps keeps reachability. -/
theorem reachable (h : M.MapsTo N f) {s : σ} (hs : M.Reachable s) : N.Reachable (f s) := by
  obtain ⟨t, ht, rfl⟩ := h.refines.reachable hs
  exact ht

end MapsTo

end Machine

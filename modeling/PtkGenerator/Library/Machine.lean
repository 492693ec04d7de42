import Mathlib.Data.Nat.Notation
import Mathlib.Logic.Basic

/-!
# Machines and their runs

A `Machine` is an initial state with a partial step function: `step s a` is `some s'` when
the event `a` is enabled in `s`.  Runs are lists of events, so an interleaving of several
parties is a list of their events and a concrete schedule can be evaluated.

`Meets C` says of a run that every one of its steps is taken where `C` holds.  It is how a
result about the runs that keep away from one kind of step is stated; `C = fun _ _ => True`
is every run.  The two induction rules, `exec_induct` and `invariant`, are the only
inductions over runs that a development needs.
-/

set_option autoImplicit false

/-- An initial state and a partial step function. -/
structure Machine (σ α : Type*) where
  init : σ
  step : σ → α → Option σ

namespace Machine

variable {σ α : Type*} (M : Machine σ α)

/-- The state after the events `as` from `s`; `none` if one of them is not enabled. -/
def exec : σ → List α → Option σ
  | s, [] => some s
  | s, a :: as => (M.step s a).bind fun s' => exec s' as

/-- Every step of the run `as` from `s` is taken in a state and by an event that meet `C`. -/
def Meets (C : σ → α → Prop) : σ → List α → Prop
  | _, [] => True
  | s, a :: as => C s a ∧ ∀ s', M.step s a = some s' → Meets C s' as

/-- The states at the end of the runs from the initial state. -/
def Reachable (s : σ) : Prop := ∃ as, M.exec M.init as = some s

/-- The empty run stays where it is. -/
@[simp] theorem exec_nil (s : σ) : M.exec s [] = some s := rfl

/-- A run takes its first operation and then the rest. -/
theorem exec_cons (s : σ) (a : α) (as : List α) :
    M.exec s (a :: as) = (M.step s a).bind fun s' => M.exec s' as := rfl

/-- A run of one operation and more goes through the state behind the first. -/
theorem exec_cons_eq_some {s t : σ} {a : α} {as : List α} :
    M.exec s (a :: as) = some t ↔ ∃ s', M.step s a = some s' ∧ M.exec s' as = some t := by
  rw [exec_cons, Option.bind_eq_some_iff]

/-- A run of two parts goes through the state between them. -/
theorem exec_append {s t : σ} {as bs : List α} :
    M.exec s (as ++ bs) = some t ↔ ∃ s', M.exec s as = some s' ∧ M.exec s' bs = some t := by
  induction as generalizing s with
  | nil => simp
  | cons a as ih =>
    rw [List.cons_append, exec_cons_eq_some]
    simp only [ih, exec_cons_eq_some]
    constructor
    · rintro ⟨s₁, h₁, s₂, h₂, h₃⟩
      exact ⟨s₂, ⟨s₁, h₁, h₂⟩, h₃⟩
    · rintro ⟨s₂, ⟨s₁, h₁, h₂⟩, h₃⟩
      exact ⟨s₁, h₁, s₂, h₂, h₃⟩

/-- A run meets a condition that its first step meets and the rest meets. -/
theorem Meets.cons {C : σ → α → Prop} {s s' : σ} {a : α} {as : List α} (hC : C s a)
    (hs : M.step s a = some s') (h : M.Meets C s' as) : M.Meets C s (a :: as) := by
  refine ⟨hC, fun t ht => ?_⟩
  rw [hs, Option.some.injEq] at ht
  exact ht ▸ h

/-- Two runs one after the other meet what each of them meets. -/
theorem Meets.append {C : σ → α → Prop} {s t : σ} {as bs : List α} (h : M.Meets C s as)
    (hs : M.exec s as = some t) (ht : M.Meets C t bs) : M.Meets C s (as ++ bs) := by
  induction as generalizing s with
  | nil =>
    rw [exec_nil, Option.some.injEq] at hs
    exact hs ▸ ht
  | cons a as ih =>
    obtain ⟨u, hu, hrest⟩ := (M.exec_cons_eq_some).mp hs
    exact .cons M h.1 hu (ih (h.2 u hu) hrest)

/-- A condition on the operations of a run is met from every state. -/
theorem meets_of_forall_mem {C : σ → α → Prop} {as : List α} (h : ∀ s, ∀ a ∈ as, C s a) (s : σ) :
    M.Meets C s as := by
  induction as generalizing s with
  | nil => trivial
  | cons a as ih =>
    exact ⟨h s a (by simp), fun s' _ => ih (fun s b hb => h s b (List.mem_cons_of_mem a hb)) s'⟩

/-- A run keeps its condition together with one that each of its events meets. -/
theorem Meets.and_forall_mem {C : σ → α → Prop} {D : α → Prop} {s : σ} {as : List α}
    (h : M.Meets C s as) (hD : ∀ a ∈ as, D a) : M.Meets (fun s a => C s a ∧ D a) s as := by
  induction as generalizing s with
  | nil => trivial
  | cons a as ih =>
    exact ⟨⟨h.1, hD a List.mem_cons_self⟩, fun s' hs =>
      ih (h.2 s' hs) fun b hb => hD b (List.mem_cons_of_mem a hb)⟩

/-- A condition on every state and operation is met by every run. -/
theorem meets_of_forall {C : σ → α → Prop} (h : ∀ s a, C s a) (s : σ) (as : List α) :
    M.Meets C s as :=
  M.meets_of_forall_mem (fun s a _ => h s a) s

/-- Whether a run meets a decidable condition is decided by running it. -/
instance decidableMeets {C : σ → α → Prop} [∀ s a, Decidable (C s a)] :
    ∀ s as, Decidable (M.Meets C s as)
  | _, [] => .isTrue trivial
  | s, a :: as =>
    match hs : M.step s a with
    | none =>
      decidable_of_iff (C s a) ⟨fun hC => ⟨hC, fun _ hs' => nomatch hs.symm.trans hs'⟩, And.left⟩
    | some s' =>
      have : Decidable (M.Meets C s' as) := decidableMeets s' as
      decidable_of_iff (C s a ∧ M.Meets C s' as)
        ⟨fun h => .cons M h.1 hs h.2, fun h => ⟨h.1, h.2 s' hs⟩⟩

/-- **Induction over a run.** What one step preserves, taken where `C` holds, a run of such
steps preserves. -/
theorem exec_induct {C : σ → α → Prop} {P : σ → Prop}
    (hstep : ∀ s a s', P s → C s a → M.step s a = some s' → P s') {s t : σ} {as : List α}
    (hs : P s) (hC : M.Meets C s as) (h : M.exec s as = some t) : P t := by
  induction as generalizing s with
  | nil =>
    rw [exec_nil, Option.some.injEq] at h
    exact h ▸ hs
  | cons a as ih =>
    obtain ⟨s', hs', ht⟩ := (M.exec_cons_eq_some).mp h
    exact ih (hstep s a s' hs hC.1 hs') (hC.2 s' hs') ht

/-- **Runs that stay in `P`.** When a step out of `P` is in `P` again exactly where `C` holds of it,
a run stays in `P` exactly when all its steps meet `C`. -/
theorem forall_reached_iff {C : σ → α → Prop} {I P : σ → Prop}
    (hI : ∀ s a s', I s → M.step s a = some s' → I s')
    (hstep : ∀ s a s', I s → P s → M.step s a = some s' → (P s' ↔ C s a)) {s t : σ} {as : List α}
    (hs : I s) (hP : P s) (h : M.exec s as = some t) :
    (∀ bs cs u, as = bs ++ cs → M.exec s bs = some u → P u) ↔ M.Meets C s as := by
  induction as generalizing s with
  | nil =>
    refine ⟨fun _ => trivial, fun _ bs cs u hsplit hu => ?_⟩
    obtain ⟨rfl, rfl⟩ := List.append_eq_nil_iff.mp hsplit.symm
    rw [exec_nil, Option.some.injEq] at hu
    exact hu ▸ hP
  | cons a as ih =>
    obtain ⟨s', hs', hrest⟩ := (M.exec_cons_eq_some).mp h
    have hnext := hstep s a s' hs hP hs'
    constructor
    · intro hall
      have hP' : P s' := hall [a] as s' rfl (M.exec_cons_eq_some.mpr ⟨s', hs', rfl⟩)
      refine .cons M (hnext.mp hP') hs' ?_
      refine (ih (hI s a s' hs hs') hP' hrest).mp fun bs cs u hsplit hu => ?_
      exact hall (a :: bs) cs u (by rw [hsplit]; rfl) (M.exec_cons_eq_some.mpr ⟨s', hs', hu⟩)
    · rintro hmeets bs cs u hsplit hu
      have hP' : P s' := hnext.mpr hmeets.1
      cases bs with
      | nil =>
        rw [exec_nil, Option.some.injEq] at hu
        exact hu ▸ hP
      | cons b bs =>
        obtain ⟨rfl, htail⟩ := List.cons.inj hsplit
        obtain ⟨s'', hs'', hu⟩ := (M.exec_cons_eq_some).mp hu
        obtain rfl := Option.some.inj (hs'.symm.trans hs'')
        exact (ih (hI s a s' hs hs') hP' hrest).mpr (hmeets.2 s' hs') bs cs u htail hu

/-- Every step of the run `as` from the initial state does `Q`. -/
def EveryStep (Q : σ → α → σ → Prop) (as : List α) : Prop :=
  ∀ bs a cs s s', as = bs ++ a :: cs → M.exec M.init bs = some s → M.step s a = some s' → Q s a s'

/-- **Every step of a run.**  When the steps where `C` holds keep `I` and are in `Q`, all steps of
a run of such steps are in `Q`. -/
theorem forall_steps_of_meets {C : σ → α → Prop} {I : σ → Prop} {Q : σ → α → σ → Prop}
    (hI : ∀ s a s', I s → C s a → M.step s a = some s' → I s')
    (hstep : ∀ s a s', I s → C s a → M.step s a = some s' → Q s a s') {s : σ} {as : List α}
    (hs : I s) (hC : M.Meets C s as) :
    ∀ bs a cs u v, as = bs ++ a :: cs → M.exec s bs = some u → M.step u a = some v → Q u a v := by
  induction as generalizing s with
  | nil =>
    intro bs a cs u v hsplit
    exact absurd hsplit.symm (List.append_ne_nil_of_right_ne_nil bs (List.cons_ne_nil a cs))
  | cons a as ih =>
    intro bs b cs u v hsplit hu hv
    cases bs with
    | nil =>
      obtain ⟨rfl, rfl⟩ := List.cons.inj hsplit
      obtain rfl := Option.some.inj hu
      exact hstep s a v hs hC.1 hv
    | cons b' bs =>
      obtain ⟨rfl, hsplit'⟩ := List.cons.inj hsplit
      obtain ⟨s', hs', hu⟩ := (M.exec_cons_eq_some).mp hu
      exact ih (hI s a s' hs hC.1 hs') (hC.2 s' hs') bs b cs u v hsplit' hu hv

/-- **Runs whose steps do `Q`.** When a step does `Q` exactly where `C` holds of it, all steps of a
run do exactly when it meets `C`. -/
theorem forall_steps_iff {C : σ → α → Prop} {I : σ → Prop} {Q : σ → α → σ → Prop}
    (hI : ∀ s a s', I s → M.step s a = some s' → I s')
    (hstep : ∀ s a s', I s → M.step s a = some s' → (Q s a s' ↔ C s a)) {s t : σ} {as : List α}
    (hs : I s) (h : M.exec s as = some t) :
    (∀ bs a cs u v, as = bs ++ a :: cs → M.exec s bs = some u → M.step u a = some v → Q u a v) ↔
      M.Meets C s as := by
  induction as generalizing s with
  | nil =>
    refine ⟨fun _ => trivial, fun _ bs a cs u v hsplit => ?_⟩
    exact absurd hsplit.symm (List.append_ne_nil_of_right_ne_nil bs (List.cons_ne_nil a cs))
  | cons a as ih =>
    obtain ⟨s', hs', hrest⟩ := (M.exec_cons_eq_some).mp h
    have htail := ih (hI s a s' hs hs') hrest
    constructor
    · intro hall
      refine .cons M ((hstep s a s' hs hs').mp (hall [] a as s s' rfl rfl hs')) hs' ?_
      refine htail.mp fun bs b cs u v hsplit hu hv => ?_
      exact hall (a :: bs) b cs u v (by rw [hsplit]; rfl)
        (M.exec_cons_eq_some.mpr ⟨s', hs', hu⟩) hv
    · exact M.forall_steps_of_meets (fun s a s' hs _ => hI s a s' hs)
        (fun s a s' hs hC hs' => (hstep s a s' hs hs').mpr hC) hs

/-- **The invariant rule.** -/
theorem invariant {P : σ → Prop} (h0 : P M.init)
    (hstep : ∀ s a s', P s → M.step s a = some s' → P s') {s : σ} (h : M.Reachable s) : P s := by
  obtain ⟨as, h⟩ := h
  exact M.exec_induct (C := fun _ _ => True) (fun s a s' hs _ => hstep s a s' hs) h0
    (M.meets_of_forall (fun _ _ => trivial) _ _) h

/-- A step goes from a reachable state to a reachable one. -/
theorem Reachable.step {s t : σ} {a : α} (hs : M.Reachable s) (h : M.step s a = some t) :
    M.Reachable t := by
  obtain ⟨as, has⟩ := hs
  refine ⟨as ++ [a], M.exec_append.mpr ⟨s, has, ?_⟩⟩
  exact M.exec_cons_eq_some.mpr ⟨t, h, rfl⟩

/-- The invariant rule with what is known of every reachable state. -/
theorem invariant_of_reachable {P : σ → Prop} (h0 : P M.init)
    (hstep : ∀ s a s', M.Reachable s → P s → M.step s a = some s' → P s') {s : σ}
    (h : M.Reachable s) : P s := by
  refine (M.invariant (P := fun s => M.Reachable s ∧ P s) ⟨⟨[], rfl⟩, h0⟩ ?_ h).2
  rintro s a s' ⟨hs, hP⟩ ha
  exact ⟨hs.step M ha, hstep s a s' hs hP ha⟩

/-- A run goes from a reachable state to a reachable one. -/
theorem Reachable.exec {s t : σ} {as : List α} (hs : M.Reachable s)
    (h : M.exec s as = some t) : M.Reachable t := by
  obtain ⟨bs, hbs⟩ := hs
  exact ⟨bs ++ as, M.exec_append.mpr ⟨s, hbs, h⟩⟩

/-- **Runs that leave `C` once.** The steps where `C` holds keep `I`; the first one where it does
not leads to `B`, and nothing leads out of `B`. -/
theorem exec_dichotomy {C : σ → α → Prop} {I B : σ → Prop}
    (hgood : ∀ s a s', I s → C s a → M.step s a = some s' → I s')
    (hbad : ∀ s a s', I s → ¬ C s a → M.step s a = some s' → B s')
    (hB : ∀ s a s', B s → M.step s a = some s' → B s') {s t : σ} {as : List α} (hs : I s)
    (h : M.exec s as = some t) : (M.Meets C s as → I t) ∧ (¬ M.Meets C s as → B t) := by
  induction as generalizing s with
  | nil =>
    rw [exec_nil, Option.some.injEq] at h
    exact ⟨fun _ => h ▸ hs, fun hnot => absurd trivial hnot⟩
  | cons a as ih =>
    obtain ⟨s', hs', hrest⟩ := (M.exec_cons_eq_some).mp h
    by_cases hC : C s a
    · obtain ⟨hmeets, hnot⟩ := ih (hgood s a s' hs hC hs') hrest
      exact ⟨fun hall => hmeets (hall.2 s' hs'), fun hsome => hnot fun hall =>
        hsome (.cons M hC hs' hall)⟩
    · refine ⟨fun hall => absurd hall.1 hC, fun _ => ?_⟩
      exact M.exec_induct (C := fun _ _ => True) (fun u b u' hu _ => hB u b u' hu)
        (hbad s a s' hs hC hs') (M.meets_of_forall (fun _ _ => trivial) _ _) hrest

/-- **Runs to the end.** When in every state that is not at the end some event of `A` can be taken
and takes the machine nearer to it, a run of such events reaches the end. -/
theorem exists_exec_of_measure {P : σ → Prop} {A : α → Prop} (μ : σ → ℕ)
    (h : ∀ s, P s → μ s ≠ 0 → ∃ a s', A a ∧ M.step s a = some s' ∧ P s' ∧ μ s' < μ s) {s : σ}
    (hs : P s) : ∃ as t, (∀ a ∈ as, A a) ∧ M.exec s as = some t ∧ P t ∧ μ t = 0 := by
  induction hn : μ s using Nat.strongRecOn generalizing s with
  | _ n ih =>
    by_cases hzero : μ s = 0
    · exact ⟨[], s, by simp, rfl, hs, hzero⟩
    · obtain ⟨a, s', ha, hstep, hs', hlt⟩ := h s hs hzero
      obtain ⟨as, t, has, hexec, ht⟩ := ih (μ s') (hn ▸ hlt) hs' rfl
      exact ⟨a :: as, t, by simpa using ⟨ha, has⟩, M.exec_cons_eq_some.mpr ⟨s', hstep, hexec⟩, ht⟩

/-- Events of `A` that each take the machine nearer to its end come to an end. -/
theorem length_add_le_of_lt {A : α → Prop} {μ : σ → ℕ}
    (h : ∀ s a s', A a → M.step s a = some s' → μ s' < μ s) {s t : σ} {as : List α}
    (has : ∀ a ∈ as, A a) (hs : M.exec s as = some t) : as.length + μ t ≤ μ s := by
  induction as generalizing s with
  | nil =>
    rw [exec_nil, Option.some.injEq] at hs
    subst hs
    exact Nat.le_of_eq (Nat.zero_add (μ s))
  | cons a as ih =>
    obtain ⟨s', hs', hrest⟩ := (M.exec_cons_eq_some).mp hs
    have hlt := h s a s' (has a List.mem_cons_self) hs'
    have hle := ih (fun b hb => has b (List.mem_cons_of_mem a hb)) hrest
    rw [List.length_cons]
    omega

/-- The same within an invariant of the events of `A`. -/
theorem length_add_le_of_inv {A : α → Prop} {I : σ → Prop} {μ : σ → ℕ}
    (h : ∀ s a s', I s → A a → M.step s a = some s' → I s' ∧ μ s' < μ s) {s t : σ}
    {as : List α} (hs : I s) (has : ∀ a ∈ as, A a) (hexec : M.exec s as = some t) :
    as.length + μ t ≤ μ s := by
  induction as generalizing s with
  | nil =>
    rw [exec_nil, Option.some.injEq] at hexec
    subst hexec
    exact Nat.le_of_eq (Nat.zero_add (μ s))
  | cons a as ih =>
    obtain ⟨s', hs', hrest⟩ := (M.exec_cons_eq_some).mp hexec
    obtain ⟨hI, hlt⟩ := h s a s' hs (has a List.mem_cons_self) hs'
    have hle := ih hI (fun b hb => has b (List.mem_cons_of_mem a hb)) hrest
    rw [List.length_cons]
    omega

/-- Events of `A` that each take the machine nearer to its end are only so many, when no other event
takes it further away. -/
theorem countP_add_le {A : α → Bool} {I : σ → Prop} {μ : σ → ℕ}
    (hI : ∀ s a s', I s → M.step s a = some s' → I s')
    (hlt : ∀ s a s', I s → A a = true → M.step s a = some s' → μ s' < μ s)
    (hle : ∀ s a s', I s → A a = false → M.step s a = some s' → μ s' ≤ μ s) {s t : σ}
    {as : List α} (hs : I s) (hexec : M.exec s as = some t) : as.countP A + μ t ≤ μ s := by
  induction as generalizing s with
  | nil =>
    rw [exec_nil, Option.some.injEq] at hexec
    subst hexec
    exact Nat.le_of_eq (Nat.zero_add (μ s))
  | cons a as ih =>
    obtain ⟨s', hs', hrest⟩ := (M.exec_cons_eq_some).mp hexec
    have hih := ih (hI s a s' hs hs') hrest
    cases ha : A a with
    | true =>
      have hstep := hlt s a s' hs ha hs'
      rw [List.countP_cons_of_pos ha]
      omega
    | false =>
      have hstep := hle s a s' hs ha hs'
      rw [List.countP_cons_of_neg (by rw [ha]; exact Bool.false_ne_true)]
      omega

/-- No event of `A` can be taken. -/
def Quiescent (A : α → Prop) (s : σ) : Prop := ∀ a, A a → M.step s a = none

/-- **Runs to quiescence.** Events of `A` that each take the machine nearer to its end can be taken
until none is left. -/
theorem exists_exec_quiescent {A : α → Prop} {μ : σ → ℕ}
    (h : ∀ s a s', A a → M.step s a = some s' → μ s' < μ s) (s : σ) :
    ∃ as t, (∀ a ∈ as, A a) ∧ M.exec s as = some t ∧ M.Quiescent A t := by
  induction hn : μ s using Nat.strongRecOn generalizing s with
  | _ n ih =>
    by_cases hquiet : M.Quiescent A s
    · exact ⟨[], s, by simp, rfl, hquiet⟩
    · simp only [Quiescent, not_forall] at hquiet
      obtain ⟨a, ha, hsome⟩ := hquiet
      obtain ⟨s', hstep⟩ := Option.ne_none_iff_exists'.mp hsome
      obtain ⟨as, t, has, hexec, ht⟩ := ih (μ s') (hn ▸ h s a s' ha hstep) s' rfl
      exact ⟨a :: as, t, by simpa using ⟨ha, has⟩, M.exec_cons_eq_some.mpr ⟨s', hstep, hexec⟩, ht⟩

end Machine

import PtkGenerator.Model.DecodeLoop

/-!
# Pending events

The decode loop fetches the events of the decoder until none is pending, after the first
synchronisation and after each instruction.  After a synchronisation that follows an error it goes
on to the next instruction at once, so an event that is reported there is still pending when `next`
is called; `pending_drained_iff` says that this is the only way.
-/

set_option autoImplicit false

namespace PtkGenerator

/-- Whether an event is pending, after an answer. -/
def pendingAfter (pending : Bool) : DecoderAnswer → Bool
  | .syncForward (.ok st) => st.eventPending
  | .event (.ok st) => st.eventPending
  | .next (.ok (_, st)) => st.eventPending
  | .event (.error _) => false
  | .syncForward (.error _) => pending
  | .next (.error _) => pending

/-- An event is pending after the answers: the last status had the bit set, and no call of `event`
has failed since. -/
def eventPending (answers : List DecoderAnswer) : Bool := answers.foldl pendingAfter false

/-- One answer more decides by itself, or leaves what was pending. -/
theorem eventPending_append_singleton (answers : List DecoderAnswer) (a : DecoderAnswer) :
    eventPending (answers ++ [a]) = pendingAfter (eventPending answers) a := by
  rw [eventPending, List.foldl_append]
  rfl

section Runs

variable (M : Machine DecodeState DecoderAnswer) (answers : List DecoderAnswer)

/-- In the run with these answers no event is pending when `next` is called. -/
def DrainsBeforeNext : Prop :=
  ∀ before after s, answers = before ++ after → M.exec M.init before = some s →
    s.phase = .next → eventPending before = false

/-- Every synchronisation after an error that succeeds in the run reports no event. -/
def ResyncsClear : Prop :=
  ∀ before st after s, answers = before ++ .syncForward (.ok st) :: after →
    M.exec M.init before = some s → s.phase = .resync → st.eventPending = false

end Runs

/-- INTERNAL: **how the loop comes to `next`**: an answer to `event` that leaves none pending, or a
synchronisation after an error.
SRC: decode_proc/mod.rs:47-51, 67-71, 73-85 -/
theorem DecodeState.step_next_cases {s t : DecodeState} {a : DecoderAnswer} (h : s.step a = some t)
    (ht : t.phase = .next) : (∀ pending, pendingAfter pending a = false) ∨
      (s.phase = .resync ∧ ∃ st, a = .syncForward (.ok st)) := by
  cases step_cases h with
  | noEvent st _ hst => exact .inl fun _ => hst
  | eventFailed e _ => exact .inl fun _ => rfl
  | resynced st hs => exact .inr ⟨hs, st, rfl⟩
  | synced | notSynced | moreEvents | counted | lostSync | failed | notResynced => cases ht

/-- Events are drained before `next` exactly when no resync that succeeds reports one. -/
theorem drainsBeforeNext_iff (dataRst : PageMap) (answers : List DecoderAnswer) :
    DrainsBeforeNext (decodeLoop dataRst) answers ↔ ResyncsClear (decodeLoop dataRst) answers := by
  constructor
  · intro h before st after s hsplit hs hphase
    have hstep : (decodeLoop dataRst).step s (.syncForward (.ok st)) =
        some { s with phase := .next } := by
      simp only [decodeLoop, DecodeState.step, hphase]
    have hnext := h (before ++ [.syncForward (.ok st)]) after _
      (by rw [hsplit, List.append_assoc, List.singleton_append])
      ((Machine.exec_append _).mpr ⟨s, hs, (Machine.exec_cons_eq_some _).mpr ⟨_, hstep, rfl⟩⟩) rfl
    rwa [eventPending_append_singleton] at hnext
  · intro h before after t hsplit ht hphase
    rcases List.eq_nil_or_concat before with rfl | ⟨bs, a, rfl⟩
    · rfl
    · rw [List.concat_eq_append] at hsplit ht ⊢
      obtain ⟨s, hs, hlast⟩ := (Machine.exec_append _).mp ht
      obtain ⟨u, hstep, hu⟩ := (Machine.exec_cons_eq_some _).mp hlast
      obtain rfl := Option.some.inj hu
      rw [eventPending_append_singleton]
      rcases DecodeState.step_next_cases hstep hphase with hclear | ⟨hresync, st, rfl⟩
      · exact hclear _
      · rw [List.append_assoc, List.singleton_append] at hsplit
        exact h bs st after s hsplit hs hresync

/-- MAIN: **when no event is pending at a call of `next`.**  For every map and every sequence of
answers, and for `decode` as for `async_decode`: it is so in the whole run if and only if no
synchronisation after `Nosync` or `BadQuery` succeeds with an event pending.
SRC: decode_proc/mod.rs:47-91, 129-173 -/
theorem pending_drained_iff (dataRst : PageMap) (answers : List DecoderAnswer) :
    (DrainsBeforeNext (DecodeProc.decode dataRst) answers ↔
        ResyncsClear (DecodeProc.decode dataRst) answers) ∧
      (DrainsBeforeNext (DecodeProc.asyncDecode dataRst) answers ↔
        ResyncsClear (DecodeProc.asyncDecode dataRst) answers) :=
  ⟨drainsBeforeNext_iff dataRst answers, drainsBeforeNext_iff dataRst answers⟩

/-- MAIN: after the events are drained, an error of `next` and a synchronisation that reports an
event: `next` is called with the event pending.
SRC: decode_proc/mod.rs:74-79 -/
theorem resync_leaves_event :
    ¬ ∀ dataRst answers, DrainsBeforeNext (DecodeProc.decode dataRst) answers := by
  intro hall
  have h := hall ∅ [.syncForward (.ok ⟨false⟩), .event (.ok ⟨false⟩), .next (.error .nosync),
    .syncForward (.ok ⟨true⟩)] _ [] _ (List.append_nil _).symm rfl rfl
  exact absurd h (by decide)

end PtkGenerator

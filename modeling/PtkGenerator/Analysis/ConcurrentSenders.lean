import PtkGenerator.Analysis.SenderFrames

/-!
# Concurrent calls of `send_data`

An abort of a call between the entry of its frame into the queue and the reply leaves a frame whose
reply nobody receives (`Poisoned`).  The task with the framer panics when it comes to it, and any
call made after that returns an error without its frame being handed over.  Together with the
invariant of the runs without such an abort this is the exact frontier.
-/

set_option autoImplicit false

namespace PtkGenerator

variable {D : Type} {encode : D → Except Unit Bytes}

namespace CommunatorSender

/-! ## A reply that nobody receives -/

/-- A frame whose call was aborted is still to be replied to, or the task has panicked. -/
structure Poisoned (encode : D → Except Unit Bytes) (s : CommunatorSender D) : Prop where
  known : ∀ e ∈ s.handed ++ s.queue, e.2 < s.calls.length
  hit : s.framer = .panicked ∨
    ∃ e ∈ s.pending, ∃ c, s.calls[e.2]? = some c ∧ c.phase = .aborted
  frame : ∃ data frame, encode data = .ok frame

namespace Poisoned

variable {s s' : CommunatorSender D}

/-- A call that has not been aborted changes. -/
theorem setCall (h : Poisoned encode s) {i : ℕ} {c : SendCall D} (hi : s.calls[i]? = some c)
    (hc : c.phase ≠ .aborted) (c' : SendCall D) :
    Poisoned encode { s with calls := s.calls.set i c' } where
  known e he := by
    rw [List.length_set]
    exact h.known e he
  hit := by
    refine h.hit.imp_right fun ⟨e, he, d, hd, hphase⟩ => ⟨e, he, d, ?_, hphase⟩
    have hne : i ≠ e.2 := by
      rintro rfl
      obtain rfl := Option.some.inj (hi.symm.trans hd)
      exact hc hphase
    show (s.calls.set i c')[e.2]? = some d
    rw [List.getElem?_set_ne hne]
    exact hd
  frame := h.frame

/-- A further call keeps the sender poisoned. -/
theorem pushCall (h : Poisoned encode s) (c : SendCall D) :
    Poisoned encode { s with calls := s.calls ++ [c] } where
  known e he := by
    rw [List.length_append]
    exact Nat.lt_add_right _ (h.known e he)
  hit := by
    refine h.hit.imp_right fun ⟨e, he, d, hd, hphase⟩ => ⟨e, he, d, ?_, hphase⟩
    show (s.calls ++ [c])[e.2]? = some d
    rw [List.getElem?_append_left (List.getElem?_eq_some_iff.mp hd).1]
    exact hd
  frame := h.frame

/-- A frame on the queue keeps the sender poisoned. -/
theorem push (h : Poisoned encode s) {e : Bytes × ℕ} (he : e.2 < s.calls.length)
    (entered : List (Bytes × ℕ)) :
    Poisoned encode { s with queue := s.queue ++ [e], entered } where
  known e' he' := by
    rw [← List.append_assoc] at he'
    rcases List.mem_append.mp he' with hold | hnew
    · exact h.known e' hold
    · rw [List.mem_singleton.mp hnew]
      exact he
  hit := by
    refine h.hit.imp_right fun ⟨e', he', hc⟩ => ⟨e', ?_, hc⟩
    show e' ∈ s.framer.current ++ (s.queue ++ [e])
    rw [← List.append_assoc]
    exact List.mem_append_left _ he'
  frame := h.frame

/-- Without its framer the sender is poisoned still. -/
theorem gone (h : Poisoned encode s) :
    Poisoned encode { s with framer := .panicked, queue := [] } where
  known e he := by
    rw [List.append_nil] at he
    exact h.known e (List.mem_append_left _ he)
  hit := .inl rfl
  frame := h.frame

/-- The frame that the framer takes keeps the sender poisoned. -/
theorem take (h : Poisoned encode s) (hs : s.take = some s') : Poisoned encode s' := by
  obtain ⟨data, i, queue, hidle, hq, rfl⟩ := take_cases hs
  refine ⟨fun e he => h.known e ?_, ?_, h.frame⟩
  · rw [hq]
    rw [List.append_assoc, List.singleton_append] at he
    exact he
  · rcases h.hit with hpanicked | ⟨e, he, hc⟩
    · rw [hidle] at hpanicked
      cases hpanicked
    · refine .inr ⟨e, ?_, hc⟩
      rw [CommunatorSender.pending, hidle, hq] at he
      exact he

/-- A reply to another call keeps the sender poisoned, one to an aborted call ends the framer. -/
theorem reply (h : Poisoned encode s) {data : Bytes} {i : ℕ} (hsending : s.framer = .sending data i)
    (r : Except IoError Unit) : Poisoned encode (s.reply i r) := by
  unfold CommunatorSender.reply
  cases hi : s.calls[i]? with
  | none => exact h.gone
  | some c =>
    cases hphase : c.phase with
    | waiting frame =>
      simp only [hphase]
      have hne : c.phase ≠ .aborted := by
        rw [hphase]
        exact fun h => nomatch h
      have hset := h.setCall hi hne { c with reply := some r }
      simp only [hphase] at hset
      refine ⟨hset.known, ?_, h.frame⟩
      rcases hset.hit with hpanicked | ⟨e, he, d, hd, hdphase⟩
      · rw [show _ = s.framer from rfl, hsending] at hpanicked
        cases hpanicked
      · -- the frame that is replied to is not the one whose call was aborted
        refine .inr ⟨e, ?_, d, hd, hdphase⟩
        rcases List.mem_append.mp he with hcur | hq
        · have hcur' : e ∈ s.framer.current := hcur
          rw [hsending] at hcur'
          obtain rfl := List.mem_singleton.mp hcur'
          rw [List.getElem?_set_self (List.getElem?_eq_some_iff.mp hi).1] at hd
          rw [← Option.some.inj hd] at hdphase
          cases hdphase
        · exact hq
    | acquiring frame => simp only [hphase]; exact h.gone
    | returned r' => simp only [hphase]; exact h.gone
    | aborted => simp only [hphase]; exact h.gone

/-- A call that puts its frame on the queue keeps the sender poisoned. -/
theorem enqueue (h : Poisoned encode s) {i : ℕ} (hs : s.enqueue i = some s') :
    Poisoned encode s' := by
  obtain ⟨c, frame, hi, hc, hcases⟩ := enqueue_cases hs
  have hne : c.phase ≠ .aborted := by
    rw [hc]
    exact fun h => nomatch h
  rcases hcases with ⟨-, rfl⟩ | ⟨-, -, rfl⟩
  · exact h.setCall hi hne _
  · refine (h.setCall hi hne { c with phase := .waiting frame }).push ?_ _
    rw [List.length_set]
    exact (List.getElem?_eq_some_iff.mp hi).1

/-- A call that returns keeps the sender poisoned. -/
theorem await (h : Poisoned encode s) {i : ℕ} (hs : s.await i = some s') :
    Poisoned encode s' := by
  obtain ⟨c, frame, r, hi, hc, rfl, -⟩ := await_cases hs
  apply h.setCall hi
  rw [hc]
  exact fun h => nomatch h

/-- An abort keeps the sender poisoned. -/
theorem abort (h : Poisoned encode s) {i : ℕ} (hs : s.abort i = some s') :
    Poisoned encode s' := by
  obtain ⟨c, frame, hi, hc | hc, rfl⟩ := abort_cases hs
  · apply h.setCall hi
    rw [hc]
    exact fun h => nomatch h
  · apply h.setCall hi
    rw [hc]
    exact fun h => nomatch h

/-- INTERNAL: **the poison stays.** -/
theorem step (h : Poisoned encode s) {op : SenderOp D}
    (hs : (senderMachine encode).step s op = some s') : Poisoned encode s' := by
  cases op with
  | call data =>
    obtain rfl := Option.some.inj hs
    unfold CommunatorSender.call
    split
    · exact h.pushCall _
    · exact h.pushCall _
  | enqueue i => exact h.enqueue hs
  | await i => exact h.await hs
  | abort i => exact h.abort hs
  | take => exact h.take hs
  | send ok =>
    obtain ⟨data, i, hsending, rfl⟩ := send_cases hs
    have hreplied : ∀ written r, Poisoned encode ({ s with written }.reply i r) := by
      intro written r
      have hrec : Poisoned encode { s with written } := ⟨h.known, h.hit, h.frame⟩
      exact hrec.reply hsending r
    exact hreplied _ _

/-- The task comes to the frame and panics, without any further call or abort. -/
theorem exists_panic (h : Poisoned encode s) : ∃ ops t, (∀ op ∈ ops, op.isProgress = true) ∧
    (senderMachine encode).exec s ops = some t ∧ Poisoned encode t ∧ t.framer = .panicked := by
  let μ : CommunatorSender D → ℕ := fun t =>
    match t.framer with
    | .panicked => 0
    | .idle => 2 * t.queue.length
    | .sending _ _ => 2 * t.queue.length + 1
  have hnearer : ∀ t, Poisoned encode t → μ t ≠ 0 → ∃ op t', op.isProgress = true ∧
      (senderMachine encode).step t op = some t' ∧ Poisoned encode t' ∧ μ t' < μ t := by
    intro t ht hμ
    cases hf : t.framer with
    | panicked => simp [μ, hf] at hμ
    | idle =>
      cases hq : t.queue with
      | nil => simp [μ, hf, hq] at hμ
      | cons e queue =>
        have htake : t.take = some { t with
            queue, framer := .sending e.1 e.2, handed := t.handed ++ [e] } := by
          simp [CommunatorSender.take, hf, hq]
        refine ⟨.take, _, rfl, htake, ht.take htake, ?_⟩
        simp only [μ, hf, hq, List.length_cons]
        omega
    | sending data i =>
      have hsend : t.send false = some (t.reply i (.error ⟨"Send data failed"⟩)) := by
        simp [CommunatorSender.send, hf]
      refine ⟨.send false, _, rfl, hsend, ht.reply hf _, ?_⟩
      have hμt : μ t = 2 * t.queue.length + 1 := by simp only [μ, hf]
      rw [hμt]
      unfold CommunatorSender.reply
      cases hi : t.calls[i]? with
      | none => exact Nat.succ_pos _
      | some c =>
        cases hc : c.phase with
        | waiting frame => simp only [hc]; exact Nat.lt_succ_self _
        | acquiring frame => simp only [hc]; exact Nat.succ_pos _
        | returned r => simp only [hc]; exact Nat.succ_pos _
        | aborted => simp only [hc]; exact Nat.succ_pos _
  obtain ⟨ops, t, hops, hexec, ht, hzero⟩ :=
    (senderMachine encode).exists_exec_of_measure μ hnearer h
  refine ⟨ops, t, hops, hexec, ht, ?_⟩
  rcases ht.hit with hpanicked | ⟨e, he, -⟩
  · exact hpanicked
  · rw [CommunatorSender.pending] at he
    cases hf : t.framer with
    | panicked => rfl
    | idle =>
      simp only [μ, hf] at hzero
      have hempty : t.queue = [] := List.length_eq_zero_iff.mp (by omega)
      rw [hf, hempty] at he
      cases he
    | sending data i =>
      simp only [μ, hf] at hzero
      omega

/-- Another call returns an error, and its frame is not handed over. -/
theorem exists_disturbed (h : Poisoned encode s) : ∃ ops t,
    (∀ u, ∀ op ∈ ops, InTime u op) ∧ (senderMachine encode).exec s ops = some t ∧
      ¬ t.Undisturbed encode := by
  obtain ⟨ops, t, hops, hexec, ht, hpanicked⟩ := h.exists_panic
  obtain ⟨data, frame, hencode⟩ := ht.frame
  let c : SendCall D := ⟨data, .acquiring frame, none⟩
  let u : CommunatorSender D := { t with calls := t.calls ++ [c] }
  have hcall : (senderMachine encode).step t (.call data) = some u := by
    show some (t.call encode data) = some u
    simp only [CommunatorSender.call, hencode]
    rfl
  have hself : u.calls[t.calls.length]? = some c := List.getElem?_concat_length
  have henqueue : (senderMachine encode).step u (.enqueue t.calls.length) =
      some (u.setPhase t.calls.length c (.returned (.error ⟨"send error"⟩))) := by
    have hu : u.framer = .panicked := hpanicked
    show u.enqueue t.calls.length = _
    simp only [CommunatorSender.enqueue, hself, hu]
    rfl
  refine ⟨ops ++ [.call data, .enqueue t.calls.length], _, ?_, (Machine.exec_append _).mpr
    ⟨t, hexec, (Machine.exec_cons_eq_some _).mpr ⟨u, hcall,
      (Machine.exec_cons_eq_some _).mpr ⟨_, henqueue, rfl⟩⟩⟩, fun hund => ?_⟩
  · intro v op hop
    rcases List.mem_append.mp hop with hold | hnew
    · exact inTime_of_isProgress v (hops op hold)
    · rcases List.mem_pair.mp hnew with rfl | rfl
      · trivial
      · trivial
  · have hreturned : (u.setPhase t.calls.length c
        (.returned (.error ⟨"send error"⟩))).calls[t.calls.length]? =
          some { c with phase := .returned (.error ⟨"send error"⟩) } :=
      List.getElem?_set_self (List.getElem?_eq_some_iff.mp hself).1
    have hhanded := hund.handed _ _ _ _ hreturned rfl hencode
    have hmem : (frame, t.calls.length) ∈ t.handed := by
      apply List.mem_of_mem_filter (p := fun e => e.2 = t.calls.length)
      show _ ∈ t.handed.filter _
      rw [show t.handed.filter _ = _ from hhanded]
      exact List.mem_singleton_self _
    exact absurd (ht.known _ (List.mem_append_left _ hmem)) (lt_irrefl _)

end Poisoned

/-- An abort that is too late leaves the poison. -/
theorem SenderInv.poisoned {s s' : CommunatorSender D} (h : SenderInv encode s) {op : SenderOp D}
    (hlate : ¬ s.InTime op) (hs : (senderMachine encode).step s op = some s') :
    Poisoned encode s' := by
  cases op with
  | abort i =>
    simp only [InTime, not_forall] at hlate
    obtain ⟨c, frame, hi, hphase, hreply⟩ := hlate
    have hc := h.calls i c hi
    simp only [CallOk, hphase] at hc
    have hpend := hc.2.2.1 (by simpa using hreply)
    have hstep : s.abort i = some s' := hs
    simp only [CommunatorSender.abort, hi, hphase] at hstep
    rw [← Option.some.inj hstep]
    refine ⟨fun e he => ?_, .inr ⟨(frame, i), hpend, { c with phase := .aborted }, ?_, rfl⟩, c.data,
      frame, hc.1⟩
    · simp only [setPhase, List.length_set]
      apply h.known
      rw [h.order]
      exact he
    · exact List.getElem?_set_self (List.getElem?_eq_some_iff.mp hi).1
  | call data => exact absurd trivial hlate
  | enqueue i => exact absurd trivial hlate
  | await i => exact absurd trivial hlate
  | take => exact absurd trivial hlate
  | send ok => exact absurd trivial hlate

/-- MAIN: **when concurrent calls do not disturb each other.**  After a run of any number of calls,
with any frames failing and any calls aborted, every further run in which no abort is too late
leaves every call undisturbed, if and only if no abort was too late in the run so far.
SRC: communator.rs:28-71, client_agent.rs:83-87 -/
theorem senders_undisturbed_iff {ops : List (SenderOp D)} {s : CommunatorSender D}
    (h : (senderMachine encode).exec (senderMachine encode).init ops = some s) :
    (∀ more t, (senderMachine encode).Meets InTime s more →
      (senderMachine encode).exec s more = some t → t.Undisturbed encode) ↔
    (senderMachine encode).Meets InTime (senderMachine encode).init ops := by
  obtain ⟨hgood, hbad⟩ := (senderMachine encode).exec_dichotomy
    (fun _ _ _ hs hin hstep => SenderInv.step hs hin hstep)
    (fun _ _ _ hs hlate hstep => hs.poisoned hlate hstep)
    (fun _ _ _ hs hstep => Poisoned.step hs hstep) SenderInv.new h
  constructor
  · intro hall
    by_contra hnot
    obtain ⟨more, t, hmore, hexec, hdisturbed⟩ := (hbad hnot).exists_disturbed
    exact hdisturbed (hall more t (Machine.meets_of_forall_mem _ hmore s) hexec)
  · intro hmeets more t hmore hexec
    exact (Machine.exec_induct _ (fun _ _ _ hs hin hstep => SenderInv.step hs hin hstep)
      (hgood hmeets) hmore hexec).undisturbed

/-- One call is aborted when it has been replied to, and the frame of the other fails. -/
theorem senders_undisturbed_twoCalls : ∃ s,
    (senderMachine (D := Bytes) .ok).exec (senderMachine .ok).init
      [.call [1], .call [2], .enqueue 0, .enqueue 1, .take, .send true, .abort 0, .take,
        .send false, .await 1] = some s ∧ s.Undisturbed .ok := by
  obtain ⟨s, hs⟩ := Option.isSome_iff_exists.mp (show
    ((senderMachine (D := Bytes) .ok).exec (senderMachine .ok).init
      [.call [1], .call [2], .enqueue 0, .enqueue 1, .take, .send true, .abort 0, .take,
        .send false, .await 1]).isSome = true by decide)
  exact ⟨s, hs, (senders_undisturbed_iff hs).mpr (by decide) [] s trivial rfl⟩

/-- A call is aborted while its frame is in `framer.send`: the task panics, and the other call
returns an error without its frame being handed over. -/
theorem late_abort_disturbs : ∃ s,
    (senderMachine (D := Bytes) .ok).exec (senderMachine .ok).init
      [.call [1], .call [2], .enqueue 0, .take, .abort 0, .send true, .enqueue 1] = some s ∧
      s.calls.map SendCall.data = [[1], [2]] ∧
      s.handed = [([1], 0)] ∧ ¬ s.Undisturbed .ok := by
  refine ⟨_, rfl, rfl, rfl, fun h => ?_⟩
  have hhanded := h.handed 1 _ _ [2] rfl rfl rfl
  revert hhanded
  decide

end CommunatorSender

end PtkGenerator

import Mathlib.Data.List.Nodup
import PtkGenerator.Library.Families
import PtkGenerator.Model.Communator

/-!
# The frames of the calls of `send_data`

As long as no call is aborted between the entry of its frame into the queue and the reply to it,
the task with the framer finds a receiver for every reply: `SenderInv` says where the frame of each
call is, and with it every call that is not aborted has its frame handed over once, in the order of
the queue, and returns what became of it.
-/

set_option autoImplicit false

namespace PtkGenerator

variable {D : Type} {encode : D → Except Unit Bytes}

/-- The frame in `framer.send`. -/
def FramerPhase.current : FramerPhase → List (Bytes × ℕ)
  | .sending data i => [(data, i)]
  | _ => []

/-- The step goes on with a call that has begun. -/
def SenderOp.isProgress : SenderOp D → Bool
  | .enqueue _ | .await _ | .take | .send _ => true
  | .call _ | .abort _ => false

/-- The steps that are left to a call. -/
def SendPhase.remaining : SendPhase → ℕ
  | .acquiring _ => 4
  | .waiting _ => 1
  | .returned _ => 0
  | .aborted => 0

/-- The steps that are left to the framer. -/
def FramerPhase.remaining : FramerPhase → ℕ
  | .sending _ _ => 1
  | _ => 0

namespace CommunatorSender

/-- The frames that entered the queue and are not replied to. -/
def pending (s : CommunatorSender D) : List (Bytes × ℕ) := s.framer.current ++ s.queue

/-- The steps that are left to the calls. -/
def callsRemaining (calls : List (SendCall D)) : ℕ := (calls.map fun c => c.phase.remaining).sum

/-- The steps that are left to the calls and to the task. -/
def remaining (s : CommunatorSender D) : ℕ :=
  callsRemaining s.calls + (2 * s.queue.length + s.framer.remaining)

/-- Nothing goes on. -/
def Quiescent (encode : D → Except Unit Bytes) (s : CommunatorSender D) : Prop :=
  ∀ op : SenderOp D, op.isProgress = true → (senderMachine encode).step s op = none

/-- What the calls should find: the frames are handed over in the order of the queue; a call that
returned had its frame handed over once, and returned `Ok` when it was written; and the calls that
have begun go on for so many steps only, at the end of which each of them has returned or was
aborted. -/
structure Undisturbed (encode : D → Except Unit Bytes) (s : CommunatorSender D) : Prop where
  order : s.handed <+: s.entered
  handed : ∀ (i : ℕ) (c : SendCall D) r frame, s.calls[i]? = some c → c.phase = .returned r →
    encode c.data = .ok frame → s.handed.filter (fun e => e.2 = i) = [(frame, i)]
  outcome : ∀ (i : ℕ) (c : SendCall D) r frame, s.calls[i]? = some c → c.phase = .returned r →
    encode c.data = .ok frame → (r = .ok () ↔ (frame, i) ∈ s.written)
  notEncoded : ∀ (i : ℕ) (c : SendCall D) r e, s.calls[i]? = some c → c.phase = .returned r →
    encode c.data = .error e → r = .error ⟨"encode error"⟩
  complete : ∀ ops t, (∀ op ∈ ops, SenderOp.isProgress op = true) →
    (senderMachine encode).exec s ops = some t → ops.length ≤ s.remaining ∧
      (t.Quiescent encode → ∀ c ∈ t.calls, (∃ r, c.phase = .returned r) ∨ c.phase = .aborted)

/-- A call is not aborted between the entry of its frame into the queue and the reply. -/
def InTime (s : CommunatorSender D) : SenderOp D → Prop
  | .abort i => ∀ c frame, s.calls[i]? = some c → c.phase = .waiting frame → c.reply.isSome = true
  | _ => True

/-! ## Every call comes to its end -/

/-- One call changes its part of the steps. -/
theorem callsRemaining_set {calls : List (SendCall D)} {i : ℕ} {c : SendCall D}
    (hi : calls[i]? = some c) (c' : SendCall D) :
    callsRemaining (calls.set i c') + c.phase.remaining =
      callsRemaining calls + c'.phase.remaining :=
  Families.sum_map_set hi fun c => c.phase.remaining

/-- A reply leaves less. -/
theorem remaining_reply_lt {s : CommunatorSender D} {data : Bytes} {i : ℕ}
    (hsending : s.framer = .sending data i) (r : Except IoError Unit) :
    (s.reply i r).remaining < s.remaining := by
  have hs : s.remaining = callsRemaining s.calls + (2 * s.queue.length + 1) := by
    rw [remaining, hsending]
    rfl
  have hgone : ({ s with framer := .panicked, queue := [] } : CommunatorSender D).remaining <
      s.remaining := by
    show callsRemaining s.calls + (2 * 0 + 0) < _
    omega
  unfold reply
  cases hi : s.calls[i]? with
  | none => exact hgone
  | some c =>
    cases hphase : c.phase with
    | waiting frame =>
      have hset : callsRemaining (s.calls.set i { c with reply := some r }) + c.phase.remaining =
          callsRemaining s.calls + c.phase.remaining :=
        callsRemaining_set hi { c with reply := some r }
      simp only [hphase] at hset ⊢
      show callsRemaining (s.calls.set i _) + (2 * s.queue.length + 0) < _
      omega
    | acquiring frame => simp only [hphase]; exact hgone
    | returned r' => simp only [hphase]; exact hgone
    | aborted => simp only [hphase]; exact hgone

/-- INTERNAL: **no call waits for ever.**  Every step that goes on with a call leaves fewer of
them, so the calls that have begun come to their ends. -/
theorem remaining_lt {s s' : CommunatorSender D} {op : SenderOp D} (hop : op.isProgress = true)
    (hs : (senderMachine encode).step s op = some s') : s'.remaining < s.remaining := by
  -- a call goes on to a phase from where fewer steps are left
  have hphase : ∀ (i : ℕ) (c : SendCall D) (phase : SendPhase), s.calls[i]? = some c →
      phase.remaining < c.phase.remaining → (s.setPhase i c phase).remaining < s.remaining := by
    intro i c phase hi hlt
    have hset : callsRemaining (s.calls.set i { c with phase }) + c.phase.remaining =
        callsRemaining s.calls + phase.remaining := callsRemaining_set hi { c with phase }
    show callsRemaining (s.calls.set i _) + (2 * s.queue.length + s.framer.remaining) < s.remaining
    rw [remaining]
    omega
  cases op with
  | call data => cases hop
  | abort i => cases hop
  | enqueue i =>
    obtain ⟨c, frame, hi, hc, ⟨-, rfl⟩ | ⟨-, -, rfl⟩⟩ := enqueue_cases hs
    · exact hphase i c _ hi (by rw [hc]; exact Nat.succ_pos 3)
    · have hset : callsRemaining (s.calls.set i { c with phase := .waiting frame }) +
          c.phase.remaining = callsRemaining s.calls + 1 :=
        callsRemaining_set hi { c with phase := .waiting frame }
      have hfour : c.phase.remaining = 4 := by rw [hc]; rfl
      show callsRemaining (s.calls.set i _) +
        (2 * (s.queue ++ [(frame, i)]).length + s.framer.remaining) < s.remaining
      rw [remaining, List.length_append, List.length_singleton]
      omega
  | await i =>
    obtain ⟨c, frame, r, hi, hc, rfl, -⟩ := await_cases hs
    apply hphase i c _ hi
    rw [hc]
    exact Nat.zero_lt_one
  | take =>
    obtain ⟨data, i, queue, hidle, hq, rfl⟩ := take_cases hs
    show callsRemaining s.calls + (2 * queue.length + 1) < s.remaining
    rw [remaining, hq, hidle, List.length_cons]
    omega
  | send ok =>
    obtain ⟨data, i, hsending, rfl⟩ := send_cases hs
    have hlt : ∀ written r, ({ s with written }.reply i r).remaining < s.remaining :=
      fun written => remaining_reply_lt (s := { s with written }) hsending
    exact hlt _ _

/-- The tasks take no more steps than are left. -/
theorem length_le_remaining {s s' : CommunatorSender D} {ops : List (SenderOp D)}
    (hops : ∀ op ∈ ops, op.isProgress = true)
    (hs : (senderMachine encode).exec s ops = some s') : ops.length ≤ s.remaining := by
  have hle := (senderMachine encode).length_add_le_of_lt
    (fun _ _ _ hop hstep => remaining_lt hop hstep) hops hs
  omega

/-- Only an abort is ever out of time. -/
theorem inTime_of_isProgress (s : CommunatorSender D) {op : SenderOp D}
    (hop : op.isProgress = true) : s.InTime op := by
  cases op with
  | abort i => cases hop
  | call data => trivial
  | enqueue i => trivial
  | await i => trivial
  | take => trivial
  | send ok => trivial

/-! ## Where the frame of each call is -/

/-- Where the frame of a call is, by the phase of the call. -/
def CallOk (encode : D → Except Unit Bytes) (s : CommunatorSender D) (i : ℕ) (c : SendCall D) :
    Prop :=
  match c.phase with
  | .acquiring frame => encode c.data = .ok frame ∧ c.reply = none ∧ ∀ e ∈ s.entered, e.2 ≠ i
  | .waiting frame => encode c.data = .ok frame ∧ (frame, i) ∈ s.entered ∧
      (c.reply = none → (frame, i) ∈ s.pending) ∧
      ∀ r, c.reply = some r → (frame, i) ∉ s.pending ∧ (r = .ok () ↔ (frame, i) ∈ s.written)
  | .returned r => (∃ e, encode c.data = .error e ∧ r = .error ⟨"encode error"⟩) ∨
      ∃ frame, encode c.data = .ok frame ∧ (frame, i) ∈ s.entered ∧ (frame, i) ∉ s.pending ∧
        (r = .ok () ↔ (frame, i) ∈ s.written)
  | .aborted => ∀ e ∈ s.pending, e.2 ≠ i

/-- The frames of the calls and the task, as long as no call was aborted too late. -/
structure SenderInv (encode : D → Except Unit Bytes) (s : CommunatorSender D) : Prop where
  alive : s.framer ≠ .panicked
  order : s.entered = s.handed ++ s.queue
  nodup : (s.entered.map Prod.snd).Nodup
  known : ∀ e ∈ s.entered, e.2 < s.calls.length
  current : ∀ e ∈ s.framer.current, e ∈ s.handed
  written : ∀ e ∈ s.written, e ∈ s.handed ∧ e ∉ s.pending
  calls : ∀ i c, s.calls[i]? = some c → CallOk encode s i c
  pending : ∀ e ∈ s.pending, ∃ c, s.calls[e.2]? = some c ∧ c.phase = .waiting e.1 ∧ c.reply = none

/-- Whether a step is in time is decided by the phase of its call. -/
instance (s : CommunatorSender D) (op : SenderOp D) : Decidable (s.InTime op) :=
  match op with
  | .abort i =>
    match hi : s.calls[i]? with
    | none => .isTrue fun _ _ hc => nomatch hi.symm.trans hc
    | some c =>
      match hphase : c.phase with
      | .waiting _ =>
        decidable_of_iff (c.reply.isSome = true)
          ⟨fun h d _ hd _ => Option.some.inj (hi.symm.trans hd) ▸ h, fun h => h c _ hi hphase⟩
      | .acquiring _ | .returned _ | .aborted =>
        .isTrue fun d _ hd hw => by
          rw [← Option.some.inj (hi.symm.trans hd), hphase] at hw
          cases hw
  | .call _ => .isTrue trivial
  | .enqueue _ => .isTrue trivial
  | .await _ => .isTrue trivial
  | .take => .isTrue trivial
  | .send _ => .isTrue trivial

/-- The entries of a call are the same. -/
def SameAt (s s' : CommunatorSender D) (i : ℕ) : Prop :=
  ∀ e : Bytes × ℕ, e.2 = i → ((e ∈ s'.entered ↔ e ∈ s.entered) ∧
    (e ∈ s'.pending ↔ e ∈ s.pending) ∧ (e ∈ s'.written ↔ e ∈ s.written))

/-- A call stays all right where nothing that it needs changes. -/
theorem CallOk.congr {s s' : CommunatorSender D} {i : ℕ} {c : SendCall D} (h : CallOk encode s i c)
    (hsame : s.SameAt s' i) : CallOk encode s' i c := by
  unfold CallOk at h ⊢
  split at h
  · refine ⟨h.1, h.2.1, fun e he hi => ?_⟩
    exact h.2.2 e ((hsame e hi).1.mp he) hi
  · next frame _ =>
    obtain ⟨hent, hpend, hwrit⟩ := hsame (frame, i) rfl
    rw [hent, hpend, hwrit]
    exact h
  · rcases h with herr | ⟨frame, h⟩
    · exact .inl herr
    · refine .inr ⟨frame, ?_⟩
      obtain ⟨hent, hpend, hwrit⟩ := hsame (frame, i) rfl
      rw [hent, hpend, hwrit]
      exact h
  · exact fun e he hi => h e ((hsame e hi).2.1.mp he) hi

namespace SenderInv

variable {s s' : CommunatorSender D}

/-- A frame that is pending entered the queue. -/
theorem pending_entered (h : SenderInv encode s) {e : Bytes × ℕ} (he : e ∈ s.pending) :
    e ∈ s.entered := by
  rw [h.order]
  rcases List.mem_append.mp he with hcur | hq
  · exact List.mem_append_left _ (h.current e hcur)
  · exact List.mem_append_right _ hq

/-- Each call has one frame in the queue. -/
theorem eq_of_entered (h : SenderInv encode s) {e e' : Bytes × ℕ} (he : e ∈ s.entered)
    (he' : e' ∈ s.entered) (hi : e.2 = e'.2) : e = e' :=
  List.inj_on_of_nodup_map h.nodup he he' hi

/-- A new sender has no call and no frame. -/
theorem new : SenderInv encode (CommunatorSender.new : CommunatorSender D) where
  alive h := nomatch h
  order := rfl
  nodup := List.nodup_nil
  known _ he := absurd he List.not_mem_nil
  current _ he := absurd he List.not_mem_nil
  written _ he := absurd he List.not_mem_nil
  calls _ _ hc := nomatch hc
  pending _ he := absurd he List.not_mem_nil

/-- The call changes, and the queue, the task and the records stay. -/
theorem setCall (h : SenderInv encode s) {i : ℕ} {c' : SendCall D}
    (hpend : ∀ e ∈ s.pending, e.2 ≠ i) (hc' : CallOk encode s i c') :
    SenderInv encode { s with calls := s.calls.set i c' } where
  alive := h.alive
  order := h.order
  nodup := h.nodup
  known e he := by
    rw [List.length_set]
    exact h.known e he
  current := h.current
  written := h.written
  calls := Families.forall_set hc' fun j d _ hd => h.calls j d hd
  pending e he := by
    obtain ⟨d, hd, hphase, hreply⟩ := h.pending e he
    refine ⟨d, ?_, hphase, hreply⟩
    rw [List.getElem?_set_ne (hpend e he).symm]
    exact hd

/-- A new call is all right with its frame. -/
theorem pushCall (h : SenderInv encode s) {c : SendCall D}
    (hc : CallOk encode s s.calls.length c) :
    SenderInv encode { s with calls := s.calls ++ [c] } where
  alive := h.alive
  order := h.order
  nodup := h.nodup
  known e he := by
    rw [List.length_append]
    exact Nat.lt_add_right _ (h.known e he)
  current := h.current
  written := h.written
  calls j d hd := by
    rcases Nat.lt_or_ge j s.calls.length with hj | hj
    · rw [List.getElem?_append_left hj] at hd
      exact h.calls j d hd
    · rw [List.getElem?_append_right hj, List.getElem?_singleton] at hd
      split at hd
      · obtain rfl : j = s.calls.length := by omega
        obtain rfl := Option.some.inj hd
        exact hc
      · cases hd
  pending e he := by
    obtain ⟨d, hd, hphase, hreply⟩ := h.pending e he
    refine ⟨d, ?_, hphase, hreply⟩
    rw [List.getElem?_append_left (List.getElem?_eq_some_iff.mp hd).1]
    exact hd

/-- A call keeps the frames in order. -/
theorem call (h : SenderInv encode s) (data : D) : SenderInv encode (s.call encode data) := by
  unfold CommunatorSender.call
  split
  · next frame hencode =>
    exact h.pushCall ⟨hencode, rfl, fun e he => (h.known e he).ne⟩
  · next e hencode => exact h.pushCall (.inl ⟨e, hencode, rfl⟩)

/-- The frame of a call enters the queue. -/
theorem pushFrame (h : SenderInv encode s) {i : ℕ} {c : SendCall D} {frame : Bytes}
    (hi : s.calls[i]? = some c) (hphase : c.phase = .acquiring frame) :
    SenderInv encode { s.setPhase i c (.waiting frame) with
      queue := s.queue ++ [(frame, i)], entered := s.entered ++ [(frame, i)] } := by
  have hc := h.calls i c hi
  simp only [CallOk, hphase] at hc
  obtain ⟨hencode, hreply, hnew⟩ := hc
  have hlt := (List.getElem?_eq_some_iff.mp hi).1
  have hpend : ∀ e : Bytes × ℕ, e ∈ s.framer.current ++ (s.queue ++ [(frame, i)]) ↔
      e ∈ s.pending ∨ e = (frame, i) := by
    intro e
    rw [← List.append_assoc, List.mem_append, List.mem_singleton]
    rfl
  constructor
  · exact h.alive
  · show s.entered ++ [(frame, i)] = s.handed ++ (s.queue ++ [(frame, i)])
    rw [h.order, List.append_assoc]
  · show ((s.entered ++ [(frame, i)]).map Prod.snd).Nodup
    rw [List.map_append, List.map_singleton, ← List.concat_eq_append, List.nodup_concat]
    refine ⟨fun hmem => ?_, h.nodup⟩
    obtain ⟨e, he, hei⟩ := List.mem_map.mp hmem
    exact hnew e he hei
  · intro e he
    simp only [setPhase, List.length_set]
    rcases List.mem_append.mp he with hold | hlast
    · exact h.known e hold
    · rw [List.mem_singleton.mp hlast]
      exact hlt
  · exact h.current
  · intro e he
    refine ⟨(h.written e he).1, fun hpe => ?_⟩
    rcases (hpend e).mp hpe with hold | rfl
    · exact (h.written e he).2 hold
    · have hent : (frame, i) ∈ s.entered := by
        rw [h.order]
        exact List.mem_append_left _ (h.written _ he).1
      exact hnew _ hent rfl
  · refine Families.forall_set ?_ fun j d hij hd => ?_
    · refine ⟨hencode, List.mem_append_right _ (List.mem_singleton_self _), fun _ => ?_,
        fun r hr => ?_⟩
      · exact (hpend _).mpr (.inr rfl)
      · rw [hreply] at hr
        cases hr
    · refine (h.calls j d hd).congr fun e he => ⟨?_, ?_, Iff.rfl⟩
      · show e ∈ s.entered ++ [(frame, i)] ↔ _
        rw [List.mem_append, List.mem_singleton]
        exact or_iff_left fun heq => hij ((congrArg Prod.snd heq).symm.trans he)
      · exact (hpend e).trans
          (or_iff_left fun heq => hij ((congrArg Prod.snd heq).symm.trans he))
  · intro e he
    rcases (hpend e).mp he with hold | rfl
    · obtain ⟨d, hd, hdphase, hdreply⟩ := h.pending e hold
      have hne : i ≠ e.2 := by
        rintro rfl
        exact hnew e (h.pending_entered hold) rfl
      refine ⟨d, ?_, hdphase, hdreply⟩
      simp only [setPhase]
      rw [List.getElem?_set_ne hne]
      exact hd
    · refine ⟨{ c with phase := .waiting frame }, ?_, rfl, hreply⟩
      exact List.getElem?_set_self hlt

/-- Putting a frame on the queue keeps the frames in order. -/
theorem enqueue (h : SenderInv encode s) {i : ℕ} (hs : s.enqueue i = some s') :
    SenderInv encode s' := by
  obtain ⟨c, frame, hi, hphase, ⟨hpanicked, -⟩ | ⟨-, -, rfl⟩⟩ := enqueue_cases hs
  · exact absurd hpanicked h.alive
  · exact h.pushFrame hi hphase

/-- A frame that was replied to is not pending. -/
theorem notPending (h : SenderInv encode s) {i : ℕ} {c : SendCall D} {frame : Bytes}
    {r : Except IoError Unit} (hi : s.calls[i]? = some c) (hphase : c.phase = .waiting frame)
    (hr : c.reply = some r) : ∀ e ∈ s.pending, e.2 ≠ i := by
  have hc := h.calls i c hi
  simp only [CallOk, hphase] at hc
  intro e he hei
  exact (hc.2.2.2 r hr).1 (h.eq_of_entered (h.pending_entered he) hc.2.1 hei ▸ he)

/-- The return of a call keeps the frames in order. -/
theorem await (h : SenderInv encode s) {i : ℕ} (hs : s.await i = some s') :
    SenderInv encode s' := by
  obtain ⟨c, frame, r', hi, hphase, rfl, hcases⟩ := await_cases hs
  have hc := h.calls i c hi
  simp only [CallOk, hphase] at hc
  obtain ⟨hencode, hent, -, hreplied⟩ := hc
  have hback : ∀ r, c.reply = some r → (r' = .ok () ↔ r = .ok ()) →
      SenderInv encode (s.setPhase i c (.returned r')) := by
    intro r hr hrr'
    obtain ⟨hpend, hwrit⟩ := hreplied r hr
    exact h.setCall (h.notPending hi hphase hr)
      (.inr ⟨frame, hencode, hent, hpend, hrr'.trans hwrit⟩)
  rcases hcases with ⟨hr, rfl⟩ | ⟨e, hr, rfl⟩ | ⟨-, hpanicked, -⟩
  · exact hback _ hr Iff.rfl
  · exact hback _ hr ⟨(fun h => nomatch h), (fun h => nomatch h)⟩
  · exact absurd hpanicked h.alive

/-- An abort in time keeps the frames in order. -/
theorem abort (h : SenderInv encode s) {i : ℕ} (hin : s.InTime (.abort i))
    (hs : s.abort i = some s') : SenderInv encode s' := by
  obtain ⟨c, frame, hi, hphase | hphase, rfl⟩ := abort_cases hs
  · have hc := h.calls i c hi
    simp only [CallOk, hphase] at hc
    have hpend : ∀ e ∈ s.pending, e.2 ≠ i := fun e he => hc.2.2 e (h.pending_entered he)
    exact h.setCall hpend hpend
  · obtain ⟨r, hr⟩ := Option.isSome_iff_exists.mp (hin c frame hi hphase)
    have hpend := h.notPending hi hphase hr
    exact h.setCall hpend hpend

/-- The framer that takes a frame keeps the frames in order. -/
theorem take (h : SenderInv encode s) (hs : s.take = some s') : SenderInv encode s' := by
  obtain ⟨data, i, queue, hidle, hq, rfl⟩ := take_cases hs
  -- the frame is pending as before, at the front
  have hpend : s.pending = (data, i) :: queue := by
    rw [CommunatorSender.pending, hidle, hq]
    rfl
  constructor
  · exact fun h => nomatch h
  · show s.entered = s.handed ++ [(data, i)] ++ queue
    rw [h.order, hq, List.append_assoc, List.singleton_append]
  · exact h.nodup
  · exact h.known
  · intro e he
    rw [List.mem_singleton.mp he]
    exact List.mem_append_right _ (List.mem_singleton_self _)
  · intro e he
    refine ⟨List.mem_append_left _ (h.written e he).1, fun hpe => (h.written e he).2 ?_⟩
    rw [hpend]
    exact hpe
  · intro j d hd
    refine (h.calls j d hd).congr fun e _ => ⟨Iff.rfl, ?_, Iff.rfl⟩
    rw [hpend]
    rfl
  · intro e he
    apply h.pending e
    rw [hpend]
    exact he

/-- The call whose frame is in `framer.send` awaits the reply, and gets it. -/
theorem replied (h : SenderInv encode s) {data : Bytes} {i : ℕ}
    (hsending : s.framer = .sending data i) {c : SendCall D} (hi : s.calls[i]? = some c)
    (hphase : c.phase = .waiting data) (r : Except IoError Unit) (written : List (Bytes × ℕ))
    (hwritten : ∀ e, e ∈ written ↔ e ∈ s.written ∨ (r = .ok () ∧ e = (data, i))) :
    SenderInv encode { s with
      calls := s.calls.set i { c with reply := some r }, framer := .idle, written } := by
  have hpend : s.pending = (data, i) :: s.queue := by
    rw [CommunatorSender.pending, hsending]
    rfl
  have hmem : (data, i) ∈ s.pending := hpend ▸ List.mem_cons_self
  have hent := h.pending_entered hmem
  have hcurrent : (data, i) ∈ s.framer.current := by
    rw [hsending]
    exact List.mem_singleton_self _
  have hhanded : (data, i) ∈ s.handed := h.current _ hcurrent
  -- the frame is in the queue no more
  have hqueue : ∀ e ∈ s.queue, e.2 ≠ i := by
    intro e he hei
    have hnodup := h.nodup
    rw [h.order, List.map_append, List.nodup_append] at hnodup
    exact hnodup.2.2 i (List.mem_map_of_mem (f := Prod.snd) hhanded) i
      (hei ▸ List.mem_map_of_mem (f := Prod.snd) he) rfl
  constructor
  · exact fun h => nomatch h
  · exact h.order
  · exact h.nodup
  · intro e he
    rw [List.length_set]
    exact h.known e he
  · exact fun e he => absurd he List.not_mem_nil
  · intro e he
    rcases (hwritten e).mp he with hold | ⟨-, rfl⟩
    · refine ⟨(h.written e hold).1, fun hq => (h.written e hold).2 ?_⟩
      rw [hpend]
      exact List.mem_cons_of_mem _ hq
    · exact ⟨hhanded, fun hq => hqueue _ hq rfl⟩
  · refine Families.forall_set ?_ fun j d hij hd => ?_
    · have hc := h.calls i c hi
      simp only [CallOk, hphase] at hc ⊢
      refine ⟨hc.1, hent, (fun hr => nomatch hr), fun r' hr' => ?_⟩
      obtain rfl := Option.some.inj hr'
      refine ⟨fun hq => hqueue _ hq rfl, ?_⟩
      rw [hwritten]
      exact ⟨fun hr => .inr ⟨hr, rfl⟩, fun hw => hw.elim (fun hold =>
        absurd hmem (h.written _ hold).2) And.left⟩
    · refine (h.calls j d hd).congr fun e he => ⟨Iff.rfl, ?_, ?_⟩
      · rw [hpend, List.mem_cons]
        exact (or_iff_right fun heq => hij ((congrArg Prod.snd heq).symm.trans he)).symm
      · exact (hwritten e).trans
          (or_iff_left fun heq => hij ((congrArg Prod.snd heq.2).symm.trans he))
  · intro e he
    have hpe : e ∈ s.pending := hpend ▸ List.mem_cons_of_mem _ he
    obtain ⟨d, hd, hdphase, hdreply⟩ := h.pending e hpe
    refine ⟨d, ?_, hdphase, hdreply⟩
    rw [List.getElem?_set_ne (hqueue e he).symm]
    exact hd

/-- The frame in `framer.send` is that of a call that awaits the reply. -/
theorem sending (h : SenderInv encode s) {data : Bytes} {i : ℕ}
    (hsending : s.framer = .sending data i) :
    ∃ c, s.calls[i]? = some c ∧ c.phase = .waiting data ∧ encode c.data = .ok data ∧
      (data, i) ∉ s.written := by
  have hmem : (data, i) ∈ s.pending := by
    rw [CommunatorSender.pending, hsending]
    exact List.mem_cons_self
  obtain ⟨c, hi, hphase, -⟩ := h.pending _ hmem
  simp only at hi hphase
  have hc := h.calls i c hi
  simp only [CallOk, hphase] at hc
  exact ⟨c, hi, hphase, hc.1, fun hw => (h.written _ hw).2 hmem⟩

/-- A send keeps the frames in order. -/
theorem send (h : SenderInv encode s) {ok : Bool} (hs : s.send ok = some s') :
    SenderInv encode s' := by
  obtain ⟨data, i, hsending, -⟩ := send_cases hs
  obtain ⟨c, hi, hphase, -⟩ := h.sending hsending
  obtain rfl := send_waiting hs hsending hi hphase
  apply h.replied hsending hi hphase
  intro e
  cases ok <;> simp

/-- INTERNAL: **one step** keeps the frames where they belong, unless it aborts a call too late.
SRC: communator.rs:28-71 -/
theorem step (h : SenderInv encode s) {op : SenderOp D} (hin : s.InTime op)
    (hs : (senderMachine encode).step s op = some s') : SenderInv encode s' := by
  cases op with
  | call data =>
    obtain rfl := Option.some.inj hs
    exact h.call data
  | enqueue i => exact h.enqueue hs
  | await i => exact h.await hs
  | abort i => exact h.abort hin hs
  | take => exact h.take hs
  | send ok => exact h.send hs

/-- A frame that is not pending was handed to the framer, once. -/
theorem filter_handed (h : SenderInv encode s) {e : Bytes × ℕ} (hent : e ∈ s.entered)
    (hpend : e ∉ s.pending) : s.handed.filter (fun e' => e'.2 = e.2) = [e] := by
  have hnodup : s.handed.Nodup := by
    have hall := h.nodup.of_map
    rw [h.order] at hall
    exact (List.nodup_append.mp hall).1
  have hmem : e ∈ s.handed := by
    rw [h.order] at hent
    rcases List.mem_append.mp hent with hhanded | hq
    · exact hhanded
    · exact absurd (List.mem_append_right _ hq) hpend
  obtain ⟨pre, post, hsplit⟩ := List.append_of_mem hmem
  have hother : ∀ e' ∈ pre ++ post, e'.2 ≠ e.2 := by
    intro e' he' hi
    have hhanded : e' ∈ s.handed := by
      rw [hsplit, List.mem_append, List.mem_cons]
      rcases List.mem_append.mp he' with hpre | hpost
      · exact .inl hpre
      · exact .inr (.inr hpost)
    have heq : e' = e := by
      apply h.eq_of_entered _ hent hi
      rw [h.order]
      exact List.mem_append_left _ hhanded
    subst heq
    rw [hsplit] at hnodup
    exact (List.nodup_middle.mp hnodup).notMem he'
  have hnone : ∀ l : List (Bytes × ℕ), (∀ e' ∈ l, e'.2 ≠ e.2) →
      l.filter (fun e' => e'.2 = e.2) = [] := fun l hl =>
    List.filter_eq_nil_iff.mpr fun e' he' => by simpa using hl e' he'
  rw [hsplit, List.filter_append, List.filter_cons_of_pos (by simp),
    hnone pre fun e' he' => hother e' (List.mem_append_left _ he'),
    hnone post fun e' he' => hother e' (List.mem_append_right _ he'), List.nil_append]

/-- Without a step left every call has returned or was aborted. -/
theorem done_of_quiescent (h : SenderInv encode s) (hquiet : s.Quiescent encode) :
    ∀ c ∈ s.calls, (∃ r, c.phase = .returned r) ∨ c.phase = .aborted := by
  intro c hmem
  obtain ⟨i, hi⟩ := List.mem_iff_getElem?.mp hmem
  -- the task is idle and its queue empty
  have hidle : s.framer = .idle := by
    cases hf : s.framer with
    | idle => rfl
    | sending data j =>
      have hsend : s.send true = none := hquiet (.send true) rfl
      simp [CommunatorSender.send, hf] at hsend
    | panicked => exact absurd hf h.alive
  have hempty : s.queue = [] := by
    cases hq : s.queue with
    | nil => rfl
    | cons e queue =>
      have htake : s.take = none := hquiet .take rfl
      simp [CommunatorSender.take, hidle, hq] at htake
  have hc := h.calls i c hi
  cases hphase : c.phase with
  | acquiring frame =>
    have henqueue : s.enqueue i = none := hquiet (.enqueue i) rfl
    simp [CommunatorSender.enqueue, hi, hphase, hidle, hempty] at henqueue
  | waiting frame =>
    simp only [CallOk, hphase] at hc
    cases hreply : c.reply with
    | none =>
      have hpend := hc.2.2.1 hreply
      rw [CommunatorSender.pending, hidle, hempty] at hpend
      cases hpend
    | some r =>
      have hawait : s.await i = none := hquiet (.await i) rfl
      cases r with
      | ok _ => simp [CommunatorSender.await, hi, hphase, hreply] at hawait
      | error _ => simp [CommunatorSender.await, hi, hphase, hreply] at hawait
  | returned r => exact .inl ⟨r, rfl⟩
  | aborted => exact .inr rfl

/-- A run of the tasks keeps the frames in order. -/
theorem exec_progress (h : SenderInv encode s) {ops : List (SenderOp D)}
    (hops : ∀ op ∈ ops, op.isProgress = true)
    (hs : (senderMachine encode).exec s ops = some s') : SenderInv encode s' := by
  refine Machine.exec_induct _ (fun _ _ _ hs hin hstep => SenderInv.step hs hin hstep) h
    (Machine.meets_of_forall_mem _ (fun u op hop => ?_) s) hs
  exact inTime_of_isProgress u (hops op hop)

/-- An undisturbed sender has each call all right. -/
theorem undisturbed (h : SenderInv encode s) : s.Undisturbed encode where
  order := by
    rw [h.order]
    exact List.prefix_append _ _
  handed i c r frame hi hphase hencode := by
    have hc := h.calls i c hi
    simp only [CallOk, hphase] at hc
    rcases hc with ⟨e, herr, -⟩ | ⟨frame', hok, hent, hpend, -⟩
    · rw [hencode] at herr
      cases herr
    · obtain rfl := Except.ok.inj (hencode.symm.trans hok)
      exact h.filter_handed hent hpend
  outcome i c r frame hi hphase hencode := by
    have hc := h.calls i c hi
    simp only [CallOk, hphase] at hc
    rcases hc with ⟨e, herr, -⟩ | ⟨frame', hok, -, -, hwrit⟩
    · rw [hencode] at herr
      cases herr
    · obtain rfl := Except.ok.inj (hencode.symm.trans hok)
      exact hwrit
  notEncoded i c r e hi hphase hencode := by
    have hc := h.calls i c hi
    simp only [CallOk, hphase] at hc
    rcases hc with ⟨e', -, hr⟩ | ⟨frame', hok, -⟩
    · exact hr
    · rw [hencode] at hok
      cases hok
  complete ops t hops hexec :=
    ⟨length_le_remaining hops hexec, (h.exec_progress hops hexec).done_of_quiescent⟩

end SenderInv

end CommunatorSender

end PtkGenerator

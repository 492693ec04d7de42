import PtkGenerator.Analysis.AcceptLimit

/-!
# Where `decode` places a chunk

`decode` publishes a chunk to the client in the slot that it has selected.  When there is no client
in it, the chunk is dropped, and when the send task of the client has ended, `publish_task` panics.
In every other case the chunk is put on the queue of that client, and on no other.

`KeepsReceivers` says of the pool, and of what goes on in it during a call, that this does not
happen: the first client with room when `decode` is called, or the first slot when there is none,
has its send task, and the clients that the loop may still come to keep theirs.  What the loop
selects then follows from where it is (`CallOk`).
-/

set_option autoImplicit false

namespace PtkGenerator

/-- The chunk that a call of `decode` is about. -/
def DecodeCall.chunk : DecodeCall → Option Bytes
  | .testing data _ | .found data _ | .exhausted data => some data
  | .idle | .panicked => none

/-- The slot that a call of `decode` has selected. -/
def DecodeCall.selected : DecodeCall → Option ℕ
  | .found _ idx => some idx
  | .exhausted _ => some 0
  | .idle | .testing _ _ | .panicked => none

namespace PoolTasks

variable {s s' : PoolTasks}

/-- There is an agent in the slot, and its send task has not ended. -/
def Running (s : PoolTasks) (idx : ℕ) : Prop :=
  (s.pool.agent idx).isSome = true ∧ (s.sides[idx]?.any fun q => q.sendTask ≠ .ended) = true

/-- Whether an agent runs its send task is decided by looking at its slot. -/
instance (s : PoolTasks) (idx : ℕ) : Decidable (s.Running idx) :=
  inferInstanceAs (Decidable (_ ∧ _))

/-- A slot with a running send task has an agent and a connection. -/
theorem running_iff {idx : ℕ} : s.Running idx ↔
    ∃ a q, s.pool.agent idx = some a ∧ s.sides[idx]? = some q ∧ q.sendTask ≠ .ended := by
  rw [Running, Option.isSome_iff_exists, Option.any_eq_true]
  constructor
  · rintro ⟨⟨a, ha⟩, q, hq, hrunning⟩
    exact ⟨a, q, ha, hq, of_decide_eq_true hrunning⟩
  · rintro ⟨a, q, ha, hq, hrunning⟩
    exact ⟨⟨a, ha⟩, q, hq, decide_eq_true hrunning⟩

/-- The client in the slot is registered and has room in its queue. -/
def free (s : PoolTasks) (idx : ℕ) : Bool :=
  match s.pool.agent idx, s.sides[idx]? with
  | some a, some q => !isFull a.state q.rxProcData
  | _, _ => false

/-- The first slot with such a client. -/
def firstFree (s : PoolTasks) : Option ℕ := (List.range s.pool.clients.length).find? s.free

/-- When `decode` is called, the first client with room runs its send task, or the client in the
first slot does when none has room.  During a call no send task of the first client or of one with
room ends, and only clients register that run their send task. -/
def KeepsReceivers (s : PoolTasks) : PoolTaskOp → Prop
  | .decode (.begin _) => s.Running (s.firstFree.getD 0)
  | .sendDone idx false => s.decode.chunk.isSome = true → idx ≠ 0 ∧ s.free idx = false
  | .dropSend idx => s.decode.chunk.isSome = true → idx ≠ 0 ∧ s.free idx = false
  | .pool (.regReq idx) => s.decode.chunk.isSome = true → s.Running idx
  | _ => True

/-- Whether an operation keeps the receivers is decided by reading the state. -/
instance (s : PoolTasks) (op : PoolTaskOp) : Decidable (s.KeepsReceivers op) :=
  match op with
  | .decode (.begin _) => inferInstanceAs (Decidable (s.Running (s.firstFree.getD 0)))
  | .decode .test => .isTrue trivial
  | .decode .publish => .isTrue trivial
  | .sendDone idx false =>
    inferInstanceAs (Decidable (s.decode.chunk.isSome = true → idx ≠ 0 ∧ s.free idx = false))
  | .sendDone _ true => .isTrue trivial
  | .dropSend idx =>
    inferInstanceAs (Decidable (s.decode.chunk.isSome = true → idx ≠ 0 ∧ s.free idx = false))
  | .pool (.regReq idx) =>
    inferInstanceAs (Decidable (s.decode.chunk.isSome = true → s.Running idx))
  | .pool .accept => .isTrue trivial
  | .pool (.dataRsp _ _) => .isTrue trivial
  | .pool (.endRecv _) => .isTrue trivial
  | .pool (.getResult _) => .isTrue trivial
  | .closeConnection _ => .isTrue trivial
  | .takeChunk _ => .isTrue trivial
  | .stop _ => .isTrue trivial
  | .dropAccept => .isTrue trivial

/-- The chunk is put behind the queue of one agent that runs its send task; nothing else changes,
and `decode` is at its end. -/
def PutOnce (s s' : PoolTasks) (data : Bytes) : Prop :=
  ∃ idx a q, s.pool.agent idx = some a ∧ s.sides[idx]? = some q ∧ q.sendTask ≠ .ended ∧
    s' = { s with
      decode := .idle
      sides := s.sides.set idx { q with rxProcData := q.rxProcData ++ [data] } }

/-- What a step does to the queues: the publication of a chunk puts it on one of them, and no other
step puts anything on any. -/
def Places (s : PoolTasks) (op : PoolTaskOp) (s' : PoolTasks) : Prop :=
  match op with
  | .decode .publish => ∀ data, s.decode.chunk = some data → s.PutOnce s' data
  | _ => ∀ idx, s'.queue idx <:+ s.queue idx

/-- The steps that are left to a call of `decode`. -/
def decodeRemaining (s : PoolTasks) : ℕ :=
  match s.decode with
  | .testing _ idx => s.pool.clients.length - idx + 2
  | .found _ _ | .exhausted _ => 1
  | .idle | .panicked => 0

/-- The queue of the client in the slot is full, and its send task has not ended. -/
def FullAt (s : PoolTasks) (idx : ℕ) : Prop :=
  ∃ q, s.sides[idx]? = some q ∧ q.sendTask ≠ .ended ∧ 1024 ≤ q.rxProcData.length

/-- `decode` waits for room in the queue of the client that it has selected. -/
def Waits (s : PoolTasks) : Prop := ∃ idx, s.decode.selected = some idx ∧ s.FullAt idx

/-- A call of `decode` has a next step, which leaves fewer, unless it waits; and no step of the
others leaves it more. -/
def GoesOn (s : PoolTasks) : Prop :=
  s.decode.chunk.isSome = true →
    ((∃ op s', poolTasksMachine.step s (.decode op) = some s' ∧
        s'.decodeRemaining < s.decodeRemaining) ∨ s.Waits) ∧
      ∀ op s', poolTasksMachine.step s op = some s' → s'.decodeRemaining ≤ s.decodeRemaining

/-- INTERNAL: **only a publication puts chunks on queues.**
SRC: client_agent.rs:166-207 -/
theorem queue_suffix {op : PoolTaskOp} (hop : op ≠ .decode .publish)
    (hs : poolTasksMachine.step s op = some s') (j : ℕ) : s'.queue j <:+ s.queue j := by
  by_cases haccept : op = .pool .accept
  · subst haccept
    obtain ⟨-, -, -, hsides, -⟩ := acceptStep_cases hs
    unfold queue
    rw [hsides]
    rcases Nat.lt_or_ge j s.sides.length with hlt | hge
    · rw [List.getElem?_append_left hlt]
    · rw [List.getElem?_append_right hge, List.getElem?_eq_none hge, List.getElem?_singleton]
      split
      · exact List.suffix_rfl
      · exact List.suffix_rfl
  · exact (frame haccept hs).queue hop j

/-- INTERNAL: what becomes of the chunk in the selected slot.
SRC: client_pool.rs:82-85, client_agent.rs:205-207 -/
theorem putOnce_publishTo_iff {data : Bytes} {idx : ℕ} (hs : s.publishTo data idx = some s') :
    s.PutOnce s' data ↔ s.Running idx := by
  rw [running_iff]
  rcases publishTo_cases hs with ⟨a, q, ha, hq, hended, rfl⟩ | ⟨a, q, ha, hq, hrunning, -, rfl⟩ |
    ⟨hnone, rfl⟩
  · -- `unwrap` panics
    refine iff_of_false ?_ ?_
    · rintro ⟨_, _, _, -, -, -, heq⟩
      cases congrArg PoolTasks.decode heq
    · rintro ⟨_, q', -, hq', hrunning⟩
      obtain rfl := Option.some.inj (hq.symm.trans hq')
      exact hrunning hended
  · exact iff_of_true ⟨idx, a, q, ha, hq, hrunning, rfl⟩ ⟨a, q, ha, hq, hrunning⟩
  · -- no client is there, and the queues stay as they are
    refine iff_of_false ?_ ?_
    · rintro ⟨j, _, q, -, hq, -, heq⟩
      have hsides : s.sides = s.sides.set j { q with rxProcData := q.rxProcData ++ [data] } :=
        congrArg PoolTasks.sides heq
      have hself := List.getElem?_set_self (a := { q with rxProcData := q.rxProcData ++ [data] })
        (List.getElem?_eq_some_iff.mp hq).1
      rw [← hsides, hq, Option.some.injEq] at hself
      have hlength := congrArg (fun q => q.rxProcData.length) hself
      simp at hlength
    · rintro ⟨a, q, ha, hq, -⟩
      rcases hnone with hnone | hnone
      · rw [hnone] at ha
        cases ha
      · rw [hnone] at hq
        cases hq

/-! ## The clients that a call can come to -/

/-- A slot is free when its agent is active and its queue is not full. -/
theorem free_iff {idx : ℕ} : s.free idx = true ↔
    ∃ a q, s.pool.agent idx = some a ∧ s.sides[idx]? = some q ∧
      a.state = .activate ∧ q.rxProcData.length ≠ 1024 := by
  unfold free isFull
  cases s.pool.agent idx with
  | none => simp
  | some a =>
    cases s.sides[idx]? with
    | none => simp
    | some q => by_cases hstate : a.state = .activate <;> simp [hstate]

/-- A free slot is one of the slots. -/
theorem lt_of_free {idx : ℕ} (h : s.free idx = true) : idx < s.pool.clients.length := by
  obtain ⟨a, q, ha, -⟩ := free_iff.mp h
  exact (List.getElem?_eq_some_iff.mp (Pool.getElem?_of_agent ha)).1

/-- What a call of `decode` relies on, from where it is: of the clients that its loop still comes to
the first one with room runs its send task, or else the first client does; and so does the one that
it has selected. -/
def CallOk (s : PoolTasks) : Prop :=
  match s.decode with
  | .testing _ k =>
    (∃ idx, k ≤ idx ∧ s.free idx = true ∧
        ∀ j, k ≤ j → j ≤ idx → s.free j = true → s.Running j) ∨
      (s.Running 0 ∧ ∀ j, k ≤ j → s.free j = true → s.Running j)
  | .found _ idx => s.free idx = true ∧ s.Running idx
  | .exhausted _ => s.Running 0
  | .idle | .panicked => True

/-- No queue is longer than its channel. -/
def QueuesFit (s : PoolTasks) : Prop := ∀ q ∈ s.sides, q.rxProcData.length ≤ 1024

/-- What the others do during a call: clients with room keep it, and those that get room run their
send task; and the first client and the ones with room keep theirs. -/
structure Calm (s s' : PoolTasks) : Prop where
  decode : s'.decode = s.decode
  keepsRoom : ∀ j, s.free j = true → s'.free j = true
  getsRoom : ∀ j, s'.free j = true → s.free j = true ∨ s'.Running j
  running : ∀ j, s.Running j → j = 0 ∨ s.free j = true → s'.Running j

/-- A call that is all right stays so where nothing that matters changes. -/
theorem CallOk.calm (h : s.CallOk) (hcalm : s.Calm s') : s'.CallOk := by
  unfold CallOk at h ⊢
  rw [hcalm.decode]
  have hruns : ∀ j, (s.free j = true → s.Running j) → s'.free j = true → s'.Running j := by
    intro j hj hfree
    rcases hcalm.getsRoom j hfree with hold | hnew
    · exact hcalm.running j (hj hold) (.inr hold)
    · exact hnew
  cases hdecode : s.decode with
  | idle => trivial
  | panicked => trivial
  | testing data k =>
    simp only [hdecode] at h ⊢
    rcases h with ⟨idx, hk, hfree, hall⟩ | ⟨hfirst, hall⟩
    · exact .inl ⟨idx, hk, hcalm.keepsRoom idx hfree,
        fun j hkj hj => hruns j (hall j hkj hj)⟩
    · exact .inr ⟨hcalm.running 0 hfirst (.inl rfl), fun j hkj => hruns j (hall j hkj)⟩
  | found data idx =>
    simp only [hdecode] at h ⊢
    exact ⟨hcalm.keepsRoom idx h.1, hcalm.running idx h.2 (.inr h.1)⟩
  | exhausted data =>
    simp only [hdecode] at h ⊢
    exact hcalm.running 0 h (.inl rfl)

/-- A send task takes a chunk or goes on, or one ends that the call does not come to. -/
theorem calm_set (hfit : s.QueuesFit) {idx : ℕ} {q : SendSide} (hq : s.sides[idx]? = some q)
    (q' : SendSide) (hrx : q'.rxProcData <:+ q.rxProcData)
    (htask : q'.sendTask ≠ .ended ∨ (q'.rxProcData = q.rxProcData ∧
      (q.sendTask = .ended ∨ (idx ≠ 0 ∧ s.free idx = false)))) :
    s.Calm { s with sides := s.sides.set idx q' } := by
  have hlt := (List.getElem?_eq_some_iff.mp hq).1
  have hself : (s.sides.set idx q')[idx]? = some q' := List.getElem?_set_self hlt
  have hother : ∀ j, j ≠ idx → (s.sides.set idx q')[j]? = s.sides[j]? :=
    fun j hj => List.getElem?_set_ne (Ne.symm hj)
  have hlen : q'.rxProcData.length ≤ q.rxProcData.length := hrx.length_le
  have hmax := hfit q (List.mem_of_getElem? hq)
  refine ⟨rfl, fun j hj => ?_, fun j hj => ?_, fun j hj hmatters => ?_⟩
  · obtain ⟨a, p, ha, hp, hstate, hroom⟩ := free_iff.mp hj
    by_cases hji : j = idx
    · subst hji
      obtain rfl := Option.some.inj (hq.symm.trans hp)
      exact free_iff.mpr ⟨a, q', ha, hself, hstate, by omega⟩
    · exact free_iff.mpr ⟨a, p, ha, (hother j hji).trans hp, hstate, hroom⟩
  · obtain ⟨a, p, ha, hp, hstate, hroom⟩ := free_iff.mp hj
    by_cases hji : j = idx
    · subst hji
      obtain rfl := Option.some.inj (hself.symm.trans hp)
      rcases htask with hruns | ⟨hsame, -⟩
      · exact .inr (running_iff.mpr ⟨a, q', ha, hself, hruns⟩)
      · exact .inl (free_iff.mpr ⟨a, q, ha, hq, hstate, hsame ▸ hroom⟩)
    · exact .inl (free_iff.mpr ⟨a, p, ha, (hother j hji).symm.trans hp, hstate, hroom⟩)
  · obtain ⟨a, p, ha, hp, hruns⟩ := running_iff.mp hj
    by_cases hji : j = idx
    · subst hji
      obtain rfl := Option.some.inj (hq.symm.trans hp)
      rcases htask with hruns' | ⟨-, hended | ⟨hne, hfull⟩⟩
      · exact running_iff.mpr ⟨a, q', ha, hself, hruns'⟩
      · exact absurd hended hruns
      · rcases hmatters with hzero | hfree
        · exact absurd hzero hne
        · rw [hfull] at hfree
          cases hfree
    · exact running_iff.mpr ⟨a, p, ha, (hother j hji).trans hp, hruns⟩

/-- A receive task goes on with an agent that keeps its state, or registers one that runs its send
task. -/
theorem calm_setAgent {idx : ℕ} {a b : Agent} {merged : List SparseMap}
    (ha : s.pool.agent idx = some a)
    (hstate : b.state = a.state ∨ (b.state = .activate ∧ s.Running idx)) :
    s.Calm { s with pool := { s.pool.setAgent idx b with merged } } := by
  have hlt := (List.getElem?_eq_some_iff.mp (Pool.getElem?_of_agent ha)).1
  have hself : Pool.agent { s.pool.setAgent idx b with merged } idx = some b := by
    show (s.pool.clients.set idx (some b))[idx]?.join = some b
    rw [List.getElem?_set_self hlt, Option.join_some]
  have hother : ∀ j, j ≠ idx → Pool.agent { s.pool.setAgent idx b with merged } j =
      s.pool.agent j := by
    intro j hj
    show (s.pool.clients.set idx (some b))[j]?.join = s.pool.clients[j]?.join
    rw [List.getElem?_set_ne (Ne.symm hj)]
  have hrunning : ∀ j, s.Running j →
      Running { s with pool := { s.pool.setAgent idx b with merged } } j := by
    intro j hj
    obtain ⟨c, q, hc, hq, hruns⟩ := running_iff.mp hj
    by_cases hji : j = idx
    · subst hji
      exact running_iff.mpr ⟨b, q, hself, hq, hruns⟩
    · exact running_iff.mpr ⟨c, q, (hother j hji).trans hc, hq, hruns⟩
  refine ⟨rfl, fun j hj => ?_, fun j hj => ?_, fun j hj _ => hrunning j hj⟩
  · obtain ⟨c, q, hc, hq, hactive, hroom⟩ := free_iff.mp hj
    by_cases hji : j = idx
    · subst hji
      obtain rfl := Option.some.inj (ha.symm.trans hc)
      refine free_iff.mpr ⟨b, q, hself, hq, ?_, hroom⟩
      rcases hstate with heq | ⟨hactive', -⟩
      · exact heq.trans hactive
      · exact hactive'
    · exact free_iff.mpr ⟨c, q, (hother j hji).trans hc, hq, hactive, hroom⟩
  · obtain ⟨c, q, hc, hq, hactive, hroom⟩ := free_iff.mp hj
    by_cases hji : j = idx
    · subst hji
      obtain rfl := Option.some.inj (hself.symm.trans hc)
      rcases hstate with heq | ⟨-, hruns⟩
      · exact .inl (free_iff.mpr ⟨a, q, ha, hq, heq.symm.trans hactive, hroom⟩)
      · exact .inr (hrunning j hruns)
    · exact .inl (free_iff.mpr ⟨c, q, (hother j hji).symm.trans hc, hq, hactive, hroom⟩)

/-- An owner that may call has no `decode` running. -/
theorem owned_idle (h : s.owned = true) : s.decode = .idle := by
  unfold owned at h
  split at h
  · next hidle => exact hidle
  · cases h

/-- Without a call there is nothing to place. -/
theorem callOk_of_no_call (h : s.decode.chunk = none) : s.CallOk := by
  unfold CallOk
  cases hdecode : s.decode with
  | idle => trivial
  | panicked => trivial
  | testing data k => rw [hdecode] at h; cases h
  | found data idx => rw [hdecode] at h; cases h
  | exhausted data => rw [hdecode] at h; cases h

/-- INTERNAL: what the others do during a call is calm.
SRC: client_agent.rs:113-182, client_pool.rs:28-37, 52-62, 88-119 -/
theorem calm_of_keepsReceivers (hfit : s.QueuesFit) {op : PoolTaskOp}
    (hop : ∀ o, op ≠ .decode o) (hcall : s.decode.chunk.isSome = true) (hC : s.KeepsReceivers op)
    (hs : poolTasksMachine.step s op = some s') : s.Calm s' := by
  have hbusy : s.decode ≠ .idle := by
    intro hidle
    rw [hidle] at hcall
    cases hcall
  cases op with
  | pool op =>
    cases op with
    | accept =>
      rcases (accept_cases (s := s) hs).1 with hidle | hpanicked
      · exact absurd hidle hbusy
      · rw [hpanicked] at hcall
        cases hcall
    | getResult op =>
      exact absurd (getResult_cases hs).1 hbusy
    | regReq idx =>
      obtain ⟨pool, hpool, rfl⟩ := Option.map_eq_some_iff.mp hs
      obtain ⟨a, ha, rfl⟩ := Pool.regReq_cases hpool
      exact @calm_setAgent s idx a _ s.pool.merged ha (.inr ⟨rfl, hC hcall⟩)
    | dataRsp idx msg =>
      obtain ⟨pool, hpool, rfl⟩ := Option.map_eq_some_iff.mp hs
      obtain ⟨a, rstData, ha, -, -, rfl⟩ := Pool.dataRsp_cases hpool
      exact calm_setAgent ha (.inl rfl)
    | endRecv idx =>
      obtain ⟨pool, hpool, rfl⟩ := Option.map_eq_some_iff.mp hs
      obtain ⟨a, ha, rfl⟩ := Pool.endRecv_cases hpool
      exact @calm_setAgent s idx a _ s.pool.merged ha (.inl rfl)
  | closeConnection idx =>
    obtain ⟨q, hq, rfl⟩ := closeConnection_cases hs
    refine calm_set hfit hq { q with isOpen := false } List.suffix_rfl ?_
    by_cases hended : q.sendTask = .ended
    · exact .inr ⟨rfl, .inl hended⟩
    · exact .inl hended
  | takeChunk idx =>
    obtain ⟨q, chunk, rxProcData, hq, -, hrx, rfl⟩ := takeChunk_cases hs
    refine calm_set hfit hq { q with rxProcData, sendTask := .sending } ?_ (.inl nofun)
    rw [hrx]
    exact List.suffix_cons chunk rxProcData
  | sendDone idx ok =>
    obtain ⟨q, hq, -, rfl⟩ := sendDone_cases hs
    cases ok with
    | true => exact calm_set hfit hq { q with sendTask := .recv } List.suffix_rfl (.inl nofun)
    | false =>
      exact calm_set hfit hq { q with sendTask := .ended } List.suffix_rfl
        (.inr ⟨rfl, .inr (hC hcall)⟩)
  | decode op => exact absurd rfl (hop op)
  | stop op => exact absurd (owned_idle (stopStep_cases hs).1) hbusy
  | dropAccept =>
    obtain ⟨-, rfl⟩ := dropAccept_cases hs
    exact ⟨rfl, fun _ h => h, fun _ h => .inl h, fun _ h _ => h⟩
  | dropSend idx =>
    obtain ⟨q, hq, rfl⟩ := dropSend_cases hs
    exact calm_set hfit hq { q with sendTask := .ended } List.suffix_rfl
      (.inr ⟨rfl, .inr (hC hcall)⟩)

/-- INTERNAL: a call begins well when the first client with room, or else the first client, runs its
send task.
SRC: client_pool.rs:72-74 -/
theorem callOk_begin (h : s.Running (s.firstFree.getD 0)) (data : Bytes) :
    CallOk { s with decode := .testing data 0 } := by
  show (∃ idx, 0 ≤ idx ∧ s.free idx = true ∧
      ∀ j, 0 ≤ j → j ≤ idx → s.free j = true → s.Running j) ∨
    (s.Running 0 ∧ ∀ j, 0 ≤ j → s.free j = true → s.Running j)
  unfold firstFree at h
  cases hfind : (List.range s.pool.clients.length).find? s.free with
  | none =>
    rw [hfind] at h
    refine .inr ⟨h, fun j _ hj => ?_⟩
    have hnot := List.find?_eq_none.mp hfind j (List.mem_range.mpr (lt_of_free hj))
    exact absurd hj hnot
  | some idx =>
    rw [hfind] at h
    obtain ⟨hfree, hbefore⟩ := List.find?_range_eq_some.mp hfind
    refine .inl ⟨idx, Nat.zero_le idx, hfree, fun j _ hj hjfree => ?_⟩
    rcases Nat.lt_or_eq_of_le hj with hlt | rfl
    · have hnot := hbefore.2 j hlt
      rw [hjfree] at hnot
      cases hnot
    · exact h

/-- INTERNAL: a round of the loop keeps what the call relies on.
SRC: client_pool.rs:74-81 -/
theorem CallOk.test (h : s.CallOk) {data : Bytes} {k : ℕ} (hdecode : s.decode = .testing data k) :
    (s.test data k).CallOk := by
  simp only [CallOk, hdecode] at h
  rcases test_cases s data k with ⟨hlt, heq⟩ | ⟨a, q, ha, hq, hroom, heq⟩ | ⟨hge, heq⟩
  · rw [heq]
    by_cases hfree : s.free k = true
    · -- a client with room is found
      obtain ⟨a, q, ha, hq, hstate, hlen⟩ := free_iff.mp hfree
      have hfull : isFull a.state q.rxProcData = false := by simp [isFull, hstate, hlen]
      have hfound : s.test data k = { s with decode := .found data k } := by
        simp only [PoolTasks.test, if_pos hlt, ha, hq, hfull, Bool.false_eq_true, if_false]
      cases congrArg PoolTasks.decode (heq.symm.trans hfound)
    · show (∃ idx, k + 1 ≤ idx ∧ s.free idx = true ∧
          ∀ j, k + 1 ≤ j → j ≤ idx → s.free j = true → s.Running j) ∨
        (s.Running 0 ∧ ∀ j, k + 1 ≤ j → s.free j = true → s.Running j)
      rcases h with ⟨idx, hk, hidx, hall⟩ | ⟨hfirst, hall⟩
      · have hne : k ≠ idx := by
          rintro rfl
          exact hfree hidx
        exact .inl ⟨idx, by omega, hidx, fun j hj => hall j (by omega)⟩
      · exact .inr ⟨hfirst, fun j hj => hall j (by omega)⟩
  · rw [heq]
    have hfree : s.free k = true := by simp [free, ha, hq, hroom]
    refine ⟨hfree, ?_⟩
    rcases h with ⟨idx, hk, -, hall⟩ | ⟨-, hall⟩
    · exact hall k le_rfl hk hfree
    · exact hall k le_rfl hfree
  · rw [heq]
    rcases h with ⟨idx, hk, hidx, -⟩ | ⟨hfirst, -⟩
    · have := lt_of_free hidx
      omega
    · exact hfirst

/-- What a run keeps up. -/
structure PlaceInv (s : PoolTasks) : Prop where
  fit : s.QueuesFit
  call : s.CallOk

/-- A publication keeps each queue within its bound. -/
theorem queuesFit_publishTo (hfit : s.QueuesFit) {data : Bytes} {idx : ℕ}
    (hs : s.publishTo data idx = some s') : s'.QueuesFit := by
  rcases publishTo_cases hs with ⟨a, q, -, -, -, rfl⟩ | ⟨a, q, -, -, -, hroom, rfl⟩ | ⟨-, rfl⟩
  · exact hfit
  · intro p hp
    rcases List.mem_or_eq_of_mem_set hp with hold | rfl
    · exact hfit p hold
    · rw [List.length_append, List.length_singleton]
      exact hroom
  · exact hfit

/-- Every step keeps each queue within its bound. -/
theorem queuesFit_step (hfit : s.QueuesFit) {op : PoolTaskOp}
    (hs : poolTasksMachine.step s op = some s') : s'.QueuesFit := by
  by_cases hop : op = .decode .publish
  · subst hop
    rcases publish_cases hs with ⟨data, idx, -, hpublish⟩ | ⟨data, -, hpublish⟩
    · exact queuesFit_publishTo hfit hpublish
    · exact queuesFit_publishTo hfit hpublish
  · intro p hp
    obtain ⟨j, hj⟩ := List.mem_iff_getElem?.mp hp
    have hsuffix := (queue_suffix hop hs j).length_le
    have hnew : s'.queue j = p.rxProcData := by rw [queue, hj]; rfl
    rw [hnew] at hsuffix
    have hold : (s.queue j).length ≤ 1024 := by
      unfold queue
      cases hq : s.sides[j]? with
      | none => exact Nat.zero_le 1024
      | some q => exact hfit q (List.mem_of_getElem? hq)
    omega

/-- Only `decode` changes its own call. -/
theorem decode_of_other {op : PoolTaskOp} (hop : ∀ o, op ≠ .decode o)
    (hs : poolTasksMachine.step s op = some s') : s'.decode = s.decode := by
  by_cases haccept : op = .pool .accept
  · subst haccept
    obtain ⟨-, pool, -, rfl⟩ := accept_cases (s := s) hs
    rfl
  · exact (frame haccept hs).decode hop

/-- INTERNAL: **a step of a run that keeps the receivers.**
SRC: client_pool.rs:68-86 -/
theorem PlaceInv.step (h : s.PlaceInv) {op : PoolTaskOp} (hC : s.KeepsReceivers op)
    (hs : poolTasksMachine.step s op = some s') : s'.PlaceInv := by
  refine ⟨queuesFit_step h.fit hs, ?_⟩
  by_cases hop : ∃ o, op = .decode o
  · obtain ⟨o, rfl⟩ := hop
    cases o with
    | begin data =>
      obtain ⟨-, -, rfl⟩ := begin_cases hs
      exact callOk_begin hC data
    | test =>
      obtain ⟨data, k, hdecode, rfl⟩ := testStep_cases hs
      exact h.call.test hdecode
    | publish =>
      apply callOk_of_no_call
      have hend : ∀ data idx, s.publishTo data idx = some s' → s'.decode.chunk = none := by
        intro data idx hpublish
        rcases publishTo_cases hpublish with ⟨a, q, -, -, -, rfl⟩ | ⟨a, q, -, -, -, -, rfl⟩ |
          ⟨-, rfl⟩
        · rfl
        · rfl
        · rfl
      rcases publish_cases hs with ⟨data, idx, -, hpublish⟩ | ⟨data, -, hpublish⟩
      · exact hend data idx hpublish
      · exact hend data 0 hpublish
  · have hother : ∀ o, op ≠ .decode o := fun o ho => hop ⟨o, ho⟩
    cases hcall : s.decode.chunk with
    | some data =>
      exact h.call.calm (calm_of_keepsReceivers h.fit hother (by rw [hcall]; rfl) hC hs)
    | none =>
      apply callOk_of_no_call
      rw [decode_of_other hother hs, hcall]

/-- A step places the chunk of the call where it belongs. -/
theorem PlaceInv.places (h : s.PlaceInv) {op : PoolTaskOp}
    (hs : poolTasksMachine.step s op = some s') : s.Places op s' := by
  by_cases hop : op = .decode .publish
  · subst hop
    have hcall := h.call
    unfold CallOk at hcall
    rcases publish_cases hs with ⟨data, idx, hfound, hpublish⟩ | ⟨data, hexhausted, hpublish⟩
    · simp only [hfound] at hcall
      simp only [Places, hfound, DecodeCall.chunk, Option.some.injEq, forall_eq']
      exact (putOnce_publishTo_iff hpublish).mpr hcall.2
    · simp only [hexhausted] at hcall
      simp only [Places, hexhausted, DecodeCall.chunk, Option.some.injEq, forall_eq']
      exact (putOnce_publishTo_iff hpublish).mpr hcall
  · unfold Places
    split
    · exact absurd rfl hop
    · exact queue_suffix hop hs

/-! ## A call of `decode` comes to its end -/

/-- A publication goes on unless the queue is full. -/
theorem publishTo_or_fullAt (s : PoolTasks) (data : Bytes) (idx : ℕ) :
    (∃ s', s.publishTo data idx = some s') ∨ s.FullAt idx := by
  cases hstep : s.publishTo data idx with
  | some s' => exact .inl ⟨s', rfl⟩
  | none =>
    unfold publishTo at hstep
    split at hstep
    · next a q ha hq =>
      split at hstep
      · cases hstep
      · next hrunning =>
        split at hstep
        · cases hstep
        · next hfull => exact .inr ⟨q, hq, hrunning, by omega⟩
    · cases hstep

/-- A publication is the last step of `decode`. -/
theorem publishTo_remaining {data : Bytes} {idx : ℕ} (hs : s.publishTo data idx = some s') :
    s'.decodeRemaining = 0 := by
  rcases publishTo_cases hs with ⟨a, q, -, -, -, rfl⟩ | ⟨a, q, -, -, -, -, rfl⟩ | ⟨-, rfl⟩
  · rfl
  · rfl
  · rfl

/-- A further slot that is asked leaves one less to ask. -/
theorem test_remaining_lt {data : Bytes} {idx : ℕ} (hdecode : s.decode = .testing data idx) :
    (s.test data idx).decodeRemaining < s.decodeRemaining := by
  have hs : s.decodeRemaining = s.pool.clients.length - idx + 2 := by
    rw [decodeRemaining, hdecode]
  rw [hs]
  rcases test_cases s data idx with ⟨hlt, heq⟩ | ⟨a, q, -, -, -, heq⟩ | ⟨-, heq⟩
  · rw [heq]
    show s.pool.clients.length - (idx + 1) + 2 < _
    omega
  · rw [heq]
    show 1 < _
    omega
  · rw [heq]
    show 1 < _
    omega

/-- INTERNAL: the steps of `decode` leave fewer of them.
SRC: client_pool.rs:68-86 -/
theorem decodeStep_remaining_lt {op : DecodeOp} (hcall : s.decode.chunk.isSome = true)
    (hs : s.decodeStep op = some s') : s'.decodeRemaining < s.decodeRemaining := by
  cases op with
  | begin data =>
    obtain ⟨hidle, -, -⟩ := begin_cases hs
    rw [hidle] at hcall
    cases hcall
  | test =>
    obtain ⟨data, idx, hdecode, rfl⟩ := testStep_cases hs
    exact test_remaining_lt hdecode
  | publish =>
    rcases publish_cases hs with ⟨data, idx, hfound, hpublish⟩ | ⟨data, hexhausted, hpublish⟩
    · rw [publishTo_remaining hpublish, decodeRemaining, hfound]
      exact Nat.zero_lt_one
    · rw [publishTo_remaining hpublish, decodeRemaining, hexhausted]
      exact Nat.zero_lt_one

/-- The lock that `decode` holds keeps the others from the list of clients. -/
theorem remaining_le {op : PoolTaskOp} (hcall : s.decode.chunk.isSome = true)
    (hs : poolTasksMachine.step s op = some s') : s'.decodeRemaining ≤ s.decodeRemaining := by
  by_cases hdecode : ∃ op', op = .decode op'
  · obtain ⟨op', rfl⟩ := hdecode
    exact (decodeStep_remaining_lt hcall hs).le
  · have haccept : op ≠ .pool .accept := by
      rintro rfl
      rcases (accept_cases (s := s) hs).1 with hfree | hfree
      · rw [hfree] at hcall
        cases hcall
      · rw [hfree] at hcall
        cases hcall
    have hframe := frame haccept hs
    unfold decodeRemaining
    rw [hframe.decode fun op' h => hdecode ⟨op', h⟩, hframe.clients]

/-- INTERNAL: **`decode` comes to its end**, but for a client whose queue stays full.
SRC: client_pool.rs:68-86 -/
theorem goesOn (s : PoolTasks) : s.GoesOn := by
  intro hcall
  refine ⟨?_, fun op s' hs => remaining_le hcall hs⟩
  have hstep : ∀ op s', s.decodeStep op = some s' →
      (∃ op s', poolTasksMachine.step s (.decode op) = some s' ∧
        s'.decodeRemaining < s.decodeRemaining) ∨ s.Waits :=
    fun op s' hs => .inl ⟨op, s', hs, decodeStep_remaining_lt hcall hs⟩
  cases hdecode : s.decode with
  | idle =>
    rw [hdecode] at hcall
    cases hcall
  | panicked =>
    rw [hdecode] at hcall
    cases hcall
  | testing data idx =>
    apply hstep .test (s.test data idx)
    simp only [decodeStep, hdecode]
  | found data idx =>
    rcases s.publishTo_or_fullAt data idx with ⟨s', hs'⟩ | hfull
    · apply hstep .publish s'
      simp only [decodeStep, hdecode, hs']
    · exact .inr ⟨idx, by rw [hdecode, DecodeCall.selected], hfull⟩
  | exhausted data =>
    rcases s.publishTo_or_fullAt data 0 with ⟨s', hs'⟩ | hfull
    · apply hstep .publish s'
      simp only [decodeStep, hdecode, hs']
    · exact .inr ⟨0, by rw [hdecode, DecodeCall.selected], hfull⟩

/-- No chunk is dropped or queued twice, and every call of `decode` comes to its end without a
panic: in the run `ops`, a publication puts the chunk on the queue of one agent that runs its send
task, no other step puts chunks on queues, and `decode` goes on unless it waits for room. -/
structure NeverDrops (ops : List PoolTaskOp) : Prop where
  placed : ∀ before op after u v, ops = before ++ op :: after →
    poolTasksMachine.exec poolTasksMachine.init before = some u →
    poolTasksMachine.step u op = some v → u.Places op v
  completes : ∀ before after u, ops = before ++ after →
    poolTasksMachine.exec poolTasksMachine.init before = some u → u.GoesOn

/-- MAIN: **when the pool never drops a chunk.**  In a run of accepted connections, registrations,
ends of tasks and calls of `get_result`, `decode` and `stop`, in any order and with the tasks of
the agents going on during each call, no chunk is dropped or queued twice and no call of `decode`
panics, if at each call the first client with room, or the first one when none has room, runs its
send task, and during the calls the clients keep theirs as `KeepsReceivers` says.
SRC: client_pool.rs:68-86, 107-117; client_agent.rs:166-207 -/
theorem never_drops_of_keepsReceivers {ops : List PoolTaskOp}
    (h : poolTasksMachine.Meets KeepsReceivers poolTasksMachine.init ops) : NeverDrops ops := by
  refine ⟨?_, fun _ _ u _ _ => u.goesOn⟩
  exact poolTasksMachine.forall_steps_of_meets (C := KeepsReceivers) (I := PlaceInv)
    (Q := Places) (fun _ _ _ hI hC hstep => hI.step hC hstep)
    (fun _ _ _ hI _ hstep => hI.places hstep) ⟨nofun, trivial⟩ h

/-- Two chunks with one client, one of them before its registration. -/
theorem never_drops_oneClient : NeverDrops
    [.pool .accept, .decode (.begin [1]), .decode .test, .decode .test, .decode .publish,
      .pool (.regReq 0), .takeChunk 0, .decode (.begin [2]), .decode .test, .sendDone 0 true,
      .decode .publish] := by
  exact never_drops_of_keepsReceivers (by decide)

/-- With an empty pool the chunk is dropped, and with a client whose send task has ended at a
failed send, `decode` panics. -/
theorem empty_pool_drops : ∃ u v w x,
    poolTasksMachine.exec poolTasksMachine.init [.decode (.begin [1]), .decode .test] = some u ∧
    poolTasksMachine.step u (.decode .publish) = some v ∧ u.decode.chunk = some [1] ∧
    v.decode.chunk = none ∧ v.sides = [] ∧
    poolTasksMachine.exec v [.pool .accept, .pool (.regReq 0), .decode (.begin [2]), .decode .test,
      .decode .publish, .takeChunk 0, .sendDone 0 false, .decode (.begin [3]),
      .decode .test] = some w ∧
    poolTasksMachine.step w (.decode .publish) = some x ∧ x.decode = .panicked ∧
    ¬ NeverDrops [.decode (.begin [1]), .decode .test, .decode .publish] := by
  refine ⟨_, _, _, _, rfl, rfl, rfl, rfl, rfl, rfl, rfl, rfl, fun h => ?_⟩
  obtain ⟨idx, a, q, ha, -⟩ := h.placed [.decode (.begin [1]), .decode .test] (.decode .publish) []
    _ _ rfl rfl rfl [1] rfl
  cases ha

end PoolTasks

end PtkGenerator

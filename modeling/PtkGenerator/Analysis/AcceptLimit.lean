import PtkGenerator.Model.PoolTasks

/-!
# The limit of the accept loop

The accept loop tests its limit on the length of the list of clients.  Nothing makes that list
shorter: `get_result` empties a slot and leaves it where it is.  So the loop ends with the 33rd
connection that it has ever accepted, and rightly so only if no client has closed its connection by
then.
-/

set_option autoImplicit false

namespace PtkGenerator

namespace PoolTasks

/-- The accepted connections with the agents that hold them. -/
def connections (s : PoolTasks) : List (Option Agent × SendSide) := s.pool.clients.zip s.sides

/-- A connection is open until the client closes it, or both tasks of its agent have ended. -/
def StaysOpen (c : Option Agent × SendSide) : Prop :=
  c.2.isOpen = true ∧ (c.2.sendTask ≠ .ended ∨ c.1.any Agent.receiving = true)

/-- Whether a connection stays open is decided by its state and its link. -/
instance (c : Option Agent × SendSide) : Decidable (StaysOpen c) :=
  inferInstanceAs (Decidable (_ ∧ _))

/-- The number of the accepted connections that are open. -/
def openCount (s : PoolTasks) : ℕ := s.connections.countP fun c => StaysOpen c

/-- When the step ends the accept loop, then because of `stop`, or because of more than 32 open
connections. -/
def EndsRightly (s s' : PoolTasks) : Prop :=
  s.pool.accepting = true → s'.pool.accepting = false → s'.stopFlag = true ∨ 32 < s'.openCount

/-- The connection is accepted on request to stop, or below the limit, or with all earlier ones
open. -/
def StillOpen (s : PoolTasks) : PoolTaskOp → Prop
  | .pool .accept =>
    s.stopFlag = true ∨ s.pool.clients.length < 32 ∨ ∀ c ∈ s.connections, StaysOpen c
  | _ => True

/-- Whether an operation is still open is decided by reading the state. -/
instance (s : PoolTasks) (op : PoolTaskOp) : Decidable (s.StillOpen op) :=
  match op with
  | .pool .accept => inferInstanceAs (Decidable (_ ∨ _ ∨ _))
  | .pool (.regReq _) => .isTrue trivial
  | .pool (.dataRsp _ _) => .isTrue trivial
  | .pool (.endRecv _) => .isTrue trivial
  | .pool (.getResult _) => .isTrue trivial
  | .closeConnection _ => .isTrue trivial
  | .takeChunk _ => .isTrue trivial
  | .sendDone _ _ => .isTrue trivial
  | .decode _ => .isTrue trivial
  | .stop _ => .isTrue trivial
  | .dropAccept => .isTrue trivial
  | .dropSend _ => .isTrue trivial

/-- The slots and their send sides, and the limit; the accept loop is aborted on request only. -/
structure SlotInv (s : PoolTasks) : Prop where
  sides : s.sides.length = s.pool.clients.length
  limit : s.pool.accepting = true → s.pool.clients.length ≤ 32
  aborted : s.acceptAborted = true → s.stopFlag = true

variable {s s' : PoolTasks}

/-- A connection is accepted: the list is longer by one, and the loop goes on up to the limit. -/
theorem acceptStep_cases (hs : poolTasksMachine.step s (.pool .accept) = some s') :
    s.pool.accepting = true ∧ s'.stopFlag = s.stopFlag ∧ s'.acceptAborted = s.acceptAborted ∧
      s'.sides = s.sides ++ [⟨[], .recv, true⟩] ∧
      s'.pool.clients = s.pool.clients ++ [some Agent.new] ∧
      (s'.pool.accepting = true ↔ s.pool.clients.length < 32 ∧ s.stopFlag = false) := by
  obtain ⟨-, pool, hpool, rfl⟩ := accept_cases (s := s) hs
  obtain ⟨haccepting, -, rfl⟩ := Pool.accept_cases hpool
  refine ⟨haccepting, rfl, rfl, rfl, rfl, ?_⟩
  simp only [Bool.and_eq_true, decide_eq_true_eq, Bool.not_eq_true']
  exact and_congr_left fun _ => Nat.succ_le_iff

/-- Every step keeps the slots in line with the connections. -/
theorem SlotInv.step (h : s.SlotInv) {op : PoolTaskOp}
    (hs : poolTasksMachine.step s op = some s') : s'.SlotInv := by
  by_cases hop : op = .pool .accept
  · subst hop
    obtain ⟨-, hflag, haborted, hsides, hclients, haccepting⟩ := acceptStep_cases hs
    refine ⟨?_, fun hgoes => ?_, ?_⟩
    · rw [hsides, hclients, List.length_append, List.length_append, h.sides]
      rfl
    · have hlt := (haccepting.mp hgoes).1
      rw [hclients, List.length_append, List.length_singleton]
      omega
    · rw [hflag, haborted]
      exact h.aborted
  · have hframe := frame hop hs
    refine ⟨?_, fun hgoes => ?_, fun habort => ?_⟩
    · rw [hframe.sides, hframe.clients, h.sides]
    · rcases hframe.accepting with heq | ⟨hends, -⟩
      · rw [hframe.clients]
        exact h.limit (heq.symm.trans hgoes)
      · rw [hends] at hgoes
        cases hgoes
    · rcases hframe.acceptAborted with heq | hflag
      · exact hframe.stopFlag (h.aborted (heq.symm.trans habort))
      · exact hflag

/-- A new pool has no slot. -/
theorem SlotInv.init : poolTasksMachine.init.SlotInv := ⟨rfl, fun _ => Nat.zero_le 32, nofun⟩

/-- INTERNAL: **the step that ends the loop.**
SRC: client_pool.rs:52-62 -/
theorem SlotInv.endsRightly_iff (h : s.SlotInv) {op : PoolTaskOp}
    (hs : poolTasksMachine.step s op = some s') : s.EndsRightly s' ↔ s.StillOpen op := by
  by_cases hop : op = .pool .accept
  · subst hop
    obtain ⟨hloop, hflag, -, hsides, hclients, haccepting⟩ := acceptStep_cases hs
    have hlimit := h.limit hloop
    have hcount : s'.openCount = s.openCount + 1 := by
      rw [openCount, connections, hsides, hclients, List.zip_append h.sides.symm,
        List.countP_append]
      rfl
    have hlength : s.connections.length = s.pool.clients.length := by
      rw [connections, List.length_zip, h.sides, Nat.min_self]
    have hall : s.openCount = s.connections.length ↔ ∀ c ∈ s.connections, StaysOpen c := by
      rw [openCount, List.countP_eq_length]
      simp only [decide_eq_true_eq]
    have hle : s.openCount ≤ s.connections.length := List.countP_le_length
    have hends : s'.pool.accepting = false ↔ 32 ≤ s.pool.clients.length ∨ s.stopFlag = true := by
      rw [← Bool.not_eq_true, haccepting, not_and_or, Nat.not_lt, Bool.not_eq_false]
    simp only [EndsRightly, StillOpen, hloop, forall_const, hends, hflag, hcount, ← hall]
    constructor
    · intro hright
      by_cases hlt : s.pool.clients.length < 32
      · exact .inr (.inl hlt)
      · rcases hright (.inl (by omega)) with hstop | hopen
        · exact .inl hstop
        · exact .inr (.inr (by omega))
    · rintro (hstop | hlt | hopen) hend
      · exact .inl hstop
      · rcases hend with hge | hstop
        · omega
        · exact .inl hstop
      · rcases hend with hge | hstop
        · exact .inr (by omega)
        · exact .inl hstop
  · have hframe := frame hop hs
    have hstill : s.StillOpen op := by
      unfold StillOpen
      split
      · exact absurd rfl hop
      · trivial
    refine iff_of_true (fun hloop hend => ?_) hstill
    rcases hframe.accepting with heq | ⟨-, haborted⟩
    · rw [heq, hloop] at hend
      cases hend
    · exact .inl (hframe.stopFlag (h.aborted haborted))

end PoolTasks

end PtkGenerator

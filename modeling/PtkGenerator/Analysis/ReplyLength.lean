import PtkGenerator.Analysis.RemoteReader

/-!
# The length of a memory reply

Three lengths meet in a memory reply: the one that is asked for, the one of the agent's buffer, and
the capacity of the `Vec` that the payload is copied with, which is again the one that is asked for.
The buffer has 8192 bytes whatever the request is, so the lengths agree for one size only; the page
cache never asks for that many.  And where they agree, the `Vec` still takes the buffer of the
caller with it when it is dropped.
-/

set_option autoImplicit false

namespace PtkGenerator

/-- The operating system is asked for no more bytes than the buffer holds. -/
def OsRead.Within (r : OsRead) : Prop := r.len ≤ r.room

/-- What the reply to a request of `size` bytes at `addr` has to meet: the read stays within the
agent's buffer, the payload has the size of the request, it does not exceed the capacity of the
`Vec` laid over the caller's buffer, and the caller's buffer is the payload afterwards. -/
structure ReplyFits (T : Target) (G : Growth) (addr size : Usize) : Prop where
  within : (memReqCall addr size.toNat).Within
  payload : (memReqArm T addr size.toNat).length = size.toNat
  capacity : ∀ outputBuff : Bytes, outputBuff.length = size.toNat →
    (memReqArm T addr size.toNat).length ≤
      (TmpVec.fromRawParts outputBuff size.toNat).cap
  copied : ∀ outputBuff : Bytes, outputBuff.length = size.toNat →
    (readMem (fun a n => some (memReqArm T a n)) G addr size.toNat outputBuff).map
      (List.take size.toNat) = some (memReqArm T addr size.toNat)

/-- INTERNAL: the read stays within the agent's buffer up to its 8192 bytes.
SRC: client_agent.rs:54, 126-127 -/
theorem memReqCall_within_iff {addr : Usize} {size : ℕ} :
    (memReqCall addr size).Within ↔ size ≤ 8192 := by
  rw [OsRead.Within, memReqCall, readMemoryCall, List.length_replicate]

/-- MAIN: **no memory reply fits its request.**  For every target, every behaviour of the allocator,
every address and every size: the read stays in the agent's buffer up to 8192 bytes, the payload has
the size of the request for 8192 bytes only, and every reply to a request for a byte or more takes
the buffer of the caller away.
SRC: client_agent.rs:44-56, 125-138; client_proc.rs:32-43 -/
theorem reply_never_fits (T : Target) (G : Growth) (addr size : Usize) :
    ((memReqCall addr size.toNat).Within ↔ size.toNat ≤ 8192) ∧
    ((memReqArm T addr size.toNat).length = size.toNat ↔ size = 8192) ∧
    (∀ outputBuff : Bytes,
      readMem (fun a n => some (memReqArm T a n)) G addr size.toNat outputBuff =
        if size.toNat = 0 then some outputBuff else none) ∧
    ¬ ReplyFits T G addr size := by
  have hlen := length_memReqArm T addr size.toNat
  have hread : ∀ outputBuff : Bytes,
      readMem (fun a n => some (memReqArm T a n)) G addr size.toNat outputBuff =
        if size.toNat = 0 then some outputBuff else none :=
    fun outputBuff => readMem_of_reply rfl G outputBuff
  have hsize : (memReqArm T addr size.toNat).length = size.toNat ↔ size = 8192 := by
    rw [hlen]
    exact ⟨fun h => UInt64.toNat.inj h.symm, fun h => h ▸ rfl⟩
  refine ⟨memReqCall_within_iff, hsize, hread, fun hfits => ?_⟩
  have hcopied := hfits.copied (List.replicate size.toNat 0) List.length_replicate
  have hpos : size.toNat ≠ 0 := by
    have := hfits.payload
    omega
  rw [hread, if_neg hpos] at hcopied
  cases hcopied

/-- MAIN: the reply to the request for a page does not fit, also where the allocator enlarges the
memory of the buffer in place.
SRC: client_agent.rs:126; mem_cacher/mod.rs:46-47 -/
theorem page_reply_too_long :
    ¬ ∀ addr size : Usize, ReplyFits sevensTarget (fun _ _ => true) addr size := by
  intro hall
  have hlen := (hall 0x1000 0x1000).payload
  rw [length_memReqArm] at hlen
  exact absurd hlen (by decide)

end PtkGenerator

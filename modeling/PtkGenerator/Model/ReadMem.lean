import PtkGenerator.Model.MemCacher

/-!
# The two readers of the target

`decodeReader` is the closure `decode` installs: the driver reads the target, and an error is
reported as 0 bytes.  `asyncDecodeReader` is the one of `async_decode`: the request goes to the
server as a `MemReq`, the `MemReq` arm of the agent reads the target with `read_memory` and
replies with its whole buffer, and `read_mem` copies the reply back into the buffer of the
caller.

The reply is always 8192 bytes long.  `read_mem` appends it to a `Vec` made from the caller's
buffer, whose capacity is the length of the request.  At the end of its block the `Vec` is dropped
and gives the memory of the buffer back to the allocator, wherever its elements are by then.  So a
buffer behind a call is its bytes, or nothing where its memory was given back; a use of it after
that is a fault, and `getContentWith` is `get_content` over a reader that may do so.
-/

set_option autoImplicit false

namespace PtkGenerator

open Ranges

/-- The memory of the target process: a page is readable as a whole or not at all. -/
structure Target where
  mem : Memory
  pages : ∀ a b, a / 4096 = b / 4096 → (mem a).isSome → (mem b).isSome

/-! ## The local reader -/

/-- `read_process_memory_drv`: the buffer, and whether the request succeeded.
SRC: pt_ctrl/mod.rs:109-150 -/
def readProcessMemoryDrv (T : Target) (address : Usize) (len : UInt16) (outputBuff : Bytes) :
    Bytes × Bool :=
  match readRange T.mem address.toNat len.toNat with
  | some l => (l ++ outputBuff.drop len.toNat, true)
  | none => (outputBuff, false)

/-- The closure of `decode`.
SRC: decode_proc/mod.rs:30-36 -/
def decodeCall (T : Target) (rst : Bytes) (addr : Usize) : Bytes × ℕ :=
  let r := readProcessMemoryDrv T addr (UInt16.ofNat rst.length) rst
  if r.2 then (r.1, rst.length) else (r.1, 0)

/-- The driver fills the buffer and leaves its length. -/
theorem length_readProcessMemoryDrv (T : Target) (address : Usize) {len : UInt16}
    {outputBuff : Bytes} (h : len.toNat ≤ outputBuff.length) :
    (readProcessMemoryDrv T address len outputBuff).1.length = outputBuff.length := by
  rw [readProcessMemoryDrv]
  cases hr : readRange T.mem address.toNat len.toNat with
  | none => rfl
  | some l =>
    have := length_of_readRange _ hr
    simp only [List.length_append, List.length_drop]
    omega

/-- The reader `decode` installs. -/
def decodeReader (T : Target) : Reader Unit where
  call w rst addr := (w, decodeCall T rst addr)
  length_call w rst addr := by
    have h : (UInt16.ofNat rst.length).toNat ≤ rst.length := by
      rw [UInt16.toNat_ofNat']
      exact Nat.mod_le _ _
    have := length_readProcessMemoryDrv T addr h
    simp only [decodeCall]
    split <;> exact this

/-! ## The remote reader -/

/-- `read_memory`: the buffer, and the number of bytes read.  Bytes that do not fit into the buffer
are written behind its end.
SRC: client_agent.rs:44-56 -/
def readMemory (T : Target) (addr : Usize) (len : ℕ) (outputBuff : Bytes) : Bytes × ℕ :=
  match readRange T.mem addr.toNat len with
  | some l => (l.take outputBuff.length ++ outputBuff.drop len, len)
  | none => (outputBuff, 0)

/-- What `ReadProcessMemory` is asked for: the address, the number of bytes, and the number of bytes
the buffer holds, which it is not told. -/
structure OsRead where
  addr : Usize
  len : ℕ
  room : ℕ

/-- The call of `ReadProcessMemory` in `read_memory`.
SRC: client_agent.rs:54 -/
def readMemoryCall (addr : Usize) (len : ℕ) (outputBuff : Bytes) : OsRead :=
  ⟨addr, len, outputBuff.length⟩

/-- The call of `ReadProcessMemory` for a `MemReq`.
SRC: client_agent.rs:126-127 -/
def memReqCall (addr : Usize) (size : ℕ) : OsRead :=
  readMemoryCall addr size (List.replicate 8192 0)

/-- The payload of the `MemRsp` that answers a `MemReq`: the whole buffer, also after a read that
failed, which is only printed.
SRC: client_agent.rs:125-138 -/
def memReqArm (T : Target) (addr : Usize) (size : ℕ) : Bytes :=
  (readMemory T addr size (List.replicate 8192 0)).1

/-- The reply to a `MemReq` has 8192 bytes, whatever was asked for. -/
theorem length_memReqArm (T : Target) (addr : Usize) (size : ℕ) :
    (memReqArm T addr size).length = 8192 := by
  rw [memReqArm, readMemory]
  cases hr : readRange T.mem addr.toNat size with
  | none => exact List.length_replicate
  | some l =>
    have := length_of_readRange _ hr
    simp only [List.length_append, List.length_take, List.length_drop, List.length_replicate]
    omega

/-! ## The copy into the buffer of the caller -/

/-- The `Vec` that is laid over a buffer: what the buffer holds, `none` when its memory was given
back; the capacity; and whether the elements are in the buffer. -/
structure TmpVec where
  outputBuff : Option Bytes
  cap : ℕ
  laidOver : Bool

namespace TmpVec

/-- `Vec::from_raw_parts(output_buff.as_mut_ptr(), 0, len)`.
SRC: client_proc.rs:40 -/
def fromRawParts (outputBuff : Bytes) (len : ℕ) : TmpVec := ⟨some outputBuff, len, true⟩

/-- `tmp.extend_from_slice(&data)` of the empty `Vec`.  When the data exceed its capacity, the
memory of the buffer is enlarged where it is or given back, as the allocator decides; a `Vec`
without capacity has no memory to begin with.
SRC: client_proc.rs:41 -/
def extendFromSlice (v : TmpVec) (inPlace : Bool) (data : Bytes) : TmpVec :=
  let grown := max 8 (max (2 * v.cap) data.length)
  if data.length ≤ v.cap then
    { v with outputBuff := v.outputBuff.map fun b => data ++ b.drop data.length }
  else if v.cap = 0 then { v with cap := grown, laidOver := false }
  else if inPlace then
    { v with outputBuff := v.outputBuff.map fun b => data.take b.length, cap := grown }
  else ⟨none, grown, false⟩

/-- The end of the block: the `Vec` gives back the memory of its elements.
SRC: client_proc.rs:42 -/
def drop (v : TmpVec) : Option Bytes :=
  if v.laidOver = true ∧ v.cap ≠ 0 then none else v.outputBuff

/-- INTERNAL: **the buffer is given back**, whether the data fit, and whatever the allocator does;
only a buffer without memory is not.
SRC: client_proc.rs:40-42 -/
theorem drop_extendFromSlice (outputBuff data : Bytes) (len : ℕ) (inPlace : Bool) :
    ((fromRawParts outputBuff len).extendFromSlice inPlace data).drop =
      if len = 0 then some outputBuff else none := by
  by_cases hzero : len = 0
  · subst hzero
    rw [if_pos rfl]
    by_cases hdata : data.length ≤ 0
    · obtain rfl := List.length_eq_zero_iff.mp (Nat.le_zero.mp hdata)
      simp [fromRawParts, extendFromSlice, drop]
    · simp [fromRawParts, extendFromSlice, drop, hdata]
  · rw [if_neg hzero]
    by_cases hdata : data.length ≤ len
    · simp [fromRawParts, extendFromSlice, drop, hdata, hzero]
    · cases inPlace <;> simp [fromRawParts, extendFromSlice, drop, hdata, hzero]

end TmpVec

/-- Whether the allocator enlarges the memory of a buffer where it is, for the reply to each
address. -/
abbrev Growth := Usize → Bytes → Bool

/-- `read_mem`, given what the response channel receives for a request: the buffer behind the call.
SRC: client_proc.rs:32-43 -/
def readMem (recv : Usize → ℕ → Option Bytes) (G : Growth) (addr : Usize) (len : ℕ)
    (outputBuff : Bytes) : Option Bytes :=
  match recv addr len with
  | some data => ((TmpVec.fromRawParts outputBuff len).extendFromSlice (G addr data) data).drop
  | none => some outputBuff

/-- A reply makes `read_mem` free the buffer, except where nothing was asked for. -/
theorem readMem_of_reply {recv : Usize → ℕ → Option Bytes} {addr : Usize} {len : ℕ} {data : Bytes}
    (h : recv addr len = some data) (G : Growth) (outputBuff : Bytes) :
    readMem recv G addr len outputBuff = if len = 0 then some outputBuff else none := by
  rw [readMem, h]
  exact TmpVec.drop_extendFromSlice outputBuff data len (G addr data)

/-! ## The reader of `async_decode` -/

/-- `dyn FnMut(&mut [u8], u64) -> usize` that may give the memory of the buffer back: the world
after the call, the buffer when there still is one, and the returned count. -/
structure RawReader (σ : Type) where
  call : σ → Bytes → Usize → σ × Option Bytes × ℕ
  length_call : ∀ w rst addr b, (call w rst addr).2.1 = some b → b.length = rst.length

/-- A reader that leaves its buffers alone. -/
def Reader.raw {σ : Type} (f : Reader σ) : RawReader σ where
  call w rst addr := ((f.call w rst addr).1, some (f.call w rst addr).2.1, (f.call w rst addr).2.2)
  length_call w rst addr _ h := (Option.some.inj h) ▸ f.length_call w rst addr

/-- The reader `async_decode` installs; it returns the length it was asked for.
SRC: decode_proc/mod.rs:110-118 -/
def asyncDecodeReader (recv : Usize → ℕ → Option Bytes) (G : Growth) : RawReader Unit where
  call w rst addr := (w, readMem recv G addr rst.length rst, rst.length)
  length_call w rst addr b h := by
    simp only [readMem] at h
    split at h
    · rw [TmpVec.drop_extendFromSlice] at h
      split at h
      · rw [Option.some.inj h]
      · cases h
    · rw [Option.some.inj h]

/-- The reader over a healthy connection: every request is answered by the agent. -/
def remoteReader (T : Target) (G : Growth) : RawReader Unit :=
  asyncDecodeReader (fun addr size => some (memReqArm T addr size)) G

/-- INTERNAL: **a call of the remote reader** gives the buffer back and returns its length.
SRC: decode_proc/mod.rs:110-118, client_proc.rs:32-43 -/
theorem remoteReader_call (T : Target) (G : Growth) (w : Unit) (rst : Bytes) (addr : Usize) :
    (remoteReader T G).call w rst addr =
      (w, if rst.length = 0 then some rst else none, rst.length) := by
  simp only [remoteReader, asyncDecodeReader]
  rw [readMem_of_reply rfl]

/-! ## The page cache over such a reader -/

namespace MemCacher

variable {σ : Type}

/-- `get_content_in_one_page` over a reader that may give its buffer back.  The box that was lent
is read behind the call, or dropped; the buffer that was lent is the one of the caller.
SRC: mem_cacher/mod.rs:35-68 -/
def getContentInOnePageWith (f : RawReader σ) (c : MemCacher σ) (w : σ) (rst : Bytes)
    (addr : Usize) : Except Fault (Got σ) :=
  let p := pageOf addr
  if c.lastPage = p then do
    let content ← c.lastDeref
    let (rst', r) ← getContentInCacheItem content addr rst
    .ok ⟨c, w, rst', r⟩
  else
    match c.cacheLst.lookup p with
    | some content => do
      let (rst', r) ← getContentInCacheItem content addr rst
      .ok ⟨c, w, rst', r⟩
    | none =>
      let whole := f.call w PageBuf.zeroed.val p
      match hwhole : whole.2.1 with
      | none => .error .dangling
      | some buff =>
        if whole.2.2 ≠ 4096 then
          let short := f.call whole.1 rst addr
          match short.2.1 with
          | none => .error .dangling
          | some rst' =>
            if short.2.2 ≠ rst.length then .ok ⟨c, short.1, rst', 0⟩
            else .ok ⟨c, short.1, rst', short.2.2⟩
        else do
          let tmpBuff : PageBuf :=
            ⟨buff, (f.length_call w PageBuf.zeroed.val p buff hwhole).trans PageBuf.zeroed.2⟩
          let (rst', r) ← getContentInCacheItem tmpBuff addr rst
          .ok ⟨{ c with lastContent := some p, cacheLst := c.cacheLst.insert p tmpBuff },
            whole.1, rst', r⟩

/-- `get_content` over such a reader.
SRC: mem_cacher/mod.rs:70-82 -/
def getContentWith (f : RawReader σ) (c : MemCacher σ) (w : σ) (rst : Bytes) (addr : Usize) :
    Except Fault (Got σ) :=
  let startAddr := pageOf addr
  if 2 ^ 64 ≤ addr.toNat + rst.length then .error .overflow
  else
    let endAddr := pageOf (addr + UInt64.ofNat rst.length)
    if startAddr = endAddr then c.getContentInOnePageWith f w rst addr
    else if endAddr < addr then .error .overflow
    else
      let firstPageSize := (endAddr - addr).toNat
      if rst.length < firstPageSize then .error .sliceOutOfRange
      else do
        let first ← c.getContentInOnePageWith f w (rst.take firstPageSize) addr
        let second ← first.cacher.getContentInOnePageWith f first.world (rst.drop firstPageSize)
          (addr + UInt64.ofNat firstPageSize)
        .ok ⟨second.cacher, second.world, first.rst ++ second.rst, first.count + second.count⟩

/-- INTERNAL: over a reader that leaves its buffers alone this is `get_content_in_one_page`. -/
theorem getContentInOnePageWith_raw {c : MemCacher σ} {f : Reader σ} (hf : c.f = some f) (w : σ)
    (rst : Bytes) (addr : Usize) :
    c.getContentInOnePageWith f.raw w rst addr = c.getContentInOnePage w rst addr := by
  simp only [getContentInOnePageWith, getContentInOnePage]
  split
  · rfl
  · cases hhit : c.cacheLst.lookup (pageOf addr) with
    | some content => rfl
    | none =>
      simp only [hf, Reader.raw]
      rfl

end MemCacher

end PtkGenerator

import PtkGenerator.Library.Ranges
import PtkGenerator.Model.Types

/-!
# The page cache

`MemCacher` keeps the pages of the target that were read.  The installed `f` is a closure that
may have a state of its own, so it is called on a world `σ` and gives the world after the call.
A `&mut [u8]` is a list whose length a call does not change (`Reader.length_call`).

`last_content` is an address in the source; here it is the page whose box it points to, or
null.  A read through a null or dangling pointer, a slice out of range and an overflow of
`usize` are faults.
-/

set_option autoImplicit false

namespace PtkGenerator

open Ranges

/-- `Box<[u8; 4096]>`. -/
abbrev PageBuf := { l : Bytes // l.length = 4096 }

/-- `Box::new([0 as u8; 4096])`. -/
def PageBuf.zeroed : PageBuf := ⟨List.replicate 4096 0, List.length_replicate⟩

/-- `dyn FnMut(&mut [u8], u64) -> usize`: the world after the call, the buffer after it and
the returned count. -/
structure Reader (σ : Type) where
  call : σ → Bytes → Usize → σ × Bytes × ℕ
  length_call : ∀ w rst addr, (call w rst addr).2.1.length = rst.length

/-- What stops the program. -/
inductive Fault where
  | nullDeref
  | dangling
  | sliceOutOfRange
  | overflow
  deriving DecidableEq

/-- A step that succeeds hands its value on. -/
@[simp] theorem ok_bind {α β : Type} (a : α) (f : α → Except Fault β) : .ok a >>= f = f a := rfl

/-- A fault goes through the steps behind it. -/
@[simp] theorem error_bind {α β : Type} (e : Fault) (f : α → Except Fault β) :
    .error e >>= f = .error e := rfl

/-- Two steps succeed if the first does and the second does with its value. -/
theorem bind_eq_ok {α β : Type} {x : Except Fault α} {f : α → Except Fault β} {b : β} :
    x >>= f = .ok b ↔ ∃ a, x = .ok a ∧ f a = .ok b := by
  cases x with
  | error e => exact ⟨fun h => (by cases h), fun ⟨a, h, _⟩ => (by cases h)⟩
  | ok a => exact ⟨fun h => ⟨a, rfl, h⟩, fun ⟨_, h, hf⟩ => Except.ok.inj h ▸ hf⟩

/-- `MemCacher`. -/
structure MemCacher (σ : Type) where
  cacheLst : HashMap Usize PageBuf
  lastPage : Usize
  lastContent : Option Usize
  f : Option (Reader σ)

/-- What a read leaves behind: the cacher, the world, the buffer and the returned count. -/
structure Got (σ : Type) where
  cacher : MemCacher σ
  world : σ
  rst : Bytes
  count : ℕ

namespace MemCacher

variable {σ : Type}

/-- `MemCacher::new`.
SRC: mem_cacher/mod.rs:12-19 -/
def new : MemCacher σ := ⟨∅, 0, none, none⟩

/-- `clear_data`.
SRC: mem_cacher/mod.rs:21-26 -/
def clearData (_ : MemCacher σ) : MemCacher σ := ⟨∅, 0, none, none⟩

/-- `cacher.f = Some(Box::new(f))`.
SRC: decode_proc/mod.rs:37, 119 -/
def install (c : MemCacher σ) (f : Reader σ) : MemCacher σ := { c with f := some f }

/-- The box `last_content` points to.
SRC: mem_cacher/mod.rs:39 -/
def lastDeref (c : MemCacher σ) : Except Fault PageBuf :=
  match c.lastContent with
  | none => .error .nullDeref
  | some q =>
    match c.cacheLst.lookup q with
    | none => .error .dangling
    | some content => .ok content

/-- The kept pointer reads the box of its page when that is in the cache. -/
theorem lastDeref_eq {c : MemCacher σ} {q : Usize} {content : PageBuf} (h : c.lastContent = some q)
    (hq : c.cacheLst.lookup q = some content) : c.lastDeref = .ok content := by
  simp only [lastDeref, h, hq]

/-- `get_content_in_cache_item`: the buffer filled from the page, and its length.
SRC: mem_cacher/mod.rs:28-33 -/
def getContentInCacheItem (content : PageBuf) (addr : Usize) (rst : Bytes) :
    Except Fault (Bytes × ℕ) :=
  let start := (offOf addr).toNat
  if start + rst.length ≤ 4096 then
    .ok ((content.val.drop start).take rst.length, rst.length)
  else .error .sliceOutOfRange

/-- `get_content_in_one_page`.
SRC: mem_cacher/mod.rs:35-68 -/
def getContentInOnePage (c : MemCacher σ) (w : σ) (rst : Bytes) (addr : Usize) :
    Except Fault (Got σ) :=
  let p := pageOf addr
  if c.lastPage = p then do
    let content ← c.lastDeref
    let (rst', r) ← getContentInCacheItem content addr rst
    .ok ⟨c, w, rst', r⟩
  else
    match c.cacheLst.lookup p with
    | some content => do
      let (rst', r) ← getContentInCacheItem content addr rst
      .ok ⟨c, w, rst', r⟩
    | none =>
      match c.f with
      | none => .ok ⟨c, w, rst, 0⟩
      | some f =>
        let whole := f.call w PageBuf.zeroed.val p
        if whole.2.2 ≠ 4096 then
          let short := f.call whole.1 rst addr
          if short.2.2 ≠ rst.length then .ok ⟨c, short.1, short.2.1, 0⟩
          else .ok ⟨c, short.1, short.2.1, short.2.2⟩
        else do
          let tmpBuff : PageBuf := ⟨whole.2.1, by rw [f.length_call]; exact PageBuf.zeroed.2⟩
          let (rst', r) ← getContentInCacheItem tmpBuff addr rst
          -- `last_content` is set, `last_page` is not
          .ok ⟨{ c with lastContent := some p, cacheLst := c.cacheLst.insert p tmpBuff },
            whole.1, rst', r⟩

/-- `get_content_in_one_page` up to the insertion into the cache: the result, or a page that `f`
read and that is still in hand.
SRC: mem_cacher/mod.rs:35-57 -/
def fetchOnePage (c : MemCacher σ) (w : σ) (rst : Bytes) (addr : Usize) :
    Except Fault (Got σ ⊕ PageBuf × σ) :=
  let p := pageOf addr
  if c.lastPage = p then do
    let content ← c.lastDeref
    let (rst', r) ← getContentInCacheItem content addr rst
    .ok (.inl ⟨c, w, rst', r⟩)
  else
    match c.cacheLst.lookup p with
    | some content => do
      let (rst', r) ← getContentInCacheItem content addr rst
      .ok (.inl ⟨c, w, rst', r⟩)
    | none =>
      match c.f with
      | none => .ok (.inl ⟨c, w, rst, 0⟩)
      | some f =>
        let whole := f.call w PageBuf.zeroed.val p
        if whole.2.2 ≠ 4096 then
          let short := f.call whole.1 rst addr
          if short.2.2 ≠ rst.length then .ok (.inl ⟨c, short.1, short.2.1, 0⟩)
          else .ok (.inl ⟨c, short.1, short.2.1, short.2.2⟩)
        else .ok (.inr (⟨whole.2.1, by rw [f.length_call]; exact PageBuf.zeroed.2⟩, whole.1))

/-- The page in hand goes into the cache.
SRC: mem_cacher/mod.rs:58-62 -/
def storePage (c : MemCacher σ) (tmpBuff : PageBuf) (w : σ) (rst : Bytes) (addr : Usize) :
    Except Fault (Got σ) := do
  let (rst', r) ← getContentInCacheItem tmpBuff addr rst
  .ok ⟨{ c with
      lastContent := some (pageOf addr)
      cacheLst := c.cacheLst.insert (pageOf addr) tmpBuff }, w, rst', r⟩

/-- `get_content`: in one page, or split at the page that contains the address after the last
byte.  The additions and the subtraction are checked, as in a debug build.
SRC: mem_cacher/mod.rs:70-82 -/
def getContent (c : MemCacher σ) (w : σ) (rst : Bytes) (addr : Usize) : Except Fault (Got σ) :=
  let startAddr := pageOf addr
  if 2 ^ 64 ≤ addr.toNat + rst.length then .error .overflow
  else
    let endAddr := pageOf (addr + UInt64.ofNat rst.length)
    if startAddr = endAddr then c.getContentInOnePage w rst addr
    else if endAddr < addr then .error .overflow
    else
      let firstPageSize := (endAddr - addr).toNat
      if rst.length < firstPageSize then .error .sliceOutOfRange
      else do
        let first ← c.getContentInOnePage w (rst.take firstPageSize) addr
        let second ← first.cacher.getContentInOnePage first.world (rst.drop firstPageSize)
          (addr + UInt64.ofNat firstPageSize)
        .ok ⟨second.cacher, second.world, first.rst ++ second.rst, first.count + second.count⟩

/-- A read in the page of the last one goes through the kept pointer. -/
theorem getContentInOnePage_fast {c : MemCacher σ} {w : σ} {rst rst' : Bytes} {addr : Usize} {r : ℕ}
    {content : PageBuf} (hlast : c.lastPage = pageOf addr) (hd : c.lastDeref = .ok content)
    (hi : getContentInCacheItem content addr rst = .ok (rst', r)) :
    c.getContentInOnePage w rst addr = .ok ⟨c, w, rst', r⟩ := by
  rw [getContentInOnePage, if_pos hlast]
  exact bind_eq_ok.mpr ⟨content, hd, bind_eq_ok.mpr ⟨_, hi, rfl⟩⟩

/-- A read in a cached page is answered from the cache. -/
theorem getContentInOnePage_hit {c : MemCacher σ} {w : σ} {rst rst' : Bytes} {addr : Usize} {r : ℕ}
    {content : PageBuf} (hlast : c.lastPage ≠ pageOf addr)
    (hhit : c.cacheLst.lookup (pageOf addr) = some content)
    (hi : getContentInCacheItem content addr rst = .ok (rst', r)) :
    c.getContentInOnePage w rst addr = .ok ⟨c, w, rst', r⟩ := by
  simp only [getContentInOnePage, if_neg hlast, hhit]
  exact bind_eq_ok.mpr ⟨_, hi, rfl⟩

/-- A read in a page that the reader reads as a whole stores the page and is answered from it. -/
theorem getContentInOnePage_miss {c : MemCacher σ} {w w' : σ} {rst rst' : Bytes} {addr : Usize}
    {r : ℕ} {f : Reader σ} {content : PageBuf} (hlast : c.lastPage ≠ pageOf addr)
    (hmiss : c.cacheLst.lookup (pageOf addr) = none) (hf : c.f = some f)
    (hw : f.call w PageBuf.zeroed.val (pageOf addr) = (w', content.val, 4096))
    (hi : getContentInCacheItem content addr rst = .ok (rst', r)) :
    c.getContentInOnePage w rst addr =
      .ok ⟨{ c with lastContent := some (pageOf addr),
                    cacheLst := c.cacheLst.insert (pageOf addr) content }, w', rst', r⟩ := by
  simp only [getContentInOnePage, if_neg hlast, hmiss, hf, hw, ne_eq, not_true, if_false,
    Subtype.coe_eta]
  rw [hi]
  rfl

/-- INTERNAL: **the two steps of a read**, one behind the other, are `get_content_in_one_page`. -/
theorem getContentInOnePage_eq_store (c : MemCacher σ) (w : σ) (rst : Bytes) (addr : Usize) :
    c.getContentInOnePage w rst addr = c.fetchOnePage w rst addr >>= fun
      | .inl g => .ok g
      | .inr (tmpBuff, w') => c.storePage tmpBuff w' rst addr := by
  simp only [getContentInOnePage, fetchOnePage]
  by_cases hlast : c.lastPage = pageOf addr
  · simp only [if_pos hlast]
    cases c.lastDeref with
    | error e => rfl
    | ok content =>
      simp only [ok_bind]
      cases getContentInCacheItem content addr rst <;> rfl
  · simp only [if_neg hlast]
    cases c.cacheLst.lookup (pageOf addr) with
    | some content =>
      simp only
      cases getContentInCacheItem content addr rst <;> rfl
    | none =>
      cases hf : c.f with
      | none => rfl
      | some f =>
        simp only
        split
        · split <;> rfl
        · simp only [ok_bind, storePage, hf]

/-- A read that ends in its first page is one of `get_content_in_one_page`. -/
theorem getContent_onePage (c : MemCacher σ) (w : σ) {rst : Bytes} {addr : Usize}
    (hover : addr.toNat + rst.length < 2 ^ 64)
    (hpage : pageOf addr = pageOf (addr + UInt64.ofNat rst.length)) :
    c.getContent w rst addr = c.getContentInOnePage w rst addr := by
  rw [getContent, if_neg (not_le.mpr hover), if_pos hpage]

end MemCacher

/-! ## The memory behind the reader -/

/-- The memory of the target: the readable addresses and their bytes. -/
abbrev Memory := ℕ → Option UInt8

/-- What `f` is for: it fills the buffer and returns its length when the whole range is
readable, and returns 0 otherwise. -/
def Reader.Reads {σ : Type} (mem : Memory) (f : Reader σ) : Prop :=
  ∀ w rst addr, match readRange mem addr.toNat rst.length with
    | some l => (f.call w rst addr).2 = (l, rst.length)
    | none => (f.call w rst addr).2.2 = 0

/-- As much of `Reader.Reads` as the cache makes use of: pages read as a whole, and parts of
pages that cannot be read as a whole. -/
structure Reader.Serves {σ : Type} (mem : Memory) (f : Reader σ) : Prop where
  whole : ∀ w p l, pageOf p = p → readRange mem p.toNat 4096 = some l →
    (f.call w PageBuf.zeroed.val p).2 = (l, 4096)
  whole_fails : ∀ w p, pageOf p = p → readRange mem p.toNat 4096 = none →
    (f.call w PageBuf.zeroed.val p).2.2 = 0
  part : ∀ w rst addr l, rst.length ≤ 4096 → readRange mem (pageOf addr).toNat 4096 = none →
    readRange mem addr.toNat rst.length = some l → (f.call w rst addr).2 = (l, rst.length)
  part_fails : ∀ w rst addr, rst.length ≤ 4096 → readRange mem (pageOf addr).toNat 4096 = none →
    readRange mem addr.toNat rst.length = none → (f.call w rst addr).2.2 = 0

/-- A reader that reads what the memory has serves the memory. -/
theorem Reader.Reads.serves {σ : Type} {mem : Memory} {f : Reader σ} (h : f.Reads mem) :
    f.Serves mem := by
  have hsome : ∀ w rst addr l, readRange mem addr.toNat rst.length = some l →
      (f.call w rst addr).2 = (l, rst.length) := by
    intro w rst addr l hl
    have := h w rst addr
    rwa [hl] at this
  have hnone : ∀ w rst addr, readRange mem addr.toNat rst.length = none →
      (f.call w rst addr).2.2 = 0 := by
    intro w rst addr hl
    have := h w rst addr
    rwa [hl] at this
  refine ⟨?_, ?_, fun w rst addr l _ _ => hsome w rst addr l,
    fun w rst addr _ _ => hnone w rst addr⟩
  · intro w p l _ hl
    rw [hsome w PageBuf.zeroed.val p l (by rw [PageBuf.zeroed.2]; exact hl), PageBuf.zeroed.2]
  · intro w p _ hl
    exact hnone w PageBuf.zeroed.val p (by rw [PageBuf.zeroed.2]; exact hl)

/-- The reader that reads the memory as it is. -/
def Reader.ofMemory {σ : Type} (mem : Memory) : Reader σ where
  call w rst addr :=
    match readRange mem addr.toNat rst.length with
    | some l => (w, l, rst.length)
    | none => (w, rst, 0)
  length_call w rst addr := by
    cases h : readRange mem addr.toNat rst.length with
    | none => rfl
    | some l => exact length_of_readRange mem h

/-- The reader made of a memory reads what the memory has. -/
theorem Reader.ofMemory_reads {σ : Type} (mem : Memory) :
    (Reader.ofMemory mem : Reader σ).Reads mem := by
  intro w rst addr
  cases h : readRange mem addr.toNat rst.length <;> simp [Reader.ofMemory, h]

end PtkGenerator

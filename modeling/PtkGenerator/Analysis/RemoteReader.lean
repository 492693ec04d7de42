import PtkGenerator.Analysis.CacheTransparency
import PtkGenerator.Model.ReadMem

/-!
# The remote reader against the local one

The driver serves the memory of the target, so the page cache over `decode`'s closure answers every
call as an uncached read does.  The closure of `async_decode` gives the memory of the box that it
was lent back to the allocator, whether the page is readable or not.  The cacher reads the box
behind the call, so it does not get to cache a page: it stays empty up to its first call, which is
its last (`Empty`).  The two paths agree on no call at all (`remote_agrees_iff`).
-/

set_option autoImplicit false

namespace PtkGenerator

open Ranges

/-! ## What each reader serves -/

/-- The driver fills the buffer when all of it is readable, and leaves it alone otherwise. -/
theorem decodeCall_eq (T : Target) {rst : Bytes} (addr : Usize) (h : rst.length ≤ 4096) :
    decodeCall T rst addr =
      match readRange T.mem addr.toNat rst.length with
      | some l => (l, rst.length)
      | none => (rst, 0) := by
  have hlen : (UInt16.ofNat rst.length).toNat = rst.length := by
    rw [UInt16.toNat_ofNat', Nat.mod_eq_of_lt (by omega)]
  rw [decodeCall, readProcessMemoryDrv, hlen]
  cases readRange T.mem addr.toNat rst.length with
  | none => simp
  | some l => simp

/-- The reader of `decode` calls the driver. -/
theorem decodeReader_call (T : Target) (w : Unit) (rst : Bytes) (addr : Usize) :
    ((decodeReader T).call w rst addr).2 = decodeCall T rst addr := rfl

/-- The reader of `decode` serves the memory of the target. -/
theorem decodeReader_serves (T : Target) : (decodeReader T).Serves T.mem := by
  have hzeroed : PageBuf.zeroed.val.length = 4096 := PageBuf.zeroed.2
  refine ⟨?_, ?_, ?_, ?_⟩
  · intro w p l _ hr
    rw [decodeReader_call, decodeCall_eq T p hzeroed.le, hzeroed, hr]
  · intro w p _ hr
    rw [decodeReader_call, decodeCall_eq T p hzeroed.le, hzeroed, hr]
  · intro w rst addr l hlen _ hr
    rw [decodeReader_call, decodeCall_eq T addr hlen, hr]
  · intro w rst addr hlen _ hr
    rw [decodeReader_call, decodeCall_eq T addr hlen, hr]

/-- A cacher that has cached nothing. -/
structure MemCacher.Empty {σ : Type} (c : MemCacher σ) : Prop where
  cacheLst : c.cacheLst = ∅
  lastPage : c.lastPage = 0
  lastContent : c.lastContent = none

/-- A new cacher is empty. -/
theorem MemCacher.Empty.new {σ : Type} : (MemCacher.new : MemCacher σ).Empty := ⟨rfl, rfl, rfl⟩

/-- A cleared cacher is empty. -/
theorem MemCacher.Empty.clearData {σ : Type} (c : MemCacher σ) : c.clearData.Empty :=
  ⟨rfl, rfl, rfl⟩

/-- INTERNAL: **a page over the remote reader**: the box is read when its memory was given back.
Page 0 is not asked for, and its pointer is null.
SRC: mem_cacher/mod.rs:35-68, client_proc.rs:40-42 -/
theorem MemCacher.Empty.getContentInOnePageWith {c : MemCacher Unit} (h : c.Empty) (T : Target)
    (G : Growth) (w : Unit) (rst : Bytes) (addr : Usize) :
    c.getContentInOnePageWith (remoteReader T G) w rst addr =
      .error (if pageOf addr = 0 then .nullDeref else .dangling) := by
  rw [MemCacher.getContentInOnePageWith, h.lastPage]
  by_cases hpage : pageOf addr = 0
  · rw [if_pos hpage.symm, if_pos hpage, MemCacher.lastDeref, h.lastContent]
    rfl
  · rw [if_neg (Ne.symm hpage), if_neg hpage, h.cacheLst, Finmap.lookup_empty]
    have hzeroed : PageBuf.zeroed.val.length ≠ 0 := by rw [PageBuf.zeroed.2]; decide
    simp only
    split
    · rfl
    · next buff hwhole =>
      rw [remoteReader_call, if_neg hzeroed] at hwhole
      cases hwhole

/-- INTERNAL: **every call over the remote reader faults**, and one outside of page 0 at the memory
that was given back.
SRC: mem_cacher/mod.rs:70-82, decode_proc/mod.rs:110-121 -/
theorem MemCacher.Empty.getContentWith {c : MemCacher Unit} (h : c.Empty) (T : Target) (G : Growth)
    (w : Unit) (rst : Bytes) (addr : Usize) :
    ∃ e, c.getContentWith (remoteReader T G) w rst addr = .error e ∧
      (4096 ≤ addr.toNat → addr.toNat + rst.length < 2 ^ 64 → e = .dangling) := by
  have hpage : 4096 ≤ addr.toNat → pageOf addr ≠ 0 := fun hp => by
    rw [Ne, pageOf_eq_zero_iff]
    omega
  rw [MemCacher.getContentWith]
  simp only [h.getContentInOnePageWith T G w]
  by_cases hover : 2 ^ 64 ≤ addr.toNat + rst.length
  · exact ⟨.overflow, if_pos hover, fun _ hlt => absurd hlt (not_lt.mpr hover)⟩
  · rw [if_neg hover]
    by_cases hone : pageOf addr = pageOf (addr + UInt64.ofNat rst.length)
    · exact ⟨_, if_pos hone, fun hp _ => if_neg (hpage hp)⟩
    · rw [if_neg hone]
      rcases MemCacher.parts_cases (not_le.mp hover) with
        ⟨hin, -⟩ | ⟨-, hlt, hfirst, hle, -, -, -, -⟩
      · exact absurd (MemCacher.pageOf_end_eq (not_le.mp hover) hin) hone
      · rw [if_neg hlt, hfirst, if_neg (not_lt.mpr hle)]
        exact ⟨_, error_bind _ _, fun hp _ => if_neg (hpage hp)⟩

/-! ## A sequence of calls -/

/-- A call the claim on the two readers ranges over: it does not touch page 0. -/
abbrev MappedCall := { q : ReadCall // 4096 ≤ q.addr.toNat }

/-- What one cacher returns at each of a sequence of calls. -/
def MemCacher.reads {σ : Type} (getContent : MemCacher σ → σ → Bytes → Usize → Except Fault (Got σ))
    (c : MemCacher σ) (w : σ) : List MappedCall → Except Fault (List (Got σ))
  | [] => .ok []
  | q :: qs => do
    let g ← getContent c w q.val.rst q.val.addr
    let gs ← g.cacher.reads getContent g.world qs
    .ok (g :: gs)

/-- A call was answered as an uncached read of `mem` answers it. -/
def ServedAs {σ : Type} (mem : Memory) (q : ReadCall) (g : Got σ) : Prop :=
  g.rst.length = q.rst.length ∧
    ((g.count = q.rst.length ∧ readRange mem q.addr.toNat q.rst.length = some g.rst) ∨
      (g.count < q.rst.length ∧ readRange mem q.addr.toNat q.rst.length = none))

/-- INTERNAL: **every call of a sequence is answered as an uncached read.**
SRC: mem_cacher/mod.rs:70-82 -/
theorem reads_spec {σ : Type} {mem : Memory} {c : MemCacher σ} (h : CacheInv mem c)
    (hf : c.f.isSome = true) (w : σ) (qs : List MappedCall) :
    ∃ gs, c.reads MemCacher.getContent w qs = .ok gs ∧
      List.Forall₂ (fun q g => ServedAs mem q.val g) qs gs := by
  induction qs generalizing c w with
  | nil => exact ⟨[], rfl, .nil⟩
  | cons q qs ih =>
    obtain ⟨g, hg, hinv, hfg, hlen, hans⟩ := getContent_spec h w q.val q.2
    obtain ⟨gs, hgs, hall⟩ := ih hinv (by rw [hfg, hf]) g.world
    refine ⟨g :: gs, ?_, .cons ⟨hlen, ?_⟩ hall⟩
    · unfold MemCacher.reads
      exact bind_eq_ok.mpr ⟨g, hg, bind_eq_ok.mpr ⟨gs, hgs, rfl⟩⟩
    · rcases hans with hfull | ⟨hlt, hnone⟩
      · exact .inl hfull
      · exact .inr ⟨hlt, hnone hf⟩

/-- The calls on the path of `decode`. -/
def localReads (T : Target) (calls : List MappedCall) : Except Fault (List (Got Unit)) :=
  (MemCacher.new.install (decodeReader T)).reads MemCacher.getContent () calls

/-- The calls on the path of `async_decode`. -/
def remoteReads (T : Target) (G : Growth) (calls : List MappedCall) :
    Except Fault (List (Got Unit)) :=
  MemCacher.new.reads (MemCacher.getContentWith (remoteReader T G)) () calls

/-! ## Agreement -/

/-- The same count and the same contents in the counted bytes. -/
def SameRead (l r : Got Unit) : Prop :=
  l.count = r.count ∧ l.rst.take l.count = r.rst.take r.count

/-- Both paths answer every call, and at each call they agree. -/
def RemoteAgrees (T : Target) (G : Growth) (calls : List MappedCall) : Prop :=
  ∃ ls rs, localReads T calls = .ok ls ∧ remoteReads T G calls = .ok rs ∧
    List.Forall₂ SameRead ls rs

/-- INTERNAL: **the first call is the last** on the path of `async_decode`.
SRC: decode_proc/mod.rs:110-121; client_proc.rs:32-43 -/
theorem remoteReads_cons (T : Target) (G : Growth) (q : MappedCall) (qs : List MappedCall) :
    remoteReads T G (q :: qs) = .error .dangling := by
  obtain ⟨e, he, hdangling⟩ :=
    MemCacher.Empty.new.getContentWith T G () q.val.rst q.val.addr
  rw [hdangling q.2 q.val.no_wrap] at he
  rw [remoteReads, MemCacher.reads, he]
  rfl

/-- MAIN: **where the remote reader agrees with the local one**: nowhere.  For every target, every
behaviour of the allocator and every sequence of calls, the path of `decode` answers every call as
an uncached read of the target; the path of `async_decode` faults at its first call, whatever is
readable.
SRC: decode_proc/mod.rs:30-39, 110-121; client_proc.rs:32-43; client_agent.rs:125-138 -/
theorem remote_agrees_iff (T : Target) (G : Growth) (calls : List MappedCall) :
    (∃ ls, localReads T calls = .ok ls ∧
      List.Forall₂ (fun q l => ServedAs T.mem q.val l) calls ls) ∧
    (calls ≠ [] → remoteReads T G calls = .error .dangling) ∧
    (RemoteAgrees T G calls ↔ calls = []) := by
  obtain ⟨ls, hls, hl⟩ := reads_spec
    ((CacheInv.new T.mem).install (decodeReader_serves T)) rfl () calls
  refine ⟨⟨ls, hls, hl⟩, ?_, ?_⟩
  · intro hne
    obtain ⟨q, qs, rfl⟩ := List.exists_cons_of_ne_nil hne
    exact remoteReads_cons T G q qs
  · constructor
    · rintro ⟨ls, rs, -, hrs, -⟩
      cases calls with
      | nil => rfl
      | cons q qs =>
        rw [remoteReads_cons] at hrs
        cases hrs
    · rintro rfl
      exact ⟨[], [], rfl, rfl, .nil⟩

/-- The sevens are readable page by page. -/
theorem sevens_pages (a b : ℕ) (h : a / 4096 = b / 4096) (hread : (sevens a).isSome) :
    (sevens b).isSome := by
  rw [sevens] at hread ⊢
  by_cases ha : 4096 ≤ a ∧ a < 8192
  · rw [if_pos ⟨by omega, by omega⟩]
    rfl
  · rw [if_neg ha] at hread
    cases hread

/-- The target with the page of sevens. -/
def sevensTarget : Target := ⟨sevens, sevens_pages⟩

/-- MAIN: the paths do not agree on one byte of a readable page, also where the allocator enlarges
the memory of the box in place.
SRC: client_proc.rs:40-42; mem_cacher/mod.rs:46-59 -/
theorem readable_byte_differs :
    ¬ ∀ (T : Target) (G : Growth) (calls : List MappedCall), RemoteAgrees T G calls := by
  intro hall
  obtain ⟨_, rs, -, hrs, -⟩ :=
    hall sevensTarget (fun _ _ => true) [⟨oneByte 0x1000 (by decide), by decide⟩]
  rw [remoteReads_cons] at hrs
  cases hrs

end PtkGenerator

import PtkGenerator.Analysis.ReadPrefix

/-!
# How long a request may be

A request is split once, in front of the page that contains the address after its last byte.  So
its two parts lie in one page each as long as that page is the second one; if it is a later one, the
first part runs over its page, and the slice of that page is out of range.
-/

set_option autoImplicit false

namespace PtkGenerator

open Ranges

variable {σ : Type} {mem : Memory}

/-! ## Parts of readable pages -/

/-- The reads of whole pages among the calls succeed. -/
def WholeReads (calls : List ReaderCall) : Prop := ∀ e ∈ calls, e.whole = true → e.count = 4096

/-- When the read of the whole page succeeds, if there is one, the page can be read. -/
theorem readable_of_wholeReads {c : MemCacher σ} (h : CacheInv mem c) (hf : c.f.isSome = true)
    {w : σ} {rst : Bytes} {addr : Usize} (hp : pageOf addr ≠ 0)
    (hwhole : WholeReads (c.onePageCalls w rst addr)) :
    (readRange mem (pageOf addr).toNat 4096).isSome := by
  have hlast : c.lastPage ≠ pageOf addr := by
    rw [h.lastPage]
    exact hp.symm
  obtain ⟨f, hsome⟩ := Option.isSome_iff_exists.mp hf
  cases hlookup : c.cacheLst.lookup (pageOf addr) with
  | some content =>
    rw [h.pages _ _ hlookup]
    rfl
  | none =>
    have hcall : (f.call w PageBuf.zeroed.val (pageOf addr)).2.2 = 4096 := by
      apply hwhole ⟨true, pageOf addr, 4096, _, c.cacheLst⟩ _ rfl
      simp only [MemCacher.onePageCalls, if_neg hlast, hlookup, hsome]
      split
      · exact List.mem_cons_self
      · exact List.mem_cons_self
    by_contra hnone
    rw [(h.reader f hsome).whole_fails w (pageOf addr) (pageOf_pageOf addr)
      (Option.not_isSome_iff_eq_none.mp hnone)] at hcall
    cases hcall

/-- A part of a readable page is read. -/
theorem getContentInOnePage_readable {c : MemCacher σ} (h : CacheInv mem c)
    (hf : c.f.isSome = true) {w : σ} {rst : Bytes} {addr : Usize} (hp : pageOf addr ≠ 0)
    (hlen : (offOf addr).toNat + rst.length ≤ 4096)
    (hread : (readRange mem (pageOf addr).toNat 4096).isSome) :
    ∃ g, c.getContentInOnePage w rst addr = .ok g ∧ CacheInv mem g.cacher ∧ g.cacher.f = c.f ∧
      g.count = rst.length ∧ readRange mem addr.toNat rst.length = some g.rst := by
  obtain ⟨g, hg, hinv, hgf, -, hans⟩ := getContentInOnePage_spec h w rst hp hlen
  obtain ⟨l, hl⟩ := Option.isSome_iff_exists.mp hread
  have hslice := readRange_slice mem hl hlen
  rw [pageOf_add_offOf] at hslice
  rcases hans with ⟨hc, hr⟩ | ⟨-, hnone⟩
  · exact ⟨g, hg, hinv, hgf, hc, hr⟩
  · rw [hnone hf] at hslice
    cases hslice

/-- A part that runs over the end of a readable page is a slice out of range. -/
theorem getContentInOnePage_outOfRange {c : MemCacher σ} (h : CacheInv mem c)
    (hf : c.f.isSome = true) {w : σ} {rst : Bytes} {addr : Usize} (hp : pageOf addr ≠ 0)
    (hlen : 4096 < (offOf addr).toNat + rst.length)
    (hread : (readRange mem (pageOf addr).toNat 4096).isSome) :
    c.getContentInOnePage w rst addr = .error .sliceOutOfRange := by
  have hlast : c.lastPage ≠ pageOf addr := by
    rw [h.lastPage]
    exact hp.symm
  have hitem : ∀ content : PageBuf,
      MemCacher.getContentInCacheItem content addr rst = .error .sliceOutOfRange := by
    intro content
    rw [MemCacher.getContentInCacheItem, if_neg (not_le.mpr hlen)]
  obtain ⟨f, hsome⟩ := Option.isSome_iff_exists.mp hf
  obtain ⟨l, hl⟩ := Option.isSome_iff_exists.mp hread
  have hwhole : (f.call w PageBuf.zeroed.val (pageOf addr)).2.2 = 4096 := by
    rw [(h.reader f hsome).whole w (pageOf addr) l (pageOf_pageOf addr) hl]
  simp only [MemCacher.getContentInOnePage, if_neg hlast, hitem, error_bind]
  cases c.cacheLst.lookup (pageOf addr) with
  | some content => rfl
  | none =>
    simp only [hsome]
    rw [if_neg (not_not.mpr hwhole)]

/-- INTERNAL: **parts within readable pages** are read one after the other.
SRC: mem_cacher/mod.rs:35-82 -/
theorem getContentInParts_readable {c : MemCacher σ} (h : CacheInv mem c)
    (hf : c.f.isSome = true) {w : σ} {ps : List (Usize × Bytes)} {a n : ℕ}
    (htiles : Tiles a n (ps.map fun p => (p.1.toNat, p.2.length)))
    (hps : ∀ p ∈ ps, pageOf p.1 ≠ 0 ∧ (offOf p.1).toNat + p.2.length ≤ 4096)
    (hwhole : WholeReads (c.partsCalls w ps)) :
    ∃ g, c.getContentInParts w ps = .ok g ∧ g.count = n ∧ readRange mem a n = some g.rst := by
  induction ps generalizing c w a n with
  | nil =>
    obtain rfl : n = 0 := htiles
    exact ⟨_, rfl, rfl, rfl⟩
  | cons p ps ih =>
    obtain ⟨addr, rst⟩ := p
    obtain ⟨rfl, hle, htail⟩ := htiles
    dsimp only at hle htail
    obtain ⟨hp, hlen⟩ := hps (addr, rst) List.mem_cons_self
    have hfirst : WholeReads (c.onePageCalls w rst addr) := fun e he =>
      hwhole e (List.mem_append_left _ he)
    obtain ⟨g₁, hg₁, hinv, hgf, hc₁, hr₁⟩ := getContentInOnePage_readable (w := w) h hf hp hlen
      (readable_of_wholeReads h hf hp hfirst)
    have hrest : WholeReads (g₁.cacher.partsCalls g₁.world ps) := by
      intro e he
      apply hwhole e
      simp only [MemCacher.partsCalls, hg₁]
      exact List.mem_append_right _ he
    obtain ⟨g₂, hg₂, hc₂, hr₂⟩ := ih hinv (by rw [hgf]; exact hf) htail
      (fun p hm => hps p (List.mem_cons_of_mem _ hm)) hrest
    refine ⟨⟨g₂.cacher, g₂.world, g₁.rst ++ g₂.rst, g₁.count + g₂.count⟩, ?_, ?_, ?_⟩
    · exact bind_eq_ok.mpr ⟨g₁, hg₁, bind_eq_ok.mpr ⟨g₂, hg₂, rfl⟩⟩
    · show g₁.count + g₂.count = n
      rw [hc₁, hc₂, Nat.add_sub_cancel' hle]
    · have hboth := readRange_append mem hr₁ hr₂
      rwa [Nat.add_sub_cancel' hle] at hboth

/-! ## The split -/

/-- The pieces of a range of `n` bytes from `addr` on: they follow each other, cover the range, do
not overlap, and each lies in one page. -/
structure SplitAtPages (addr n : ℕ) (ps : List (ℕ × ℕ)) : Prop where
  adjacent : Tiles addr n ps
  cover : ∀ x, (addr ≤ x ∧ x < addr + n) ↔ ∃ p ∈ ps, p.1 ≤ x ∧ x < p.1 + p.2
  disjoint : ps.Pairwise fun p q => p.1 + p.2 ≤ q.1
  inOnePage : ∀ p ∈ ps, p.1 % 4096 + p.2 ≤ 4096

/-- The parts of a request are its pieces in its two pages. -/
theorem parts_splitAtPages {rst : Bytes} {addr : Usize} (hw : addr.toNat + rst.length < 2 ^ 64)
    (hlt : addr.toNat % 4096 + rst.length < 8192) :
    SplitAtPages addr.toNat rst.length
      ((MemCacher.parts rst addr).map fun p => (p.1.toNat, p.2.length)) := by
  have hall : Tiles addr.toNat rst.length
        ((MemCacher.parts rst addr).map fun p => (p.1.toNat, p.2.length)) ∧
      ∀ p ∈ (MemCacher.parts rst addr).map fun p => (p.1.toNat, p.2.length),
        p.1 % 4096 + p.2 ≤ 4096 := by
    rcases MemCacher.parts_cases hw with ⟨hone, hparts⟩ | ⟨htwo, -, -, hle, -, -, -, hparts⟩
    · rw [offOf_toNat] at hone
      rw [hparts, List.map_singleton, List.forall_mem_singleton]
      exact ⟨⟨rfl, le_rfl, Nat.sub_self _⟩, hone.le⟩
    · rw [offOf_toNat] at htwo
      have hsize : addr.toNat % 4096 + MemCacher.firstPageSize addr rst.length = 4096 := by
        rw [MemCacher.firstPageSize]
        omega
      have hadd := MemCacher.toNat_addr_add hw hle
      rw [hparts, List.map_cons, List.map_singleton, List.forall_mem_cons,
        List.forall_mem_singleton, List.length_take, List.length_drop, hadd, min_eq_left hle]
      exact ⟨⟨rfl, hle, rfl, le_rfl, Nat.sub_self _⟩, by dsimp only; omega, by dsimp only; omega⟩
  exact ⟨hall.1, hall.1.mem_iff, hall.1.pairwise, hall.2⟩

/-- The subtraction in front of the split does not underflow. -/
theorem le_pageOf_end {addr : Usize} {n : ℕ} (hw : addr.toNat + n < 2 ^ 64)
    (hne : pageOf addr ≠ pageOf (addr + UInt64.ofNat n)) :
    addr ≤ pageOf (addr + UInt64.ofNat n) := by
  have hend := pageOf_toNat (addr + UInt64.ofNat n)
  rw [MemCacher.toNat_addr_add hw le_rfl] at hend
  rw [UInt64.le_iff_toNat_le, hend]
  by_contra hlt
  apply hne
  apply UInt64.toNat.inj
  rw [pageOf_toNat, hend]
  omega

section Request

variable {c : MemCacher σ} {w : σ} {rst : Bytes} {addr : Usize}

/-- INTERNAL: **a request of pages that can be read**, up to the end of the second one, is read.
SRC: mem_cacher/mod.rs:70-82 -/
theorem getContent_readable (h : CacheInv mem c) (hf : c.f.isSome = true)
    (hp : 4096 ≤ addr.toNat) (hw : addr.toNat + rst.length < 2 ^ 64)
    (hwhole : WholeReads (c.getContentCalls w rst addr))
    (hlt : addr.toNat % 4096 + rst.length < 8192) :
    ∃ g, c.getContent w rst addr = .ok g ∧ g.count = rst.length ∧
      readRange mem addr.toNat rst.length = some g.rst := by
  have hsplit := parts_splitAtPages hw hlt
  rw [MemCacher.getContent_eq_parts c w hw]
  refine getContentInParts_readable h hf hsplit.adjacent (fun p hm => ⟨?_, ?_⟩) hwhole
  · exact pageOf_ne_zero_of_mem_parts hw hp p hm
  · rw [offOf_toNat]
    exact hsplit.inOnePage _ (List.mem_map_of_mem hm)

/-- INTERNAL: **a longer request** has a first part that runs over the end of its page.
SRC: mem_cacher/mod.rs:28-33, 77-78 -/
theorem getContent_outOfRange (h : CacheInv mem c) (hf : c.f.isSome = true)
    (hp : 4096 ≤ addr.toNat) (hw : addr.toNat + rst.length < 2 ^ 64)
    (hwhole : WholeReads (c.getContentCalls w rst addr))
    (hge : 8192 ≤ addr.toNat % 4096 + rst.length) :
    c.getContent w rst addr = .error .sliceOutOfRange := by
  have hne := pageOf_ne_zero_of_mem_parts hw hp
  rw [MemCacher.getContent_eq_parts c w hw]
  rcases MemCacher.parts_cases hw with ⟨hone, -⟩ | ⟨-, -, -, hle, -, -, -, hparts⟩
  · rw [offOf_toNat] at hone
    omega
  · rw [hparts] at hne ⊢
    rw [MemCacher.getContentCalls, hparts] at hwhole
    have hfirst : WholeReads (c.onePageCalls w
        (rst.take (MemCacher.firstPageSize addr rst.length)) addr) := fun e he =>
      hwhole e (List.mem_append_left _ he)
    have hpage := hne _ List.mem_cons_self
    have hlen : 4096 < (offOf addr).toNat +
        (rst.take (MemCacher.firstPageSize addr rst.length)).length := by
      rw [offOf_toNat, List.length_take, min_eq_left hle, MemCacher.firstPageSize]
      omega
    simp only [MemCacher.getContentInParts, getContentInOnePage_outOfRange h hf hpage hlen
      (readable_of_wholeReads h hf hpage hfirst), error_bind]

end Request

/-- MAIN: **a request is in range up to the end of the page behind its first one.**  In every state
that a sequence of calls leads to, for every target and every request outside of page 0 that ends
within the address space and whose reads of whole pages succeed: there is no slice out of range if
and only if the offset of the address in its page and the length come to less than 8192.  Then the
request is split into adjacent parts that lie in one page each, the subtraction does not underflow,
all bytes are read, and they are those of the target.  No request of at most 4096 bytes is longer.
SRC: mem_cacher/mod.rs:28-82 -/
theorem page_frontier {w : σ} {s : MemCacher σ × σ} (hs : (requestMachine mem w).Reachable s)
    (hf : s.1.f.isSome = true) {rst : Bytes} {addr : Usize} (hp : 4096 ≤ addr.toNat)
    (hw : addr.toNat + rst.length < 2 ^ 64)
    (hwhole : WholeReads (s.1.getContentCalls s.2 rst addr)) :
    (s.1.getContent s.2 rst addr ≠ .error .sliceOutOfRange ↔
      addr.toNat % 4096 + rst.length < 8192) ∧
    (addr.toNat % 4096 + rst.length < 8192 →
      (s.1.getContent s.2 rst addr = s.1.getContentInParts s.2 (MemCacher.parts rst addr) ∧
        SplitAtPages addr.toNat rst.length
          ((MemCacher.parts rst addr).map fun p => (p.1.toNat, p.2.length))) ∧
      (pageOf addr ≠ pageOf (addr + UInt64.ofNat rst.length) →
        addr ≤ pageOf (addr + UInt64.ofNat rst.length)) ∧
      ∃ g, s.1.getContent s.2 rst addr = .ok g ∧ g.count = rst.length ∧
        readRange mem addr.toNat rst.length = some g.rst) ∧
    (rst.length ≤ 4096 → s.1.getContent s.2 rst addr ≠ .error .sliceOutOfRange) := by
  have hinv := (requestMachine_inv hs).toCacheInv
  have hfrontier : s.1.getContent s.2 rst addr ≠ .error .sliceOutOfRange ↔
      addr.toNat % 4096 + rst.length < 8192 := by
    constructor
    · intro hok
      by_contra hge
      exact hok (getContent_outOfRange hinv hf hp hw hwhole (not_lt.mp hge))
    · intro hlt herror
      obtain ⟨g, hg, -⟩ := getContent_readable hinv hf hp hw hwhole hlt
      rw [herror] at hg
      cases hg
  refine ⟨hfrontier, fun hlt => ⟨⟨?_, ?_⟩, le_pageOf_end hw, ?_⟩, fun hn => hfrontier.mpr ?_⟩
  · exact MemCacher.getContent_eq_parts s.1 s.2 hw
  · exact parts_splitAtPages hw hlt
  · exact getContent_readable hinv hf hp hw hwhole hlt
  · omega

/-! ## A request over two pages -/

/-- Where the pages of all parts can be read, the reads of whole pages succeed. -/
theorem wholeReads_of_readable {c : MemCacher σ} (h : CacheInv mem c) {w : σ}
    {ps : List (Usize × Bytes)}
    (hps : ∀ p ∈ ps, pageOf p.1 ≠ 0 ∧ (offOf p.1).toNat + p.2.length ≤ 4096 ∧
      (readRange mem (pageOf p.1).toNat 4096).isSome) : WholeReads (c.partsCalls w ps) := by
  induction ps generalizing c w with
  | nil => exact fun e he => absurd he List.not_mem_nil
  | cons p ps ih =>
    obtain ⟨addr, rst⟩ := p
    obtain ⟨hp, hlen, hread⟩ := hps (addr, rst) List.mem_cons_self
    obtain ⟨g, hg, hinv, -⟩ := getContentInOnePage_spec h w rst hp hlen
    obtain ⟨l, hl⟩ := Option.isSome_iff_exists.mp hread
    intro e he hwhole
    simp only [MemCacher.partsCalls, hg] at he
    rcases List.mem_append.mp he with hfirst | hrest
    · obtain ⟨-, -, hlast, hlookup⟩ := MemCacher.mem_onePageCalls hfirst
      cases hf : c.f with
      | none =>
        simp only [MemCacher.onePageCalls, if_neg hlast, hlookup, hf, List.not_mem_nil] at hfirst
      | some f =>
        have hcount : (f.call w PageBuf.zeroed.val (pageOf addr)).2.2 = 4096 := by
          rw [(h.reader f hf).whole w (pageOf addr) l (pageOf_pageOf addr) hl]
        rw [MemCacher.onePageCalls_of_reads hlast hlookup hf hcount] at hfirst
        rw [List.mem_singleton.mp hfirst]
    · exact ih hinv (fun p hm => hps p (List.mem_cons_of_mem _ hm)) e hrest hwhole

/-- A target in which the pages at 0x1000 and 0x2000 can be read, all sevens. -/
def sevensTwice : Memory := fun a => if 4096 ≤ a ∧ a < 12288 then some 7 else none

/-- Both pages can be read. -/
theorem sevensTwice_readable {p : ℕ} (h : 4096 ≤ p ∧ p ≤ 8192) :
    (readRange sevensTwice p 4096).isSome := by
  rw [readRange_const (b := 7)]
  · rfl
  · intro i hi
    rw [sevensTwice, if_pos ⟨by omega, by omega⟩]

/-- A request for the last byte of the first page and the first byte of the second one is split
between them, and both bytes are read. -/
theorem page_frontier_acrossPages :
    SplitAtPages 0x1fff 2
        ((MemCacher.parts [0, 0] 0x1fff).map fun p => (p.1.toNat, p.2.length)) ∧
      ∃ g, (MemCacher.new.install (.ofMemory sevensTwice)).getContent () [0, 0] 0x1fff = .ok g ∧
        g.count = 2 ∧ readRange sevensTwice 0x1fff 2 = some g.rst := by
  have hreach : (requestMachine sevensTwice ()).Reachable
      (MemCacher.new.install (.ofMemory sevensTwice), ()) :=
    ⟨[.install ⟨.ofMemory sevensTwice, Reader.ofMemory_reads sevensTwice⟩], rfl⟩
  have hparts : MemCacher.parts [0, 0] 0x1fff = [(0x1fff, [0]), (0x2000, [0])] := by decide
  have hwhole : WholeReads ((MemCacher.new.install (.ofMemory sevensTwice)).getContentCalls ()
      [0, 0] 0x1fff) := by
    rw [MemCacher.getContentCalls, hparts]
    refine wholeReads_of_readable (requestMachine_inv hreach).toCacheInv fun p hp => ?_
    simp only [List.mem_cons, List.not_mem_nil, or_false] at hp
    rcases hp with rfl | rfl
    · exact ⟨by decide, by decide, sevensTwice_readable (by decide)⟩
    · exact ⟨by decide, by decide, sevensTwice_readable (by decide)⟩
  obtain ⟨⟨-, hsplit⟩, -, hread⟩ :=
    (page_frontier hreach rfl (by decide) (by decide) hwhole).2.1 (by decide)
  exact ⟨hsplit, hread⟩

end PtkGenerator

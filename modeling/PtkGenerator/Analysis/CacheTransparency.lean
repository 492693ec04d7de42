import PtkGenerator.Library.Machine
import PtkGenerator.Model.PageReads

/-!
# The page cache against the memory behind it

`CacheInv` ties the three fields of a `MemCacher` to the memory: `last_page` is 0 for ever (no
code sets it to anything else), `last_content` points to a cached page, and a cached page holds
the bytes of the target.  Page 0 is never cached, because the fast path answers for it before
the map is looked at.

Outside of page 0 the fast path is therefore never taken and `getContent_spec` says that a read
is what an uncached read is.  In page 0 it is always taken, and what it copies is the page
fetched last or nothing at all: `getContent_transparent_iff` is the exact frontier, for every
state that any sequence of calls leads to.
-/

set_option autoImplicit false

namespace PtkGenerator

open Ranges

variable {σ : Type}

/-- What holds of the fields of a cacher together. -/
structure CacheInv (mem : Memory) (c : MemCacher σ) : Prop where
  lastPage : c.lastPage = 0
  lastContent : ∀ q, c.lastContent = some q → q ≠ 0 ∧ (c.cacheLst.lookup q).isSome
  pages : ∀ p content, c.cacheLst.lookup p = some content →
    readRange mem p.toNat 4096 = some content.val
  reader : ∀ f, c.f = some f → f.Serves mem

/-! ## Preservation -/

/-- A new cacher caches nothing. -/
theorem CacheInv.new (mem : Memory) : CacheInv mem (MemCacher.new : MemCacher σ) := by
  refine ⟨rfl, ?_, ?_, ?_⟩ <;> simp [MemCacher.new]

/-- A cleared cacher caches nothing, and its last page is forgotten. -/
theorem CacheInv.clearData (mem : Memory) (c : MemCacher σ) : CacheInv mem c.clearData :=
  CacheInv.new mem

/-- The installation of a reader that serves the memory keeps the cache. -/
theorem CacheInv.install {mem : Memory} {c : MemCacher σ} (h : CacheInv mem c) {f : Reader σ}
    (hf : f.Serves mem) : CacheInv mem (c.install f) := by
  refine ⟨h.lastPage, h.lastContent, h.pages, ?_⟩
  intro g hg
  obtain rfl : f = g := Option.some.inj hg
  exact hf

/-- A page of the memory may be inserted, and its content kept. -/
theorem CacheInv.insert {mem : Memory} {c : MemCacher σ} (h : CacheInv mem c) {p : Usize}
    {buf : PageBuf} (hp : p ≠ 0) (hbuf : readRange mem p.toNat 4096 = some buf.val) :
    CacheInv mem { c with lastContent := some p, cacheLst := c.cacheLst.insert p buf } := by
  refine ⟨h.lastPage, ?_, ?_, h.reader⟩
  · intro q hq
    obtain rfl : p = q := Option.some.inj hq
    exact ⟨hp, by simp⟩
  · intro q content hq
    by_cases hqp : q = p
    · subst hqp
      rw [Finmap.lookup_insert, Option.some.injEq] at hq
      rw [hbuf, hq]
    · rw [Finmap.lookup_insert_of_ne _ hqp] at hq
      exact h.pages q content hq

/-! ## One page -/

/-- A read of `n` bytes at `addr` was answered in full, or it failed; with a reader installed
it fails only where a byte is not readable. -/
def Answered (mem : Memory) (installed : Prop) (addr n : ℕ) (rst : Bytes) (count : ℕ) : Prop :=
  (count = n ∧ readRange mem addr n = some rst) ∨
    (count = 0 ∧ (installed → readRange mem addr n = none))

/-- An address that is its own page has the offset zero. -/
theorem offOf_eq_zero {addr : Usize} (h : pageOf addr = addr) : (offOf addr).toNat = 0 := by
  have := pageOf_add_offOf addr
  rw [h] at this
  omega

/-- The addresses below 4096 are those of page 0. -/
theorem pageOf_eq_zero_iff (addr : Usize) : pageOf addr = 0 ↔ addr.toNat < 4096 := by
  constructor
  · intro h
    have := congrArg UInt64.toNat h
    rw [pageOf_toNat] at this
    simp at this
    omega
  · intro h
    apply UInt64.toNat.inj
    rw [pageOf_toNat]
    simp
    omega

/-- What is copied out of a cached page is the range of the memory. -/
theorem getContentInCacheItem_spec {mem : Memory} {addr : Usize} {rst : Bytes}
    (hlen : (offOf addr).toNat + rst.length ≤ 4096) (content : PageBuf)
    (hc : readRange mem (pageOf addr).toNat 4096 = some content.val) :
    ∃ rst', MemCacher.getContentInCacheItem content addr rst = .ok (rst', rst.length) ∧
      readRange mem addr.toNat rst.length = some rst' := by
  refine ⟨(content.val.drop (offOf addr).toNat).take rst.length, ?_, ?_⟩
  · rw [MemCacher.getContentInCacheItem, if_pos hlen]
  · rw [← pageOf_add_offOf addr]
    exact readRange_slice mem hc hlen

/-- INTERNAL: **a read in one page other than page 0** does not fault, keeps the invariant and
is answered as the memory has it.
SRC: mem_cacher/mod.rs:35-68 -/
theorem getContentInOnePage_spec {mem : Memory} {c : MemCacher σ} (h : CacheInv mem c) (w : σ)
    (rst : Bytes) {addr : Usize} (hp : pageOf addr ≠ 0)
    (hlen : (offOf addr).toNat + rst.length ≤ 4096) :
    ∃ g, c.getContentInOnePage w rst addr = .ok g ∧ CacheInv mem g.cacher ∧ g.cacher.f = c.f ∧
      g.rst.length = rst.length ∧
      Answered mem (c.f.isSome = true) addr.toNat rst.length g.rst g.count := by
  have hlast : c.lastPage ≠ pageOf addr := by
    rw [h.lastPage]
    exact hp.symm
  cases hhit : c.cacheLst.lookup (pageOf addr) with
  | some content =>
    obtain ⟨rst', hcopy, hread⟩ := getContentInCacheItem_spec hlen content (h.pages _ _ hhit)
    exact ⟨⟨c, w, rst', rst.length⟩, MemCacher.getContentInOnePage_hit hlast hhit hcopy, h, rfl,
      length_of_readRange mem hread, .inl ⟨rfl, hread⟩⟩
  | none =>
    cases hf : c.f with
    | none =>
      refine ⟨⟨c, w, rst, 0⟩, ?_, h, hf, rfl, .inr ⟨rfl, by simp⟩⟩
      simp only [MemCacher.getContentInOnePage, if_neg hlast, hhit, hf]
    | some f =>
      have hs := h.reader f hf
      set whole := f.call w PageBuf.zeroed.val (pageOf addr) with hwhole
      cases hw : readRange mem (pageOf addr).toNat 4096 with
      | some l =>
        have h2 : whole.2 = (l, 4096) := hs.whole w (pageOf addr) l (pageOf_pageOf addr) hw
        obtain ⟨rst', hcopy, hread⟩ :=
          getContentInCacheItem_spec hlen ⟨l, length_of_readRange mem hw⟩ hw
        exact ⟨_, MemCacher.getContentInOnePage_miss hlast hhit hf (Prod.ext rfl h2) hcopy,
          h.insert hp hw, hf, length_of_readRange mem hread, .inl ⟨rfl, hread⟩⟩
      | none =>
        have h2 : whole.2.2 ≠ 4096 := by
          rw [hs.whole_fails w (pageOf addr) (pageOf_pageOf addr) hw]
          omega
        set short := f.call whole.1 rst addr with hshort
        have hslen : short.2.1.length = rst.length := f.length_call whole.1 rst addr
        cases hr : readRange mem addr.toNat rst.length with
        | some l =>
          have h3 : short.2 = (l, rst.length) := hs.part whole.1 rst addr l (by omega) hw hr
          refine ⟨⟨c, short.1, short.2.1, short.2.2⟩, ?_, h, hf, hslen, ?_⟩
          · simp only [MemCacher.getContentInOnePage, if_neg hlast, hhit, hf, ← hwhole, if_pos h2,
              ← hshort]
            rw [if_neg (by rw [h3]; simp)]
          · exact .inl ⟨by rw [h3], by rw [h3, hr]⟩
        | none =>
          have h3 : short.2.2 = 0 := hs.part_fails whole.1 rst addr (by omega) hw hr
          -- an empty range is readable, so the request was not empty
          have hpos : short.2.2 ≠ rst.length := by
            intro e
            rw [h3] at e
            rw [← e] at hr
            cases hr
          refine ⟨⟨c, short.1, short.2.1, 0⟩, ?_, h, hf, hslen, .inr ⟨rfl, fun _ => hr⟩⟩
          simp only [MemCacher.getContentInOnePage, if_neg hlast, hhit, hf, ← hwhole, if_pos h2,
            ← hshort, if_pos hpos]

/-! ## The split at a page boundary -/

/-- INTERNAL: **which pages a read of at most 4096 bytes is made of**: one page, or the rest of
its first page and the beginning of the next.
SRC: mem_cacher/mod.rs:70-82 -/
theorem getContent_eq (c : MemCacher σ) (w : σ) {rst : Bytes} {addr : Usize}
    (hn : rst.length ≤ 4096) (hw : addr.toNat + rst.length < 2 ^ 64) :
    ((offOf addr).toNat + rst.length < 4096 ∧
      c.getContent w rst addr = c.getContentInOnePage w rst addr) ∨
    ∃ k, (offOf addr).toNat + k = 4096 ∧ 0 < k ∧ k ≤ rst.length ∧
      (addr + UInt64.ofNat k).toNat = addr.toNat + k ∧
      pageOf (addr + UInt64.ofNat k) = addr + UInt64.ofNat k ∧
      c.getContent w rst addr = (do
        let first ← c.getContentInOnePage w (rst.take k) addr
        let second ← first.cacher.getContentInOnePage first.world (rst.drop k)
          (addr + UInt64.ofNat k)
        .ok ⟨second.cacher, second.world, first.rst ++ second.rst,
          first.count + second.count⟩) := by
  have hover : ¬ 2 ^ 64 ≤ addr.toNat + rst.length := by omega
  rcases MemCacher.parts_cases hw with ⟨hone, -⟩ | ⟨htwo, hlt, hfirst, hle, hpos, hne, hnext, -⟩
  · exact .inl ⟨hone, MemCacher.getContent_onePage c w hw (MemCacher.pageOf_end_eq hw hone)⟩
  · right
    -- the second page begins where the first one ends
    refine ⟨MemCacher.firstPageSize addr rst.length, ?_, hpos, hle,
      MemCacher.toNat_addr_add hw hle, ?_, ?_⟩
    · rw [offOf_toNat] at htwo ⊢
      rw [MemCacher.firstPageSize]
      omega
    · rw [← hnext]
      exact pageOf_pageOf _
    · simp only [MemCacher.getContent, if_neg hover, if_neg hne, if_neg hlt, hfirst,
        if_neg (not_lt.mpr hle)]

/-- A request to `get_content` of at most 4096 bytes that does not run over the end of the
address space. -/
structure ReadCall where
  rst : Bytes
  addr : Usize
  length_le : rst.length ≤ 4096
  no_wrap : addr.toNat + rst.length < 2 ^ 64

/-- INTERNAL: **a read outside of page 0** is answered by one page or by two, one after the other.
SRC: mem_cacher/mod.rs:70-82 -/
theorem getContent_answered {mem : Memory} {c : MemCacher σ} (h : CacheInv mem c) (w : σ)
    (q : ReadCall) (hp : 4096 ≤ q.addr.toNat) :
    (q.addr.toNat % 4096 + q.rst.length < 4096 ∧ ∃ g, c.getContent w q.rst q.addr = .ok g ∧
      CacheInv mem g.cacher ∧ g.cacher.f = c.f ∧ g.rst.length = q.rst.length ∧
      Answered mem (c.f.isSome = true) q.addr.toNat q.rst.length g.rst g.count) ∨
    ∃ (k : ℕ) (g₁ g₂ : Got σ), q.addr.toNat % 4096 + k = 4096 ∧ k ≤ q.rst.length ∧
      c.getContent w q.rst q.addr =
        .ok ⟨g₂.cacher, g₂.world, g₁.rst ++ g₂.rst, g₁.count + g₂.count⟩ ∧
      CacheInv mem g₂.cacher ∧ g₂.cacher.f = c.f ∧ g₁.rst.length = k ∧
      g₂.rst.length = q.rst.length - k ∧
      Answered mem (c.f.isSome = true) q.addr.toNat k g₁.rst g₁.count ∧
      Answered mem (c.f.isSome = true) (q.addr.toNat + k) (q.rst.length - k) g₂.rst g₂.count := by
  have hpage : pageOf q.addr ≠ 0 := by
    rw [Ne, pageOf_eq_zero_iff]
    omega
  rcases getContent_eq c w q.length_le q.no_wrap with
    ⟨hone, heq⟩ | ⟨k, hk, hpos, hle, hadd, hal, heq⟩
  · obtain ⟨g, hg, hrest⟩ := getContentInOnePage_spec h w q.rst hpage hone.le
    rw [offOf_toNat] at hone
    exact .inl ⟨hone, g, by rw [heq, hg], hrest⟩
  · have htake : (q.rst.take k).length = k := by rw [List.length_take]; omega
    have hdrop : (q.rst.drop k).length = q.rst.length - k := List.length_drop
    obtain ⟨g₁, hg₁, hinv₁, hf₁, hlen₁, hans₁⟩ :=
      getContentInOnePage_spec h w (q.rst.take k) hpage (by omega)
    have hpage₂ : pageOf (q.addr + UInt64.ofNat k) ≠ 0 := by
      rw [Ne, pageOf_eq_zero_iff, hadd]
      omega
    have hoff₂ := offOf_eq_zero hal
    have hn := q.length_le
    obtain ⟨g₂, hg₂, hinv₂, hf₂, hlen₂, hans₂⟩ :=
      getContentInOnePage_spec hinv₁ g₁.world (q.rst.drop k) hpage₂ (by omega)
    rw [htake] at hlen₁ hans₁
    rw [hf₁, hdrop, hadd] at hans₂
    rw [hdrop] at hlen₂
    rw [offOf_toNat] at hk
    refine .inr ⟨k, g₁, g₂, hk, hle, ?_, hinv₂, hf₂.trans hf₁, hlen₁, hlen₂, hans₁, hans₂⟩
    rw [heq]
    exact bind_eq_ok.mpr ⟨g₁, hg₁, bind_eq_ok.mpr ⟨g₂, hg₂, rfl⟩⟩

/-- INTERNAL: **a read outside of page 0** is what an uncached read is: all bytes, when all of
them are readable, and fewer than were asked for otherwise.
SRC: mem_cacher/mod.rs:70-82 -/
theorem getContent_spec {mem : Memory} {c : MemCacher σ} (h : CacheInv mem c) (w : σ)
    (q : ReadCall) (hp : 4096 ≤ q.addr.toNat) :
    ∃ g, c.getContent w q.rst q.addr = .ok g ∧ CacheInv mem g.cacher ∧ g.cacher.f = c.f ∧
      g.rst.length = q.rst.length ∧
      ((g.count = q.rst.length ∧ readRange mem q.addr.toNat q.rst.length = some g.rst) ∨
        (g.count < q.rst.length ∧
          (c.f.isSome = true → readRange mem q.addr.toNat q.rst.length = none))) := by
  rcases getContent_answered h w q hp with
    ⟨-, g, hg, hinv, hf, hlen, hans⟩ |
    ⟨k, g₁, g₂, hk, hle, hg, hinv, hf, hlen₁, hlen₂, hans₁, hans₂⟩
  · refine ⟨g, hg, hinv, hf, hlen, ?_⟩
    rcases hans with hfull | ⟨hz, hnone⟩
    · exact .inl hfull
    · by_cases hn : q.rst.length = 0
      · refine .inl ⟨by omega, ?_⟩
        rw [hn, List.eq_nil_of_length_eq_zero (hlen.trans hn), readRange_zero]
      · exact .inr ⟨by omega, hnone⟩
  · refine ⟨_, hg, hinv, hf, by rw [List.length_append, hlen₁, hlen₂]; omega, ?_⟩
    have hsplit : q.rst.length = k + (q.rst.length - k) := by omega
    -- the second part is empty when the read ends at the page boundary
    have hempty : q.rst.length - k = 0 →
        readRange mem (q.addr.toNat + k) (q.rst.length - k) = some g₂.rst := by
      intro e
      rw [e, List.eq_nil_of_length_eq_zero (hlen₂.trans e), readRange_zero]
    have hcount₂ : g₂.count ≤ q.rst.length - k := by
      rcases hans₂ with ⟨e, -⟩ | ⟨e, -⟩ <;> omega
    rcases hans₁ with ⟨hc₁, hr₁⟩ | ⟨hc₁, hr₁⟩
    · have hboth : readRange mem (q.addr.toNat + k) (q.rst.length - k) = some g₂.rst →
          readRange mem q.addr.toNat q.rst.length = some (g₁.rst ++ g₂.rst) := by
        intro hr₂
        rw [hsplit]
        exact readRange_append mem hr₁ hr₂
      rcases hans₂ with ⟨hc₂, hr₂⟩ | ⟨hc₂, hr₂⟩
      · exact .inl ⟨by simp only [hc₁, hc₂]; omega, hboth hr₂⟩
      · by_cases hz : q.rst.length - k = 0
        · exact .inl ⟨by simp only [hc₁, hc₂]; omega, hboth (hempty hz)⟩
        · refine .inr ⟨by simp only [hc₁, hc₂]; omega, fun hi => ?_⟩
          rw [hsplit, readRange_add, hr₁, Option.bind_some, hr₂ hi, Option.map_none]
    · refine .inr ⟨by simp only [hc₁]; omega, fun hi => ?_⟩
      rw [hsplit, readRange_add, hr₁ hi, Option.bind_none]

/-! ## Page 0 -/

/-- A read in page 0 leaves the cacher and the world as they are. -/
theorem getContentInOnePage_pageZero {mem : Memory} {c : MemCacher σ} (h : CacheInv mem c) {w : σ}
    {rst : Bytes} {addr : Usize} (hp : pageOf addr = 0) {g : Got σ}
    (hg : c.getContentInOnePage w rst addr = .ok g) : g.cacher = c ∧ g.world = w := by
  have hlast : c.lastPage = pageOf addr := by rw [h.lastPage, hp]
  simp only [MemCacher.getContentInOnePage, if_pos hlast] at hg
  obtain ⟨content, -, hg⟩ := bind_eq_ok.mp hg
  obtain ⟨copied, -, hg⟩ := bind_eq_ok.mp hg
  rw [← Except.ok.inj hg]
  exact ⟨rfl, rfl⟩

/-- INTERNAL: **every read that returns keeps the invariant**, in page 0 as elsewhere.
SRC: mem_cacher/mod.rs:70-82 -/
theorem CacheInv.getContent {mem : Memory} {c : MemCacher σ} (h : CacheInv mem c) {w : σ}
    (q : ReadCall) {g : Got σ} (hg : c.getContent w q.rst q.addr = .ok g) :
    CacheInv mem g.cacher := by
  by_cases hp : 4096 ≤ q.addr.toNat
  · obtain ⟨g', hg', hinv, -⟩ := getContent_spec h w q hp
    obtain rfl : g' = g := Except.ok.inj (hg'.symm.trans hg)
    exact hinv
  · have hzero : pageOf q.addr = 0 := (pageOf_eq_zero_iff _).mpr (by omega)
    rcases getContent_eq c w q.length_le q.no_wrap with
      ⟨-, heq⟩ | ⟨k, hk, hpos, hle, hadd, hal, heq⟩
    · rw [heq] at hg
      rw [(getContentInOnePage_pageZero h hzero hg).1]
      exact h
    · rw [heq] at hg
      obtain ⟨g₁, h₁, hg⟩ := bind_eq_ok.mp hg
      obtain ⟨g₂, h₂, hg⟩ := bind_eq_ok.mp hg
      obtain ⟨hc, hw⟩ := getContentInOnePage_pageZero h hzero h₁
      have hpage₂ : pageOf (q.addr + UInt64.ofNat k) ≠ 0 := by
        rw [Ne, pageOf_eq_zero_iff, hadd]
        rw [offOf_toNat] at hk
        omega
      have hn := q.length_le
      have hoff₂ := offOf_eq_zero hal
      obtain ⟨g₂', hg₂, hinv₂, -⟩ := getContentInOnePage_spec h w (q.rst.drop k) hpage₂
        (by rw [List.length_drop]; omega)
      rw [hc, hw, hg₂] at h₂
      obtain rfl := Except.ok.inj h₂
      rw [← Except.ok.inj hg]
      exact hinv₂

/-! ## Every sequence of calls -/

/-- The calls on a cacher: a read, `clear_data`, and the installation of a reader of `mem`. -/
inductive CacheOp (mem : Memory) (σ : Type) where
  | getContent (q : ReadCall)
  | clearData
  | install (f : { f : Reader σ // f.Reads mem })

/-- A cacher and the world of its reader under a sequence of calls; a read that faults ends it. -/
def cacheMachine (mem : Memory) (w : σ) : Machine (MemCacher σ × σ) (CacheOp mem σ) where
  init := (MemCacher.new, w)
  step s
    | .getContent q =>
      match s.1.getContent s.2 q.rst q.addr with
      | .ok g => some (g.cacher, g.world)
      | .error _ => none
    | .clearData => some (s.1.clearData, s.2)
    | .install f => some (s.1.install f.val, s.2)

/-- A call of `get_content` is a step of the cache. -/
theorem cacheMachine_getContent {mem : Memory} {w : σ} {s : MemCacher σ × σ} {q : ReadCall}
    {g : Got σ} (h : s.1.getContent s.2 q.rst q.addr = .ok g) :
    (cacheMachine mem w).step s (.getContent q) = some (g.cacher, g.world) := by
  simp only [cacheMachine, h]

/-- Every reachable cacher caches the memory. -/
theorem cacheMachine_inv {mem : Memory} {w : σ} {s : MemCacher σ × σ}
    (hs : (cacheMachine mem w).Reachable s) : CacheInv mem s.1 := by
  refine Machine.invariant _ (P := fun s => CacheInv mem s.1) (CacheInv.new mem) ?_ hs
  intro s a s' h hstep
  cases a with
  | getContent q =>
    cases hg : s.1.getContent s.2 q.rst q.addr with
    | error e =>
      simp only [cacheMachine, hg] at hstep
      cases hstep
    | ok g =>
      simp only [cacheMachine, hg, Option.some.injEq] at hstep
      rw [← hstep]
      exact h.getContent q hg
  | clearData =>
    rw [← Option.some.inj hstep]
    exact CacheInv.clearData mem s.1
  | install f =>
    rw [← Option.some.inj hstep]
    exact h.install f.2.serves

/-- The fast path is taken for no page but the one `last_content` points to: of the pages the
request touches, one that `last_page` names is the page of `last_content`. -/
def FastPathOwn (c : MemCacher σ) (q : ReadCall) : Prop :=
  ∀ p, p = pageOf q.addr ∨ p = pageOf (q.addr + UInt64.ofNat q.rst.length) →
    c.lastPage = p → c.lastContent = some p

/-- A read returns its length only if every byte is readable, and then the bytes of the target. -/
def ReadsTarget (mem : Memory) (c : MemCacher σ) (w : σ) (q : ReadCall) : Prop :=
  ∃ g, c.getContent w q.rst q.addr = .ok g ∧
    (g.count = q.rst.length → readRange mem q.addr.toNat q.rst.length = some g.rst)

/-- MAIN: **the page cache is transparent outside of page 0, and only there.**  In every state
that a sequence of reads, `clear_data` and installations of readers leads to, a request is
served as an uncached read would serve it, without the fast path ever answering for another page,
exactly when its address does not lie in page 0.
SRC: mem_cacher/mod.rs:12-82 -/
theorem getContent_transparent_iff {mem : Memory} {w : σ} {s : MemCacher σ × σ}
    (hs : (cacheMachine mem w).Reachable s) (q : ReadCall) :
    (FastPathOwn s.1 q ∧ ReadsTarget mem s.1 s.2 q) ↔ 4096 ≤ q.addr.toNat := by
  have hinv := cacheMachine_inv hs
  constructor
  · rintro ⟨hfast, -⟩
    by_contra hlt
    have hzero : pageOf q.addr = 0 := (pageOf_eq_zero_iff _).mpr (by omega)
    have := hfast (pageOf q.addr) (.inl rfl) (by rw [hinv.lastPage, hzero])
    exact (hinv.lastContent _ this).1 hzero
  · intro hp
    constructor
    · intro p hpage hlast
      exfalso
      have hn := q.no_wrap
      rw [hinv.lastPage] at hlast
      rcases hpage with rfl | rfl
      · have := (pageOf_eq_zero_iff _).mp hlast.symm
        omega
      · have := (pageOf_eq_zero_iff _).mp hlast.symm
        rw [UInt64.toNat_add, UInt64.toNat_ofNat', Nat.mod_eq_of_lt (a := q.rst.length) (by omega),
          Nat.mod_eq_of_lt (by omega)] at this
        omega
    · obtain ⟨g, hg, -, -, -, hans⟩ := getContent_spec hinv s.2 q hp
      refine ⟨g, hg, fun hcount => ?_⟩
      rcases hans with ⟨-, hr⟩ | ⟨hlt, -⟩
      · exact hr
      · omega

/-! ## A read in page 0 -/

/-- A range of equal bytes reads as those bytes. -/
theorem readRange_const {mem : Memory} {b : UInt8} {a n : ℕ} (h : ∀ i < n, mem (a + i) = some b) :
    readRange mem a n = some (List.replicate n b) := by
  induction n generalizing a with
  | zero => rfl
  | succ n ih =>
    have h0 : mem a = some b := h 0 (by omega)
    have htail : readRange mem (a + 1) n = some (List.replicate n b) := by
      apply ih
      intro i hi
      rw [show a + 1 + i = a + (i + 1) from by omega]
      exact h (i + 1) (by omega)
    rw [readRange_succ, h0, Option.bind_some, htail, Option.map_some, List.replicate_succ]

/-- A target with one readable page, the page at 0x1000, full of sevens. -/
def sevens : Memory := fun a => if 4096 ≤ a ∧ a < 8192 then some 7 else none

/-- The request for one byte at an address. -/
def oneByte (addr : Usize) (h : addr.toNat < 8192) : ReadCall :=
  ⟨[0], addr, by simp, by simp; omega⟩

/-- The page of sevens. -/
@[irreducible] def sevensBuf : PageBuf := ⟨List.replicate 4096 7, List.length_replicate⟩

/-- The cacher that has read the page at 0x1000. -/
def sevensCached : MemCacher Unit where
  cacheLst := (∅ : HashMap Usize PageBuf).insert 0x1000 sevensBuf
  lastPage := 0
  lastContent := some 0x1000
  f := some (.ofMemory sevens)

/-- The page of sevens reads as sevens. -/
theorem readRange_sevens : readRange sevens 4096 4096 = some sevensBuf.val := by
  rw [readRange_const (b := 7), sevensBuf]
  intro i hi
  rw [sevens, if_pos ⟨by omega, by omega⟩]

/-- The first byte of the page of sevens is copied out. -/
theorem sevensBuf_item {addr : Usize} (h : (offOf addr).toNat = 0) :
    MemCacher.getContentInCacheItem sevensBuf addr [0] = .ok ([7], 1) := by
  have htake : sevensBuf.val.take 1 = [7] := by
    rw [sevensBuf, List.take_replicate]
    rfl
  simp only [MemCacher.getContentInCacheItem, h, List.drop_zero, List.length_singleton, htake]
  rfl

/-- The first read of the page of sevens calls the reader and caches the page. -/
theorem sevens_miss :
    (MemCacher.new.install (.ofMemory sevens)).getContent () [0] 0x1000 =
      .ok ⟨sevensCached, (), [7], 1⟩ := by
  have hpage : pageOf 0x1000 = 0x1000 := by decide
  have hwhole : (Reader.ofMemory sevens).call () PageBuf.zeroed.val (pageOf 0x1000) =
      ((), sevensBuf.val, 4096) := by
    rw [hpage]
    exact Prod.ext (Subsingleton.elim _ _)
      ((Reader.ofMemory_reads sevens).serves.whole () 0x1000 _ hpage readRange_sevens)
  rw [MemCacher.getContent_onePage _ _ (by decide) (by decide)]
  exact MemCacher.getContentInOnePage_miss (by decide) (Finmap.lookup_empty _) rfl hwhole
    (sevensBuf_item (by decide))

/-- After that the first byte of page 0 is answered with a seven. -/
theorem sevens_pageZero :
    sevensCached.getContent () [0] 0 = .ok ⟨sevensCached, (), [7], 1⟩ := by
  rw [MemCacher.getContent_onePage _ _ (by decide) (by decide)]
  exact MemCacher.getContentInOnePage_fast (by decide)
    (MemCacher.lastDeref_eq rfl (Finmap.lookup_insert _)) (sevensBuf_item (by decide))

/-- The second read of the page is answered from the cache. -/
theorem sevens_hit :
    sevensCached.getContent () [0] 0x1000 = .ok ⟨sevensCached, (), [7], 1⟩ := by
  have hpage : pageOf 0x1000 = 0x1000 := by decide
  rw [MemCacher.getContent_onePage _ _ (by decide) (by decide)]
  exact MemCacher.getContentInOnePage_hit (by decide) (by rw [hpage]; exact Finmap.lookup_insert _)
    (sevensBuf_item (by decide))

/-- The reader is installed and one byte of the page is read. -/
theorem sevensCached_reachable : (cacheMachine sevens ()).Reachable (sevensCached, ()) := by
  refine ⟨[.install ⟨.ofMemory sevens, Reader.ofMemory_reads sevens⟩,
    .getContent (oneByte 0x1000 (by decide))], ?_⟩
  exact (Machine.exec_cons_eq_some _).mpr ⟨_, rfl, (Machine.exec_cons_eq_some _).mpr
    ⟨_, cacheMachine_getContent sevens_miss, rfl⟩⟩

/-- With the page of sevens cached, the next read in it gets its byte from the cache. -/
theorem getContent_transparent_cached :
    (cacheMachine sevens ()).Reachable (sevensCached, ()) ∧
      FastPathOwn sevensCached (oneByte 0x1000 (by decide)) ∧
      ReadsTarget sevens sevensCached () (oneByte 0x1000 (by decide)) ∧
      sevensCached.getContent () [0] 0x1000 = .ok ⟨sevensCached, (), [7], 1⟩ := by
  obtain ⟨hfast, hreads⟩ := (getContent_transparent_iff sevensCached_reachable
    (oneByte 0x1000 (by decide))).mpr (by decide)
  exact ⟨sevensCached_reachable, hfast, hreads, sevens_hit⟩

/-- MAIN: once a page is cached, a read at address 0 returns its full length although nothing is
readable there.
SRC: mem_cacher/mod.rs:38-40, 58 -/
theorem pageZero_not_transparent :
    ¬ ∀ s, (cacheMachine sevens ()).Reachable s → ∀ (q : ReadCall) (g : Got Unit),
      s.1.getContent s.2 q.rst q.addr = .ok g → g.count = q.rst.length →
        readRange sevens q.addr.toNat q.rst.length = some g.rst := by
  intro hall
  have hread := hall _ sevensCached_reachable (oneByte 0 (by decide)) _ sevens_pageZero rfl
  have hnone : readRange sevens (oneByte 0 (by decide)).addr.toNat 1 = none := by
    rw [readRange_succ, sevens, if_neg (by simp [oneByte]), Option.bind_none]
  exact Option.some_ne_none _ (hread.symm.trans hnone)

end PtkGenerator

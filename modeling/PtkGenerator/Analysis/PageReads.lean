import PtkGenerator.Analysis.CacheTransparency
import PtkGenerator.Model.PageReads

/-!
# Which pages the page cache reads

A part of a request calls the reader for its own page only, and only while that page is not
cached; a page that the cache has read as a whole is cached from then on.  There are two ways to
read without need.  A request that ends at the end of a page has an empty second part behind it,
and reads that page too.  And a request for a whole page can be answered by the second try of a
reader that has failed the first one: the page was read as a whole and is not cached, so that it is
read again.  Where a run does neither, `Tracked` holds of it, whatever the reader does.
-/

set_option autoImplicit false

namespace PtkGenerator

variable {σ : Type}

/-- A request of one to 4096 bytes outside of page 0. -/
structure OutsideCall extends ReadCall where
  pos : 0 < rst.length
  outside : 4096 ≤ addr.toNat

/-- The calls on a cacher: a read, `clear_data`, and the installation of a reader. -/
inductive PageOp (σ : Type) where
  | getContent (q : OutsideCall)
  | clearData
  | install (f : Reader σ)

/-- A cacher, the world of its reader and the calls of the reader since `clear_data` was called
last. -/
structure PageReads (σ : Type) where
  cacher : MemCacher σ
  world : σ
  calls : List ReaderCall

namespace PageReads

/-- The calls of the reader for a request. -/
def callsFor (s : PageReads σ) (q : OutsideCall) : List ReaderCall :=
  s.cacher.getContentCalls s.world q.rst q.addr

/-- No page was read as a whole twice. -/
def Once (s : PageReads σ) : Prop :=
  ∀ p, (s.calls.filter fun e => e.ReadsPage ∧ e.page = p).length ≤ 1

end PageReads

/-- A cacher under a sequence of calls.
SRC: mem_cacher/mod.rs:12-82 -/
def pageMachine (w : σ) : Machine (PageReads σ) (PageOp σ) where
  init := ⟨.new, w, []⟩
  step s
    | .getContent q =>
      match s.cacher.getContent s.world q.rst q.addr with
      | .ok g => some ⟨g.cacher, g.world, s.calls ++ s.callsFor q⟩
      | .error _ => none
    | .clearData => some ⟨s.cacher.clearData, s.world, []⟩
    | .install f => some { s with cacher := s.cacher.install f }

/-! ## One part -/

/-- The fast path answers for page 0 only; the pages that were read as a whole are cached, and none
of them was read twice. -/
structure Tracked (c : MemCacher σ) (calls : List ReaderCall) : Prop where
  lastPage : c.lastPage = 0
  cached : ∀ e ∈ calls, e.ReadsPage → (c.cacheLst.lookup e.page).isSome
  once : ∀ p, (calls.filter fun e => e.ReadsPage ∧ e.page = p).length ≤ 1

namespace MemCacher

/-- What a part leaves of a cacher: the reader, and the pages except for its own. -/
theorem getContentInOnePage_frame {c : MemCacher σ} {w : σ} {rst : Bytes} {addr : Usize} {g : Got σ}
    (h : c.getContentInOnePage w rst addr = .ok g) : g.cacher.lastPage = c.lastPage ∧
      g.cacher.f = c.f ∧
      (∀ p, p ≠ pageOf addr → g.cacher.cacheLst.lookup p = c.cacheLst.lookup p) ∧
      ∀ p, (c.cacheLst.lookup p).isSome → (g.cacher.cacheLst.lookup p).isSome := by
  rcases getContentInOnePage_cases h with ⟨_, _, _, -, -, rfl⟩ | ⟨-, -, hcases⟩
  · exact ⟨rfl, rfl, fun _ _ => rfl, fun _ hp => hp⟩
  · rcases hcases with ⟨-, rfl⟩ | ⟨f, -, -, rfl⟩ | ⟨f, buf, _, _, -, -, -, -, rfl⟩
    · exact ⟨rfl, rfl, fun _ _ => rfl, fun _ hp => hp⟩
    · exact ⟨rfl, rfl, fun _ _ => rfl, fun _ hp => hp⟩
    · refine ⟨rfl, rfl, fun p hne => Finmap.lookup_insert_of_ne _ hne, fun p hp => ?_⟩
      by_cases hne : p = pageOf addr
      · subst hne
        rw [Finmap.lookup_insert]
        rfl
      · rw [Finmap.lookup_insert_of_ne _ hne]
        exact hp

/-- No part changes the page of the fast path. -/
theorem getContentInParts_lastPage {c : MemCacher σ} {w : σ} {ps : List (Usize × Bytes)}
    {g : Got σ} (h : c.getContentInParts w ps = .ok g) : g.cacher.lastPage = c.lastPage := by
  induction ps generalizing c w g with
  | nil =>
    obtain rfl := Except.ok.inj h
    rfl
  | cons p ps ih =>
    obtain ⟨first, hfirst, h⟩ := bind_eq_ok.mp h
    obtain ⟨rest, hrest, h⟩ := bind_eq_ok.mp h
    obtain rfl := Except.ok.inj h
    exact (ih hrest).trans (getContentInOnePage_frame hfirst).1

/-- A call that reads the page for the cache is the only one of its part, and the page is cached
behind it. -/
theorem onePageCalls_readsPage {c : MemCacher σ} {w : σ} {rst : Bytes} {addr : Usize} {g : Got σ}
    (h : c.getContentInOnePage w rst addr = .ok g) {e : ReaderCall}
    (he : e ∈ c.onePageCalls w rst addr) (hwholeCall : e.whole = true) (hreads : e.ReadsPage) :
    c.onePageCalls w rst addr = [e] ∧ (g.cacher.cacheLst.lookup (pageOf addr)).isSome := by
  obtain ⟨-, -, hlast, hlookup⟩ := mem_onePageCalls he
  rcases getContentInOnePage_cases h with ⟨_, _, _, hor, -, -⟩ | ⟨-, -, hcases⟩
  · rcases hor with hor | hor
    · exact absurd hor hlast
    · rw [hlookup] at hor
      cases hor
  · unfold onePageCalls at he ⊢
    rcases hcases with ⟨hf, -⟩ | ⟨f, hf, hwhole, -⟩ | ⟨f, buf, _, _, hf, hwhole, -, -, rfl⟩
    · simp only [if_neg hlast, hlookup, hf, List.not_mem_nil] at he
    · simp only [if_neg hlast, hlookup, hf, if_pos hwhole, List.mem_cons, List.not_mem_nil,
        or_false] at he
      rcases he with rfl | rfl
      · exact absurd hreads.2.2 hwhole
      · cases hwholeCall
    · have hnot : ¬ (f.call w PageBuf.zeroed.val (pageOf addr)).2.2 ≠ 4096 := not_not.mpr hwhole
      simp only [if_neg hlast, hlookup, hf, if_neg hnot, List.mem_singleton] at he ⊢
      subst he
      refine ⟨rfl, ?_⟩
      rw [Finmap.lookup_insert]
      rfl

end MemCacher

/-- Of these calls only those for the cache read a page as a whole. -/
def ReadsForCache (calls : List ReaderCall) : Prop :=
  ∀ e ∈ calls, e.ReadsPage → e.whole = true

/-- INTERNAL: **a part** reads its own page, and only when it is not cached.
SRC: mem_cacher/mod.rs:35-68 -/
theorem Tracked.onePage {c : MemCacher σ} {calls : List ReaderCall} (h : Tracked c calls) {w : σ}
    {rst : Bytes} {addr : Usize} {g : Got σ} (hg : c.getContentInOnePage w rst addr = .ok g)
    (hcache : ReadsForCache (c.onePageCalls w rst addr)) :
    Tracked g.cacher (calls ++ c.onePageCalls w rst addr) := by
  obtain ⟨hlast, -, -, hmono⟩ := MemCacher.getContentInOnePage_frame hg
  refine ⟨hlast.trans h.lastPage, fun e he hreads => ?_, fun p => ?_⟩
  · rcases List.mem_append.mp he with hold | hnew
    · exact hmono _ (h.cached e hold hreads)
    · rw [(MemCacher.mem_onePageCalls hnew).1]
      exact (MemCacher.onePageCalls_readsPage hg hnew (hcache e hnew hreads) hreads).2
  · rw [List.filter_append, List.length_append]
    have honce := h.once p
    cases hnew : (c.onePageCalls w rst addr).filter fun e => e.ReadsPage ∧ e.page = p with
    | nil => rwa [List.length_nil, Nat.add_zero]
    | cons e es =>
      -- the page was not cached, so it was not read before
      have hmem : e ∈ (c.onePageCalls w rst addr).filter fun e => e.ReadsPage ∧ e.page = p := by
        rw [hnew]
        exact List.mem_cons_self
      obtain ⟨he, hsel⟩ := List.mem_filter.mp hmem
      obtain ⟨hreads, hpage⟩ := of_decide_eq_true hsel
      obtain ⟨hpe, -, -, hlookup⟩ := MemCacher.mem_onePageCalls he
      have hold : calls.filter (fun e => e.ReadsPage ∧ e.page = p) = [] := by
        rw [List.filter_eq_nil_iff]
        intro e' he' hsel'
        obtain ⟨hreads', hpage'⟩ := of_decide_eq_true hsel'
        have := h.cached e' he' hreads'
        rw [hpage', ← hpage, hpe, hlookup] at this
        cases this
      have hall := (MemCacher.onePageCalls_readsPage hg he (hcache e he hreads) hreads).1
      rw [hold, ← hnew, hall, List.length_nil, Nat.zero_add]
      exact List.length_filter_le _ _

/-- The parts of a request keep it one after the other. -/
theorem Tracked.inParts {c : MemCacher σ} {calls : List ReaderCall} (h : Tracked c calls) {w : σ}
    {ps : List (Usize × Bytes)} {g : Got σ} (hg : c.getContentInParts w ps = .ok g)
    (hcache : ReadsForCache (c.partsCalls w ps)) :
    Tracked g.cacher (calls ++ c.partsCalls w ps) := by
  induction ps generalizing c w calls g with
  | nil =>
    obtain rfl := Except.ok.inj hg
    rw [MemCacher.partsCalls, List.append_nil]
    exact h
  | cons p ps ih =>
    obtain ⟨addr, rst⟩ := p
    obtain ⟨first, hfirst, hg⟩ := bind_eq_ok.mp hg
    obtain ⟨rest, hrest, hg⟩ := bind_eq_ok.mp hg
    obtain rfl := Except.ok.inj hg
    simp only [MemCacher.partsCalls, hfirst] at hcache ⊢
    rw [← List.append_assoc]
    exact ih (h.onePage hfirst fun e he => hcache e (List.mem_append_left _ he)) hrest
      fun e he => hcache e (List.mem_append_right _ he)

/-- The pages of the parts are read while they are not cached. -/
theorem uncached_of_mem_partsCalls {c : MemCacher σ} {w : σ} {ps : List (Usize × Bytes)}
    {e : ReaderCall} (he : e ∈ c.partsCalls w ps) : e.cached.lookup e.page = none := by
  induction ps generalizing c w with
  | nil => cases he
  | cons p ps ih =>
    obtain ⟨addr, rst⟩ := p
    rw [MemCacher.partsCalls] at he
    rcases List.mem_append.mp he with he | he
    · obtain ⟨hpage, hcached, -, hlookup⟩ := MemCacher.mem_onePageCalls he
      rw [hpage, hcached, hlookup]
    · cases hfirst : c.getContentInOnePage w rst addr with
      | error _ => simp only [hfirst, List.not_mem_nil] at he
      | ok first =>
        simp only [hfirst] at he
        exact ih he

/-! ## One request -/

namespace PageReads

/-- The page of a call and the requested range have an address in common. -/
def Meets (q : OutsideCall) (e : ReaderCall) : Prop :=
  q.addr.toNat < e.page.toNat + 4096 ∧ e.page.toNat < q.addr.toNat + q.rst.length

/-- A step reads what it needs: it calls the reader for pages that the request meets and that are
not cached, and no page was read as a whole twice since `clear_data`. -/
def ReadsNeeded (s : PageReads σ) (op : PageOp σ) (s' : PageReads σ) : Prop :=
  (∀ q, op = .getContent q → ∀ e ∈ s.callsFor q, Meets q e ∧ e.cached.lookup e.page = none) ∧
    s'.Once

/-- The request does not end at the end of a page, or the next page is cached, or there is no
reader. -/
def EndsWithin (s : PageReads σ) : PageOp σ → Prop
  | .getContent q => ¬ ((q.addr.toNat + q.rst.length) % 4096 = 0 ∧ s.cacher.f.isSome = true ∧
      s.cacher.cacheLst.lookup (q.addr + UInt64.ofNat q.rst.length) = none)
  | _ => True

/-- The request is for a whole page that is not cached, and the reader fails to read it for the
cache and then reads it when it is called for the request itself. -/
def ReadAside (s : PageReads σ) : PageOp σ → Prop
  | .getContent q => q.addr = pageOf q.addr ∧ q.rst.length = 4096 ∧
      s.cacher.cacheLst.lookup q.addr = none ∧ ∃ f, s.cacher.f = some f ∧
        let whole := f.call s.world PageBuf.zeroed.val q.addr
        whole.2.2 ≠ 4096 ∧ (f.call whole.1 q.rst q.addr).2.2 = 4096
  | _ => False

/-- The step neither reads the page behind its request nor a page aside of the cache. -/
def Careful (s : PageReads σ) (op : PageOp σ) : Prop := s.EndsWithin op ∧ ¬ s.ReadAside op

/-- No part of a request lies in page 0. -/
theorem pageOf_ne_zero (q : OutsideCall) {k : ℕ} (hk : k ≤ q.rst.length) :
    pageOf (q.addr + UInt64.ofNat k) ≠ 0 := by
  have := q.outside
  rw [Ne, pageOf_eq_zero_iff, MemCacher.toNat_addr_add q.no_wrap hk]
  omega

/-- The calls for a request are those of its one part, or those of the rest of its first page and
of the beginning of the next; the latter calls the reader unless its page is cached. -/
theorem callsFor_cases {s : PageReads σ} (hlast : s.cacher.lastPage = 0) (q : OutsideCall) :
    (q.addr.toNat % 4096 + q.rst.length < 4096 ∧
      s.callsFor q = s.cacher.onePageCalls s.world q.rst q.addr) ∨
    ∃ (k : ℕ) (second : List ReaderCall), k ≤ q.rst.length ∧ q.addr.toNat % 4096 + k = 4096 ∧
      s.callsFor q = s.cacher.onePageCalls s.world (q.rst.take k) q.addr ++ second ∧
      (∀ e ∈ second, e.page = q.addr + UInt64.ofNat k ∧
        (e.whole = false → e.len + k = q.rst.length)) ∧
      (second = [] ↔ (s.cacher.f.isSome = true →
        (s.cacher.cacheLst.lookup (q.addr + UInt64.ofNat k)).isSome)) := by
  have hn := q.length_le
  rw [callsFor, MemCacher.getContentCalls]
  rcases MemCacher.parts_cases q.no_wrap with
    ⟨hone, hparts⟩ | ⟨htwo, -, -, hle, -, hne, hnext, hparts⟩
  · rw [offOf_toNat] at hone
    refine .inl ⟨hone, ?_⟩
    simp only [hparts, MemCacher.partsCalls]
    cases s.cacher.getContentInOnePage s.world q.rst q.addr <;> exact List.append_nil _
  · rw [offOf_toNat] at htwo
    have hsize : q.addr.toNat % 4096 + MemCacher.firstPageSize q.addr q.rst.length = 4096 := by
      rw [MemCacher.firstPageSize]
      omega
    set k := MemCacher.firstPageSize q.addr q.rst.length with hk
    have hpage₁ : s.cacher.lastPage ≠ pageOf q.addr := by
      rw [hlast, ne_comm, Ne, pageOf_eq_zero_iff]
      have := q.outside
      omega
    have hlen : (offOf q.addr).toNat + (q.rst.take k).length ≤ 4096 := by
      rw [offOf_toNat, List.length_take]
      omega
    obtain ⟨first, hfirst⟩ := MemCacher.exists_getContentInOnePage hpage₁ hlen s.world
    obtain ⟨hlast₁, hf₁, hother, -⟩ := MemCacher.getContentInOnePage_frame hfirst
    have hpage₂ : pageOf (q.addr + UInt64.ofNat k) = q.addr + UInt64.ofNat k := by
      rw [← hnext]
      exact pageOf_pageOf _
    refine .inr ⟨k, first.cacher.onePageCalls first.world (q.rst.drop k)
      (q.addr + UInt64.ofNat k), hle, hsize, ?_, fun e he => ?_, ?_⟩
    · rw [hparts]
      simp only [MemCacher.partsCalls, hfirst]
      congr 1
      cases first.cacher.getContentInOnePage first.world (q.rst.drop k)
        (q.addr + UInt64.ofNat k) <;> exact List.append_nil _
    · refine ⟨by rw [(MemCacher.mem_onePageCalls he).1, hpage₂], fun hpart => ?_⟩
      rw [(MemCacher.mem_onePageCalls_part he hpart).2.1, List.length_drop]
      omega
    · rw [MemCacher.onePageCalls_eq_nil_iff, hf₁, hpage₂, hlast₁, hlast,
        hother _ (by rw [← hnext]; exact hne.symm)]
      exact forall_prop_of_true (by rw [← hpage₂]; exact (pageOf_ne_zero q hle).symm)

/-- INTERNAL: **the calls of a request** are for pages that it meets, except for those of an empty
second part.
SRC: mem_cacher/mod.rs:70-82 -/
theorem meets_iff {s : PageReads σ} (hlast : s.cacher.lastPage = 0) (q : OutsideCall) :
    (∀ e ∈ s.callsFor q, Meets q e) ↔ s.EndsWithin (.getContent q) := by
  have hpos := q.pos
  have hn := q.length_le
  have hfirst : ∀ rst, ∀ e ∈ s.cacher.onePageCalls s.world rst q.addr, Meets q e := by
    intro rst e he
    unfold Meets
    rw [(MemCacher.mem_onePageCalls he).1, pageOf_toNat]
    omega
  rcases callsFor_cases hlast q with
    ⟨hone, hcalls⟩ | ⟨k, second, hle, hsize, hcalls, hsecond, hnil⟩
  · rw [hcalls]
    exact iff_of_true (hfirst q.rst) fun hends => by have := hends.1; omega
  · have hadd := MemCacher.toNat_addr_add q.no_wrap hle
    rw [hcalls, List.forall_mem_append]
    by_cases hend : k = q.rst.length
    · -- the second part is empty, and its page lies behind the request
      have hmod : (q.addr.toNat + q.rst.length) % 4096 = 0 := by omega
      rw [hend] at hsecond hadd hnil ⊢
      constructor
      · rintro ⟨-, hall⟩ ⟨-, hf, hlookup⟩
        have hempty : second = [] := by
          apply List.eq_nil_iff_forall_not_mem.mpr
          intro e he
          have hm := (hall e he).2
          rw [(hsecond e he).1, hadd] at hm
          exact lt_irrefl _ hm
        have hcached := hnil.mp hempty hf
        rw [hlookup] at hcached
        cases hcached
      · intro hends
        have hempty := hnil.mpr fun hf => by
          by_contra hnone
          exact hends ⟨hmod, hf, Option.not_isSome_iff_eq_none.mp hnone⟩
        rw [hempty]
        exact ⟨hfirst _, fun e he => absurd he List.not_mem_nil⟩
    · refine iff_of_true ⟨hfirst _, fun e he => ?_⟩ fun hends => by have := hends.1; omega
      unfold Meets
      rw [(hsecond e he).1, hadd]
      omega

/-- INTERNAL: **the reads aside of the cache** are those of a whole page that the reader reads at
the second try only.
SRC: mem_cacher/mod.rs:46-55 -/
theorem readsForCache_iff {s : PageReads σ} (hlast : s.cacher.lastPage = 0) (q : OutsideCall) :
    ReadsForCache (s.callsFor q) ↔ ¬ s.ReadAside (.getContent q) := by
  have hn := q.length_le
  have hpage : s.cacher.lastPage ≠ pageOf q.addr := by
    have := pageOf_ne_zero q (Nat.zero_le q.rst.length)
    rw [show q.addr + UInt64.ofNat 0 = q.addr from UInt64.add_zero q.addr] at this
    rw [hlast]
    exact this.symm
  have haligned : q.addr = pageOf q.addr → q.addr.toNat % 4096 = 0 := by
    intro e
    have e' := congrArg UInt64.toNat e
    rw [pageOf_toNat] at e'
    omega
  rcases callsFor_cases hlast q with ⟨hone, hcalls⟩ | ⟨k, second, hle, hsize, hcalls, hsecond, -⟩
  · rw [hcalls]
    refine iff_of_true (fun e he hreads => ?_) fun haside => ?_
    · by_contra hpart
      obtain ⟨haddr, hlen, -⟩ :=
        MemCacher.mem_onePageCalls_part he (Bool.eq_false_iff.mpr hpart)
      have := hreads.2.1
      omega
    · have := haside.2.1
      omega
  · rw [hcalls]
    constructor
    · rintro hcache ⟨hpageAddr, hlen, hlookup, f, hf, hwhole, hshort⟩
      have hk : k = q.rst.length := by
        have := haligned hpageAddr
        omega
      have hcallsFirst := @MemCacher.onePageCalls_of_fails _ _ _ q.rst _ _ hpage
        (by rw [← hpageAddr]; exact hlookup) hf (by rw [← hpageAddr]; exact hwhole)
      rw [hk, List.take_length, hcallsFirst] at hcache
      have := hcache _ (List.mem_append_left _ (List.mem_cons_of_mem _ List.mem_cons_self))
        ⟨hpageAddr, hlen, by rw [← hpageAddr]; exact hshort⟩
      cases this
    · intro haside e he hreads
      by_contra hpart
      have hpart := Bool.eq_false_iff.mpr hpart
      rcases List.mem_append.mp he with hfirst | hsnd
      · obtain ⟨haddr, hlen, f, hf, hwhole, hcount⟩ :=
          MemCacher.mem_onePageCalls_part hfirst hpart
        have hpageAddr : q.addr = pageOf q.addr := by
          rw [← haddr]
          exact hreads.1
        have hk : k = 4096 := by
          have := haligned hpageAddr
          omega
        have hlen' : q.rst.length = 4096 := by omega
        rw [List.take_of_length_le (by omega)] at hcount
        refine haside ⟨hpageAddr, hlen', ?_, f, hf, ?_, ?_⟩
        · rw [hpageAddr]
          exact (MemCacher.mem_onePageCalls hfirst).2.2.2
        · rw [← hpageAddr] at hwhole
          exact hwhole
        · rw [← hpageAddr] at hcount
          rw [← hcount]
          exact hreads.2.2
      · have := (hsecond e hsnd).2 hpart
        have := hreads.2.1
        omega

/-! ## Every sequence of calls -/

/-- What a step of the machine does. -/
theorem getContent_step {w : σ} {s s' : PageReads σ} {q : OutsideCall}
    (h : (pageMachine w).step s (.getContent q) = some s') :
    ∃ g, s.cacher.getContentInParts s.world (MemCacher.parts q.rst q.addr) = .ok g ∧
      s' = ⟨g.cacher, g.world, s.calls ++ s.callsFor q⟩ := by
  simp only [pageMachine] at h
  rw [MemCacher.getContent_eq_parts _ _ q.no_wrap] at h
  split at h
  · next g hg => exact ⟨g, hg, (Option.some.inj h).symm⟩
  · cases h

/-- A careful step keeps the account of the pages that were read. -/
theorem tracked_step {w : σ} {s s' : PageReads σ} {op : PageOp σ}
    (h : Tracked s.cacher s.calls) (hcareful : s.Careful op)
    (hs : (pageMachine w).step s op = some s') : Tracked s'.cacher s'.calls := by
  cases op with
  | getContent q =>
    obtain ⟨g, hg, rfl⟩ := getContent_step hs
    exact h.inParts hg ((readsForCache_iff h.lastPage q).mpr hcareful.2)
  | clearData =>
    obtain rfl := Option.some.inj hs
    exact ⟨rfl, fun e he => absurd he List.not_mem_nil, fun _ => Nat.zero_le 1⟩
  | install f =>
    obtain rfl := Option.some.inj hs
    exact ⟨h.lastPage, h.cached, h.once⟩

/-- INTERNAL: **a careful step reads what it needs.** -/
theorem Careful.readsNeeded {w : σ} {s s' : PageReads σ} {op : PageOp σ} (hcareful : s.Careful op)
    (h : Tracked s.cacher s.calls) (hs : (pageMachine w).step s op = some s') :
    s.ReadsNeeded op s' := by
  refine ⟨?_, (tracked_step h hcareful hs).once⟩
  rintro q rfl e he
  exact ⟨(meets_iff h.lastPage q).mpr hcareful.1 e he, uncached_of_mem_partsCalls he⟩

/-- The fast path is never taken. -/
theorem lastPage_of_exec {w : σ} {s : PageReads σ} {ops : List (PageOp σ)}
    (h : (pageMachine w).exec (pageMachine w).init ops = some s) : s.cacher.lastPage = 0 := by
  refine Machine.exec_induct _ (C := fun _ _ => True)
    (P := fun s : PageReads σ => s.cacher.lastPage = 0) ?_ rfl
    (Machine.meets_of_forall _ (fun _ _ => trivial) _ _) h
  intro u op v hu _ hv
  cases op with
  | getContent q =>
    obtain ⟨g, hg, rfl⟩ := getContent_step hv
    exact (MemCacher.getContentInParts_lastPage hg).trans hu
  | clearData =>
    obtain rfl := Option.some.inj hv
    rfl
  | install f =>
    obtain rfl := Option.some.inj hv
    exact hu

/-- INTERNAL: **a page read aside of the cache** was read as a whole and is not cached.
SRC: mem_cacher/mod.rs:49-55 -/
theorem ReadAside.uncached {w : σ} {s t : PageReads σ} {q : OutsideCall}
    (h : s.ReadAside (.getContent q)) (hlast : s.cacher.lastPage = 0)
    (ht : (pageMachine w).step s (.getContent q) = some t) :
    t.cacher.cacheLst.lookup q.addr = none ∧ ∃ e ∈ t.calls, e.ReadsPage ∧ e.page = q.addr := by
  obtain ⟨g, hg, rfl⟩ := getContent_step ht
  have haside : ¬ ReadsForCache (s.callsFor q) := fun hcache =>
    (readsForCache_iff hlast q).mp hcache h
  obtain ⟨hpageAddr, hlen, hlookup, f, hf, hwhole, -⟩ := h
  constructor
  · rcases MemCacher.parts_cases q.no_wrap with
      ⟨hone, -⟩ | ⟨-, -, -, -, -, hne, hnext, hparts⟩
    · rw [offOf_toNat] at hone
      have := q.length_le
      omega
    · rw [hparts] at hg
      obtain ⟨first, hfirst, hg⟩ := bind_eq_ok.mp hg
      obtain ⟨rest, hrest, hg⟩ := bind_eq_ok.mp hg
      obtain ⟨second, hsecond, hrest⟩ := bind_eq_ok.mp hrest
      obtain ⟨last, hnil, hrest⟩ := bind_eq_ok.mp hrest
      obtain rfl := Except.ok.inj hnil
      obtain rfl := Except.ok.inj hrest
      obtain rfl := Except.ok.inj hg
      change second.cacher.cacheLst.lookup q.addr = none
      have hother : q.addr ≠
          pageOf (q.addr + UInt64.ofNat (MemCacher.firstPageSize q.addr q.rst.length)) := by
        rw [← hnext, pageOf_pageOf]
        exact fun e => hne (hpageAddr.symm.trans e)
      rw [(MemCacher.getContentInOnePage_frame hsecond).2.2.1 _ hother]
      -- the first part leaves the cacher as it was
      rcases MemCacher.getContentInOnePage_cases hfirst with
        ⟨_, _, _, -, -, rfl⟩ | ⟨-, -, hcases⟩
      · exact hlookup
      · rcases hcases with ⟨-, rfl⟩ | ⟨f', -, -, rfl⟩ | ⟨f', _, _, _, hf', hreads, -⟩
        · exact hlookup
        · exact hlookup
        · obtain rfl := Option.some.inj (hf.symm.trans hf')
          rw [← hpageAddr] at hreads
          exact absurd hreads hwhole
  · unfold ReadsForCache at haside
    push Not at haside
    obtain ⟨e, he, hreads, hpart⟩ := haside
    refine ⟨e, List.mem_append_right _ he, hreads, ?_⟩
    rcases callsFor_cases hlast q with ⟨hone, -⟩ | ⟨k, second, -, hsize, hcalls, hsecond, -⟩
    · have := q.length_le
      omega
    · rw [hcalls] at he
      rcases List.mem_append.mp he with he | he
      · rw [(MemCacher.mem_onePageCalls he).1, ← hpageAddr]
      · have := (hsecond e he).2 (Bool.eq_false_iff.mpr hpart)
        have := hreads.2.1
        omega

/-- The first byte of a request for a whole page does not wrap either. -/
theorem firstByteOf_no_wrap (q : OutsideCall) (hlen : q.rst.length = 4096) :
    q.addr.toNat + [(0 : UInt8)].length < 2 ^ 64 := by
  have := q.no_wrap
  rw [hlen] at this
  simp only [List.length_singleton]
  omega

/-- The request for the first byte of the page of a request for a whole page. -/
def firstByteOf (q : OutsideCall) (hlen : q.rst.length = 4096) : OutsideCall where
  rst := [0]
  addr := q.addr
  length_le := Nat.le_of_ble_eq_true rfl
  no_wrap := firstByteOf_no_wrap q hlen
  pos := Nat.zero_lt_one
  outside := q.outside

end PageReads

/-- A reader that reads every range, as sevens. -/
def Reader.allSevens : Reader σ where
  call w rst _ := (w, List.replicate rst.length 7, rst.length)
  length_call _ _ _ := List.length_replicate

namespace PageReads

/-- INTERNAL: **a page read aside of the cache is read again**, by the next request for it that
the reader does not fail. -/
theorem ReadAside.again {w : σ} {s t : PageReads σ} {q : OutsideCall}
    (h : s.ReadAside (.getContent q)) (hlast : s.cacher.lastPage = 0)
    (ht : (pageMachine w).step s (.getContent q) = some t) : ∃ u v q',
    (pageMachine w).step t (.install .allSevens) = some u ∧
      (pageMachine w).step u (.getContent q') = some v ∧ ¬ u.ReadsNeeded (.getContent q') v := by
  obtain ⟨hlookup, e, he, hreads, hpage⟩ := h.uncached hlast ht
  obtain ⟨hpageAddr, hlen, -⟩ := h
  have hlastT : t.cacher.lastPage = 0 := by
    obtain ⟨g, hg, rfl⟩ := getContent_step ht
    exact (MemCacher.getContentInParts_lastPage hg).trans hlast
  set u : PageReads σ := { t with cacher := t.cacher.install .allSevens } with hu
  set q' := firstByteOf q hlen with hq'
  have hpage₀ : u.cacher.lastPage ≠ pageOf q'.addr := by
    change t.cacher.lastPage ≠ pageOf q.addr
    rw [hlastT, ← hpageAddr]
    intro e
    have := q.outside
    rw [← e] at this
    exact absurd this (by decide)
  have hoff : (offOf q'.addr).toNat + q'.rst.length < 4096 := by
    have e := congrArg UInt64.toNat hpageAddr
    rw [pageOf_toNat] at e
    rw [offOf_toNat]
    change q.addr.toNat % 4096 + 1 < 4096
    omega
  obtain ⟨g, hg⟩ := MemCacher.exists_getContentInOnePage hpage₀ hoff.le u.world
  have hcalls : u.callsFor q' = [⟨true, q.addr, 4096, 4096, t.cacher.cacheLst⟩] := by
    have hone : u.callsFor q' = u.cacher.onePageCalls u.world q'.rst q'.addr := by
      rcases callsFor_cases (s := u) hlastT q' with ⟨-, hcalls⟩ | ⟨k, _, hle, hsize, -⟩
      · exact hcalls
      · rw [offOf_toNat] at hoff
        omega
    have hpage' : pageOf q'.addr = q.addr := hpageAddr.symm
    rw [hone, MemCacher.onePageCalls_of_reads (f := .allSevens) hpage₀
      (by rw [hpage']; exact hlookup) rfl PageBuf.zeroed.2, hpage']
    rfl
  refine ⟨u, ⟨g.cacher, g.world, u.calls ++ u.callsFor q'⟩, q', rfl, ?_, fun hneeded => ?_⟩
  · simp only [pageMachine]
    rw [MemCacher.getContent_onePage _ _ q'.no_wrap (MemCacher.pageOf_end_eq q'.no_wrap hoff), hg]
  · have honce := hneeded.2 q.addr
    have hold : e ∈ t.calls.filter fun e => e.ReadsPage ∧ e.page = q.addr :=
      List.mem_filter.mpr ⟨he, decide_eq_true ⟨hreads, hpage⟩⟩
    have hnew : (u.callsFor q').filter (fun e => e.ReadsPage ∧ e.page = q.addr) =
        u.callsFor q' := by
      rw [hcalls, List.filter_eq_self]
      intro e' he'
      rw [List.mem_singleton.mp he']
      exact decide_eq_true ⟨⟨hpageAddr, rfl, rfl⟩, hpageAddr.symm⟩
    change ((t.calls ++ u.callsFor q').filter fun e => e.ReadsPage ∧ e.page = q.addr).length ≤ 1
      at honce
    rw [List.filter_append, List.length_append, hnew, hcalls, List.length_singleton] at honce
    have := List.length_pos_of_mem hold
    omega

end PageReads

/-- All steps of the sequence of calls read what they need. -/
def AllNeeded (w : σ) (ops : List (PageOp σ)) : Prop :=
  ∀ before op after u v, ops = before ++ op :: after →
    (pageMachine w).exec (pageMachine w).init before = some u →
    (pageMachine w).step u op = some v → u.ReadsNeeded op v

/-- MAIN: **the page cache reads what it needs, unless a request ends at the end of a page or a
whole page is read at the second try.**  In every sequence of requests of one to 4096 bytes outside
of page 0, of `clear_data` and of installations of readers, whatever these do: when no request ends
at the end of a page while the next one is not cached and there is a reader, and none is for a whole
page that the reader fails to read for the cache and then reads for the request, all steps call the
reader only for pages that the request meets and that are not cached, and read no page as a whole
twice between two `clear_data`.  Any further step that breaks this goes on to a run that does not.
SRC: mem_cacher/mod.rs:35-82 -/
theorem reads_needed_of_careful {w : σ} {s : PageReads σ} {ops : List (PageOp σ)}
    (h : (pageMachine w).exec (pageMachine w).init ops = some s) :
    ((pageMachine w).Meets PageReads.Careful (pageMachine w).init ops → AllNeeded w ops) ∧
      ∀ op t, (pageMachine w).step s op = some t → ¬ s.Careful op →
        ∃ more, ((pageMachine w).exec t more).isSome ∧ ¬ AllNeeded w (ops ++ op :: more) := by
  constructor
  · refine Machine.forall_steps_of_meets (pageMachine w) (Q := PageReads.ReadsNeeded)
      (I := fun s => Tracked s.cacher s.calls)
      (fun _ _ _ hI hC hs => PageReads.tracked_step hI hC hs)
      (fun _ _ _ hI hC hs => hC.readsNeeded hI hs) ?_
    exact ⟨rfl, fun e he => absurd he List.not_mem_nil, fun _ => Nat.zero_le 1⟩
  · intro op t ht hnot
    have hlast := PageReads.lastPage_of_exec h
    by_cases hends : s.EndsWithin op
    · cases op with
      | getContent q =>
        have haside : s.ReadAside (.getContent q) := by
          by_contra haside
          exact hnot ⟨hends, haside⟩
        obtain ⟨u, v, q', hu, hv, hneeded⟩ := haside.again hlast ht
        refine ⟨[.install .allSevens, .getContent q'], ?_, fun hall => hneeded ?_⟩
        · rw [(Machine.exec_cons_eq_some _).mpr ⟨u, hu, (Machine.exec_cons_eq_some _).mpr
            ⟨v, hv, rfl⟩⟩]
          rfl
        · refine hall (ops ++ [.getContent q, .install .allSevens]) (.getContent q') [] u v
            (by simp) ?_ hv
          exact (Machine.exec_append _).mpr ⟨s, h, (Machine.exec_cons_eq_some _).mpr
            ⟨t, ht, (Machine.exec_cons_eq_some _).mpr ⟨u, hu, rfl⟩⟩⟩
      | clearData => exact absurd ⟨hends, fun h => h⟩ hnot
      | install f => exact absurd ⟨hends, fun h => h⟩ hnot
    · refine ⟨[], rfl, fun hall => hends ?_⟩
      have hneeded := hall ops op [] s t rfl h ht
      cases op with
      | getContent q =>
        exact (PageReads.meets_iff hlast q).mp fun e he => (hneeded.1 q rfl e he).1
      | clearData => trivial
      | install f => trivial

/-! ## A read over two pages, and a byte at the end of a page -/

/-- The request for one byte. -/
def oneByteAt (addr : Usize) (h : 4096 ≤ addr.toNat ∧ addr.toNat < 8192) : OutsideCall :=
  ⟨oneByte addr h.2, Nat.zero_lt_one, h.1⟩

/-- The request for the last byte of the page at 0x1000 and the first one behind it. -/
def overTheEnd : OutsideCall :=
  ⟨⟨[0, 0], 0x1fff, by decide, by decide⟩, by decide, by decide⟩

/-- A request outside of page 0 is served. -/
theorem PageReads.exists_step {w : σ} {s : PageReads σ} (hlast : s.cacher.lastPage = 0)
    (q : OutsideCall) : ∃ t, (pageMachine w).step s (.getContent q) = some t := by
  have hpage : ∀ k, k ≤ q.rst.length → s.cacher.lastPage ≠ pageOf (q.addr + UInt64.ofNat k) := by
    intro k hk
    rw [hlast]
    exact (PageReads.pageOf_ne_zero q hk).symm
  have hpage₀ : s.cacher.lastPage ≠ pageOf q.addr := by
    have := hpage 0 (Nat.zero_le _)
    rwa [show q.addr + UInt64.ofNat 0 = q.addr from UInt64.add_zero q.addr] at this
  have hserved : ∃ g, s.cacher.getContent s.world q.rst q.addr = .ok g := by
    rw [MemCacher.getContent_eq_parts _ _ q.no_wrap]
    rcases MemCacher.parts_cases q.no_wrap with
      ⟨hone, hparts⟩ | ⟨-, -, -, hle, -, -, hnext, hparts⟩
    · obtain ⟨g, hg⟩ := MemCacher.exists_getContentInOnePage hpage₀ hone.le s.world
      rw [hparts]
      exact ⟨_, bind_eq_ok.mpr ⟨g, hg, rfl⟩⟩
    · set k := MemCacher.firstPageSize q.addr q.rst.length with hk
      have hn := q.length_le
      have hoff : (offOf q.addr).toNat + (q.rst.take k).length ≤ 4096 := by
        rw [offOf_toNat, List.length_take, hk, MemCacher.firstPageSize]
        omega
      obtain ⟨g, hg⟩ := MemCacher.exists_getContentInOnePage hpage₀ hoff s.world
      have hoff₂ : (offOf (q.addr + UInt64.ofNat k)).toNat + (q.rst.drop k).length ≤ 4096 := by
        rw [← hnext, offOf_eq_zero (pageOf_pageOf _), List.length_drop]
        omega
      obtain ⟨g₂, hg₂⟩ := MemCacher.exists_getContentInOnePage (c := g.cacher)
        (by rw [(MemCacher.getContentInOnePage_frame hg).1]; exact hpage k hle) hoff₂ g.world
      rw [hparts]
      exact ⟨_, bind_eq_ok.mpr ⟨g, hg, bind_eq_ok.mpr
        ⟨_, bind_eq_ok.mpr ⟨g₂, hg₂, rfl⟩, rfl⟩⟩⟩
  obtain ⟨g, hg⟩ := hserved
  exact ⟨⟨g.cacher, g.world, s.calls ++ s.callsFor q⟩, by simp only [pageMachine, hg]⟩

/-- A request over two pages, made twice of a reader that reads: all steps read what they need, and
the two pages are read once. -/
theorem reads_needed_overTheEnd : ∃ s, (pageMachine ()).exec (pageMachine ()).init
      [.install .allSevens, .getContent overTheEnd, .getContent overTheEnd] = some s ∧
    AllNeeded () [.install .allSevens, .getContent overTheEnd, .getContent overTheEnd] ∧
    (s.calls.filter fun e => e.ReadsPage ∧ e.page = 0x1000).length ≤ 1 := by
  obtain ⟨u, hu⟩ : ∃ u, (pageMachine ()).step (pageMachine ()).init (.install .allSevens) =
    some u := ⟨_, rfl⟩
  have hrun₁ : (pageMachine ()).exec (pageMachine ()).init [.install .allSevens] = some u :=
    (Machine.exec_cons_eq_some _).mpr ⟨u, hu, rfl⟩
  obtain ⟨t, ht⟩ := PageReads.exists_step (w := ()) (PageReads.lastPage_of_exec hrun₁) overTheEnd
  have hrun : (pageMachine ()).exec (pageMachine ()).init
      [.install .allSevens, .getContent overTheEnd] = some t :=
    (Machine.exec_cons_eq_some _).mpr ⟨u, hu, (Machine.exec_cons_eq_some _).mpr ⟨t, ht, rfl⟩⟩
  obtain ⟨s, hs⟩ := PageReads.exists_step (w := ()) (PageReads.lastPage_of_exec hrun) overTheEnd
  have hrun' : (pageMachine ()).exec (pageMachine ()).init
      [.install .allSevens, .getContent overTheEnd, .getContent overTheEnd] = some s :=
    (Machine.exec_cons_eq_some _).mpr ⟨u, hu, (Machine.exec_cons_eq_some _).mpr
      ⟨t, ht, (Machine.exec_cons_eq_some _).mpr ⟨s, hs, rfl⟩⟩⟩
  have hcareful : ∀ u : PageReads Unit, u.Careful (.getContent overTheEnd) := fun u =>
    ⟨fun hends => absurd hends.1 (by decide), fun haside => absurd haside.2.1 (by decide)⟩
  have hall := (reads_needed_of_careful hrun').1
    (.cons _ ⟨trivial, fun h => h⟩ hu (.cons _ (hcareful _) ht (.cons _ (hcareful _) hs trivial)))
  have hlastStep := hall [.install .allSevens, .getContent overTheEnd] (.getContent overTheEnd) []
    t s rfl hrun hs
  exact ⟨s, hrun', hall, hlastStep.2 0x1000⟩

/-- A reader of a target without readable memory. -/
def Reader.nothing : Reader Unit where
  call w rst _ := (w, rst, 0)
  length_call _ _ _ := rfl

/-- MAIN: a request for the last byte of a page reads the next page.
SRC: mem_cacher/mod.rs:72-79 -/
theorem last_byte_reads_next_page : ¬ ∀ (f : Reader Unit) (ops : List (PageOp Unit))
    (s s' : PageReads Unit) (q : OutsideCall),
    (pageMachine ()).exec (pageMachine ()).init (.install f :: ops) = some s →
      (pageMachine ()).step s (.getContent q) = some s' →
        ∀ e ∈ s.callsFor q, PageReads.Meets q e := by
  intro hall
  have h := hall .nothing [] _ _ (oneByteAt 0x1fff (by decide)) rfl rfl
  rw [PageReads.meets_iff rfl] at h
  exact h ⟨by decide, rfl, Finmap.lookup_empty _⟩

end PtkGenerator

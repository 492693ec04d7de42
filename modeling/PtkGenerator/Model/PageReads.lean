import PtkGenerator.Model.MemCacher

/-!
# What a request reads

`get_content` hands a request to `get_content_in_one_page` as it is or in two parts (`parts`), and
each part calls `f` not at all, for the whole page, or for the whole page and then for the part
itself.  `getContentCalls` lists these calls in their order, each with the pages that are cached
when it is made; a reader that keeps a log sees them and no others (`getContent_logged`).
-/

set_option autoImplicit false

namespace PtkGenerator

variable {σ : Type}

/-! ## Calls of the reader -/

/-- A call of `f`: for the whole page or for the part that is asked for, the count it returns, and
the pages that are cached when it is made. -/
structure ReaderCall where
  whole : Bool
  addr : Usize
  len : ℕ
  count : ℕ
  cached : HashMap Usize PageBuf

/-- The page that is read. -/
def ReaderCall.page (e : ReaderCall) : Usize := pageOf e.addr

/-- The whole page was read, be it for the cache or as the part that is asked for. -/
def ReaderCall.ReadsPage (e : ReaderCall) : Prop :=
  e.addr = pageOf e.addr ∧ e.len = 4096 ∧ e.count = 4096

/-- Whether a call read a whole page is decided by its address and lengths. -/
instance (e : ReaderCall) : Decidable e.ReadsPage :=
  inferInstanceAs (Decidable (e.addr = pageOf e.addr ∧ e.len = 4096 ∧ e.count = 4096))

/-- The address, the length and the count of every call. -/
abbrev ReadLog := List (Usize × ℕ × ℕ)

/-- What a log has of a call. -/
def ReaderCall.seen (e : ReaderCall) : Usize × ℕ × ℕ := (e.addr, e.len, e.count)

/-- The reader that does what `f` does and puts down its calls. -/
def Reader.logged (f : Reader σ) : Reader (σ × ReadLog) where
  call w rst addr :=
    let r := f.call w.1 rst addr
    ((r.1, w.2 ++ [(addr, rst.length, r.2.2)]), r.2)
  length_call w rst addr := f.length_call w.1 rst addr

namespace MemCacher

/-! ## The parts of a request -/

/-- The addresses and the slices of the buffer that `get_content` hands on.
SRC: mem_cacher/mod.rs:71-79 -/
def parts (rst : Bytes) (addr : Usize) : List (Usize × Bytes) :=
  let startAddr := pageOf addr
  let endAddr := pageOf (addr + UInt64.ofNat rst.length)
  if startAddr = endAddr then [(addr, rst)]
  else
    let firstPageSize := (endAddr - addr).toNat
    [(addr, rst.take firstPageSize), (addr + UInt64.ofNat firstPageSize, rst.drop firstPageSize)]

/-- `get_content_in_one_page` for one part after the other. -/
def getContentInParts (c : MemCacher σ) (w : σ) : List (Usize × Bytes) → Except Fault (Got σ)
  | [] => .ok ⟨c, w, [], 0⟩
  | (addr, rst) :: ps => do
    let first ← c.getContentInOnePage w rst addr
    let rest ← first.cacher.getContentInParts first.world ps
    .ok ⟨rest.cacher, rest.world, first.rst ++ rest.rst, first.count + rest.count⟩

/-- An address below the end of the address space does not wrap. -/
theorem toNat_addr_add {addr : Usize} {k n : ℕ} (hw : addr.toNat + n < 2 ^ 64) (hk : k ≤ n) :
    (addr + UInt64.ofNat k).toNat = addr.toNat + k := by
  rw [UInt64.toNat_add, UInt64.toNat_ofNat', Nat.mod_eq_of_lt (a := k) (by omega),
    Nat.mod_eq_of_lt (by omega)]

/-- A range that ends within its first page has both ends in it. -/
theorem pageOf_end_eq {addr : Usize} {n : ℕ} (hw : addr.toNat + n < 2 ^ 64)
    (hone : (offOf addr).toNat + n < 4096) :
    pageOf addr = pageOf (addr + UInt64.ofNat n) := by
  rw [offOf_toNat] at hone
  apply UInt64.toNat.inj
  rw [pageOf_toNat, pageOf_toNat, toNat_addr_add hw le_rfl]
  omega

/-- The part of a request of `n` bytes in front of the page that contains the address after the
last byte. -/
def firstPageSize (addr : Usize) (n : ℕ) : ℕ := (addr.toNat + n) / 4096 * 4096 - addr.toNat

/-- INTERNAL: **the split of a request**: there is none within a page, and otherwise it is a whole
number of pages behind the beginning of the first one, within the request.
SRC: mem_cacher/mod.rs:71-79 -/
theorem parts_cases {rst : Bytes} {addr : Usize} (hw : addr.toNat + rst.length < 2 ^ 64) :
    ((offOf addr).toNat + rst.length < 4096 ∧ parts rst addr = [(addr, rst)]) ∨
    (4096 ≤ (offOf addr).toNat + rst.length ∧
      ¬ pageOf (addr + UInt64.ofNat rst.length) < addr ∧
      (pageOf (addr + UInt64.ofNat rst.length) - addr).toNat = firstPageSize addr rst.length ∧
      firstPageSize addr rst.length ≤ rst.length ∧ 0 < firstPageSize addr rst.length ∧
      pageOf addr ≠ pageOf (addr + UInt64.ofNat rst.length) ∧
      pageOf (addr + UInt64.ofNat rst.length) =
        addr + UInt64.ofNat (firstPageSize addr rst.length) ∧
      parts rst addr = [(addr, rst.take (firstPageSize addr rst.length)),
        (addr + UInt64.ofNat (firstPageSize addr rst.length),
          rst.drop (firstPageSize addr rst.length))]) := by
  have hend : (pageOf (addr + UInt64.ofNat rst.length)).toNat =
      (addr.toNat + rst.length) / 4096 * 4096 := by
    rw [pageOf_toNat, toNat_addr_add hw le_rfl]
  have hstart := pageOf_toNat addr
  by_cases hpage : (offOf addr).toNat + rst.length < 4096
  · exact .inl ⟨hpage, by simp only [parts, if_pos (pageOf_end_eq hw hpage)]⟩
  · rw [offOf_toNat] at hpage ⊢
    have hne : pageOf addr ≠ pageOf (addr + UInt64.ofNat rst.length) := by
      intro e
      have e' := congrArg UInt64.toNat e
      rw [hend, hstart] at e'
      omega
    have hlt : ¬ pageOf (addr + UInt64.ofNat rst.length) < addr := by
      rw [UInt64.lt_iff_toNat_lt, hend]
      omega
    have hfirst : (pageOf (addr + UInt64.ofNat rst.length) - addr).toNat =
        firstPageSize addr rst.length := by
      rw [UInt64.toNat_sub_of_le _ _ (UInt64.not_lt.mp hlt), hend, firstPageSize]
    have hle : firstPageSize addr rst.length ≤ rst.length := by
      rw [firstPageSize]
      omega
    have hnext : pageOf (addr + UInt64.ofNat rst.length) =
        addr + UInt64.ofNat (firstPageSize addr rst.length) := by
      apply UInt64.toNat.inj
      rw [hend, toNat_addr_add hw hle, firstPageSize]
      omega
    refine .inr ⟨by omega, hlt, hfirst, hle, by rw [firstPageSize]; omega, hne, hnext, ?_⟩
    simp only [parts, if_neg hne, hfirst]

/-- INTERNAL: **a request is served part by part**; none of the checks of `get_content` fails for
a request that ends within the address space.
SRC: mem_cacher/mod.rs:70-82 -/
theorem getContent_eq_parts (c : MemCacher σ) (w : σ) {rst : Bytes} {addr : Usize}
    (hw : addr.toNat + rst.length < 2 ^ 64) :
    c.getContent w rst addr = c.getContentInParts w (parts rst addr) := by
  have hover : ¬ 2 ^ 64 ≤ addr.toNat + rst.length := by omega
  rcases parts_cases hw with ⟨hone, hparts⟩ | ⟨-, hlt, hfirst, hle, -, hne, -, hparts⟩
  · rw [getContent_onePage c w hw (pageOf_end_eq hw hone), hparts]
    simp only [getContentInParts]
    cases c.getContentInOnePage w rst addr with
    | error e => rfl
    | ok g =>
      simp only [ok_bind, List.append_nil, Nat.add_zero]
  · rw [hparts]
    simp only [getContent, if_neg hover, if_neg hne, if_neg hlt, hfirst, if_neg (not_lt.mpr hle),
      getContentInParts]
    cases c.getContentInOnePage w (rst.take (firstPageSize addr rst.length)) addr with
    | error e => rfl
    | ok g =>
      simp only [ok_bind]
      cases g.cacher.getContentInOnePage g.world (rst.drop (firstPageSize addr rst.length))
        (addr + UInt64.ofNat (firstPageSize addr rst.length)) with
      | error e => rfl
      | ok h => simp only [ok_bind, List.append_nil, Nat.add_zero]

/-! ## What a part does -/

/-- The ways in which a part is served: out of the last page or out of the map; without a reader; by
a read of the part, when the page cannot be read as a whole; by a read of the whole page. -/
theorem getContentInOnePage_cases {c : MemCacher σ} {w : σ} {rst : Bytes} {addr : Usize} {g : Got σ}
    (h : c.getContentInOnePage w rst addr = .ok g) :
    (∃ content rst' r, (c.lastPage = pageOf addr ∨ c.cacheLst.lookup (pageOf addr) = some content) ∧
      getContentInCacheItem content addr rst = .ok (rst', r) ∧ g = ⟨c, w, rst', r⟩) ∨
    (c.lastPage ≠ pageOf addr ∧ c.cacheLst.lookup (pageOf addr) = none ∧
      ((c.f = none ∧ g = ⟨c, w, rst, 0⟩) ∨
       (∃ f, c.f = some f ∧
        let whole := f.call w PageBuf.zeroed.val (pageOf addr)
        let short := f.call whole.1 rst addr
        whole.2.2 ≠ 4096 ∧
          g = ⟨c, short.1, short.2.1, if short.2.2 = rst.length then rst.length else 0⟩) ∨
       (∃ f tmpBuff rst' r, c.f = some f ∧
        let whole := f.call w PageBuf.zeroed.val (pageOf addr)
        whole.2.2 = 4096 ∧ tmpBuff.val = whole.2.1 ∧
          getContentInCacheItem tmpBuff addr rst = .ok (rst', r) ∧
          g = ⟨{ c with lastContent := some (pageOf addr),
                        cacheLst := c.cacheLst.insert (pageOf addr) tmpBuff },
            whole.1, rst', r⟩))) := by
  by_cases hlast : c.lastPage = pageOf addr
  · simp only [getContentInOnePage, if_pos hlast] at h
    obtain ⟨content, -, h⟩ := bind_eq_ok.mp h
    obtain ⟨⟨rst', r⟩, hitem, h⟩ := bind_eq_ok.mp h
    exact .inl ⟨content, rst', r, .inl hlast, hitem, (Except.ok.inj h).symm⟩
  · simp only [getContentInOnePage, if_neg hlast] at h
    cases hhit : c.cacheLst.lookup (pageOf addr) with
    | some content =>
      simp only [hhit] at h
      obtain ⟨⟨rst', r⟩, hitem, h⟩ := bind_eq_ok.mp h
      exact .inl ⟨content, rst', r, .inr rfl, hitem, (Except.ok.inj h).symm⟩
    | none =>
      refine .inr ⟨hlast, rfl, ?_⟩
      simp only [hhit] at h
      cases hf : c.f with
      | none =>
        simp only [hf] at h
        exact .inl ⟨rfl, (Except.ok.inj h).symm⟩
      | some f =>
        simp only [hf] at h
        split at h
        · next hwhole =>
          refine .inr (.inl ⟨f, rfl, hwhole, ?_⟩)
          split at h
          · next hshort =>
            rw [if_neg hshort]
            exact (Except.ok.inj h).symm
          · next hshort =>
            rw [if_pos (not_not.mp hshort), ← not_not.mp hshort]
            exact (Except.ok.inj h).symm
        · next hwhole =>
          obtain ⟨⟨rst', r⟩, hitem, h⟩ := bind_eq_ok.mp h
          exact .inr (.inr ⟨f, _, rst', r, rfl, not_not.mp hwhole, rfl, hitem,
            (Except.ok.inj h).symm⟩)

/-- Within the page the cached content is copied out in full. -/
theorem getContentInCacheItem_eq {content : PageBuf} {addr : Usize} {rst : Bytes}
    (hlen : (offOf addr).toNat + rst.length ≤ 4096) :
    getContentInCacheItem content addr rst =
      .ok ((content.val.drop (offOf addr).toNat).take rst.length, rst.length) := by
  rw [getContentInCacheItem, if_pos hlen]

/-- A part within a page is served, when the fast path does not answer for that page. -/
theorem exists_getContentInOnePage {c : MemCacher σ} {addr : Usize} {rst : Bytes}
    (hlast : c.lastPage ≠ pageOf addr) (hlen : (offOf addr).toNat + rst.length ≤ 4096) (w : σ) :
    ∃ g, c.getContentInOnePage w rst addr = .ok g := by
  simp only [getContentInOnePage, if_neg hlast, getContentInCacheItem_eq hlen, ok_bind]
  cases c.cacheLst.lookup (pageOf addr) with
  | some content => exact ⟨_, rfl⟩
  | none =>
    cases c.f with
    | none => exact ⟨_, rfl⟩
    | some f =>
      simp only
      split
      · split
        · exact ⟨_, rfl⟩
        · exact ⟨_, rfl⟩
      · exact ⟨_, rfl⟩

/-! ## The calls for a request -/

/-- The calls of `f` in `get_content_in_one_page`.
SRC: mem_cacher/mod.rs:38-49 -/
def onePageCalls (c : MemCacher σ) (w : σ) (rst : Bytes) (addr : Usize) : List ReaderCall :=
  let p := pageOf addr
  if c.lastPage = p then []
  else
    match c.cacheLst.lookup p with
    | some _ => []
    | none =>
      match c.f with
      | none => []
      | some f =>
        let whole := f.call w PageBuf.zeroed.val p
        let call : ReaderCall := ⟨true, p, 4096, whole.2.2, c.cacheLst⟩
        if whole.2.2 ≠ 4096 then
          [call, ⟨false, addr, rst.length, (f.call whole.1 rst addr).2.2, c.cacheLst⟩]
        else [call]

/-- The calls of `f` for one part after the other. -/
def partsCalls (c : MemCacher σ) (w : σ) : List (Usize × Bytes) → List ReaderCall
  | [] => []
  | (addr, rst) :: ps => c.onePageCalls w rst addr ++
    match c.getContentInOnePage w rst addr with
    | .ok first => first.cacher.partsCalls first.world ps
    | .error _ => []

/-- The calls of `f` in `get_content`. -/
def getContentCalls (c : MemCacher σ) (w : σ) (rst : Bytes) (addr : Usize) : List ReaderCall :=
  c.partsCalls w (parts rst addr)

/-- The reader is not called where the page is at hand, or there is no reader. -/
theorem onePageCalls_eq_nil_iff {c : MemCacher σ} {w : σ} {rst : Bytes} {addr : Usize} :
    c.onePageCalls w rst addr = [] ↔
      (c.lastPage ≠ pageOf addr → c.f.isSome = true →
        (c.cacheLst.lookup (pageOf addr)).isSome) := by
  unfold onePageCalls
  by_cases hlast : c.lastPage = pageOf addr
  · simp [hlast]
  · cases hlookup : c.cacheLst.lookup (pageOf addr) with
    | some content => simp only [if_neg hlast, hlookup, Option.isSome_some, implies_true]
    | none =>
      cases hf : c.f with
      | none => simp only [if_neg hlast, hlookup, Option.isSome_none, Bool.false_eq_true,
          false_implies, implies_true]
      | some f =>
        simp only [if_neg hlast, hlookup]
        split <;> simp [hlast]

/-- INTERNAL: a part calls `f` for its page, while that page is not cached. -/
theorem mem_onePageCalls {c : MemCacher σ} {w : σ} {rst : Bytes} {addr : Usize} {e : ReaderCall}
    (h : e ∈ c.onePageCalls w rst addr) : e.page = pageOf addr ∧ e.cached = c.cacheLst ∧
      c.lastPage ≠ pageOf addr ∧ c.cacheLst.lookup (pageOf addr) = none := by
  unfold onePageCalls at h
  by_cases hlast : c.lastPage = pageOf addr
  · simp [hlast] at h
  · cases hlookup : c.cacheLst.lookup (pageOf addr) with
    | some content => simp only [if_neg hlast, hlookup, List.not_mem_nil] at h
    | none =>
      cases hf : c.f with
      | none => simp only [if_neg hlast, hlookup, hf, List.not_mem_nil] at h
      | some f =>
        simp only [if_neg hlast, hlookup, hf] at h
        split at h
        · simp only [List.mem_cons, List.not_mem_nil, or_false] at h
          rcases h with rfl | rfl
          · exact ⟨pageOf_pageOf addr, rfl, hlast, rfl⟩
          · exact ⟨rfl, rfl, hlast, rfl⟩
        · rw [List.mem_singleton.mp h]
          exact ⟨pageOf_pageOf addr, rfl, hlast, rfl⟩

/-- A call for the part itself is one of the reader that did not read the page as a whole. -/
theorem mem_onePageCalls_part {c : MemCacher σ} {w : σ} {rst : Bytes} {addr : Usize}
    {e : ReaderCall} (h : e ∈ c.onePageCalls w rst addr) (hpart : e.whole = false) :
    e.addr = addr ∧ e.len = rst.length ∧ ∃ f, c.f = some f ∧
      (f.call w PageBuf.zeroed.val (pageOf addr)).2.2 ≠ 4096 ∧
      e.count = (f.call (f.call w PageBuf.zeroed.val (pageOf addr)).1 rst addr).2.2 := by
  obtain ⟨-, -, hlast, hlookup⟩ := mem_onePageCalls h
  unfold onePageCalls at h
  cases hf : c.f with
  | none => simp only [if_neg hlast, hlookup, hf, List.not_mem_nil] at h
  | some f =>
    simp only [if_neg hlast, hlookup, hf] at h
    split at h
    · next hwhole =>
      simp only [List.mem_cons, List.not_mem_nil, or_false] at h
      rcases h with rfl | rfl
      · cases hpart
      · exact ⟨rfl, rfl, f, rfl, hwhole, rfl⟩
    · rw [List.mem_singleton.mp h] at hpart
      cases hpart

/-- The calls of a reader that does not read the page as a whole. -/
theorem onePageCalls_of_fails {c : MemCacher σ} {w : σ} {rst : Bytes} {addr : Usize}
    {f : Reader σ} (hlast : c.lastPage ≠ pageOf addr)
    (hlookup : c.cacheLst.lookup (pageOf addr) = none) (hf : c.f = some f)
    (hwhole : (f.call w PageBuf.zeroed.val (pageOf addr)).2.2 ≠ 4096) :
    c.onePageCalls w rst addr =
      [⟨true, pageOf addr, 4096, (f.call w PageBuf.zeroed.val (pageOf addr)).2.2, c.cacheLst⟩,
        ⟨false, addr, rst.length,
          (f.call (f.call w PageBuf.zeroed.val (pageOf addr)).1 rst addr).2.2, c.cacheLst⟩] := by
  simp only [onePageCalls, if_neg hlast, hlookup, hf, if_pos hwhole]

/-- The only call of a reader that reads the page as a whole. -/
theorem onePageCalls_of_reads {c : MemCacher σ} {w : σ} {rst : Bytes} {addr : Usize}
    {f : Reader σ} (hlast : c.lastPage ≠ pageOf addr)
    (hlookup : c.cacheLst.lookup (pageOf addr) = none) (hf : c.f = some f)
    (hwhole : (f.call w PageBuf.zeroed.val (pageOf addr)).2.2 = 4096) :
    c.onePageCalls w rst addr = [⟨true, pageOf addr, 4096, 4096, c.cacheLst⟩] := by
  simp only [onePageCalls, if_neg hlast, hlookup, hf, hwhole, ne_eq, not_true, if_false]

/-! ## A reader that keeps a log -/

/-- The cacher with the reader that keeps a log. -/
def logged (c : MemCacher σ) : MemCacher (σ × ReadLog) :=
  ⟨c.cacheLst, c.lastPage, c.lastContent, c.f.map Reader.logged⟩

/-- What a read leaves behind, with a log. -/
def withLog (g : Got σ) (log : ReadLog) : Got (σ × ReadLog) :=
  ⟨g.cacher.logged, (g.world, log), g.rst, g.count⟩

/-- The logged reader does what the reader does, and logs the calls of one page. -/
theorem getContentInOnePage_logged (c : MemCacher σ) (w : σ) (log : ReadLog) (rst : Bytes)
    (addr : Usize) :
    c.logged.getContentInOnePage (w, log) rst addr = (c.getContentInOnePage w rst addr).map
      fun g => withLog g (log ++ (c.onePageCalls w rst addr).map ReaderCall.seen) := by
  by_cases hlast : c.lastPage = pageOf addr
  · have hlast' : c.logged.lastPage = pageOf addr := hlast
    simp only [getContentInOnePage, onePageCalls, if_pos hlast, if_pos hlast', List.map_nil,
      List.append_nil]
    have hderef : c.logged.lastDeref = c.lastDeref := rfl
    rw [hderef]
    cases c.lastDeref with
    | error e => rfl
    | ok content =>
      simp only [ok_bind]
      cases getContentInCacheItem content addr rst with
      | error e => rfl
      | ok r => rfl
  · have hlast' : ¬ c.logged.lastPage = pageOf addr := hlast
    have hlst : c.logged.cacheLst = c.cacheLst := rfl
    simp only [getContentInOnePage, onePageCalls, if_neg hlast, if_neg hlast', hlst]
    cases hlookup : c.cacheLst.lookup (pageOf addr) with
    | some content =>
      simp only [List.map_nil, List.append_nil]
      cases getContentInCacheItem content addr rst with
      | error e => rfl
      | ok r => rfl
    | none =>
      cases hf : c.f with
      | none =>
        have hf' : c.logged.f = none := by rw [logged, hf]; rfl
        simp only [hf', List.map_nil, List.append_nil]
        rfl
      | some f =>
        have hf' : c.logged.f = some f.logged := by rw [logged, hf]; rfl
        have hcall : ∀ log rst addr v, f.logged.call (v, log) rst addr =
            (((f.call v rst addr).1, log ++ [(addr, rst.length, (f.call v rst addr).2.2)]),
              (f.call v rst addr).2) := fun _ _ _ _ => rfl
        simp only [hf', hcall, PageBuf.zeroed.2]
        split
        · split
          · simp only [List.map_cons, List.map_nil, List.append_assoc]
            rfl
          · simp only [List.map_cons, List.map_nil, List.append_assoc]
            rfl
        · simp only [List.map_cons, List.map_nil]
          cases getContentInCacheItem _ addr rst with
          | error e => rfl
          | ok r => rfl

/-- The logged reader does what the reader does, and logs the calls of the parts. -/
theorem getContentInParts_logged (c : MemCacher σ) (w : σ) (log : ReadLog)
    (ps : List (Usize × Bytes)) :
    c.logged.getContentInParts (w, log) ps = (c.getContentInParts w ps).map
      fun g => withLog g (log ++ (c.partsCalls w ps).map ReaderCall.seen) := by
  induction ps generalizing c w log with
  | nil =>
    simp only [getContentInParts, partsCalls, List.map_nil, List.append_nil]
    rfl
  | cons p ps ih =>
    obtain ⟨addr, rst⟩ := p
    simp only [getContentInParts, partsCalls, getContentInOnePage_logged]
    cases c.getContentInOnePage w rst addr with
    | error e => rfl
    | ok g =>
      have hnext := ih g.cacher g.world (log ++ (c.onePageCalls w rst addr).map ReaderCall.seen)
      simp only [Except.map, ok_bind, withLog, hnext]
      cases g.cacher.getContentInParts g.world ps with
      | error e => rfl
      | ok r =>
        simp only [ok_bind, List.map_append, List.append_assoc]

/-- INTERNAL: **a reader that keeps a log puts down the calls of `getContentCalls`**, and nothing
else changes.
SRC: mem_cacher/mod.rs:35-82 -/
theorem getContent_logged (c : MemCacher σ) (w : σ) (log : ReadLog) {rst : Bytes} {addr : Usize}
    (hw : addr.toNat + rst.length < 2 ^ 64) :
    c.logged.getContent (w, log) rst addr = (c.getContent w rst addr).map
      fun g => withLog g (log ++ (c.getContentCalls w rst addr).map ReaderCall.seen) := by
  rw [getContent_eq_parts _ _ hw, getContent_eq_parts _ _ hw, getContentInParts_logged]
  rfl

end MemCacher

end PtkGenerator

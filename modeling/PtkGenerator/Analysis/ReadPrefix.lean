import PtkGenerator.Analysis.CacheTransparency
import PtkGenerator.Model.PageReads

/-!
# The returned count as the length of a prefix

The decoder takes what `get_content` returns as the number of bytes at the beginning of the buffer
that were read.  The counts of the two parts of a request are added, whether the first one was
read or not, so the count is no such length when the second part was read and the first was not:
`valid_prefix_iff` says that there are no other exceptions, in every state that a sequence of calls
leads to, requests of any length among them.
-/

set_option autoImplicit false

namespace PtkGenerator

open Ranges

variable {σ : Type} {mem : Memory}

/-! ## Requests of any length -/

/-- The calls on a cacher, with requests of any length. -/
inductive RequestOp (mem : Memory) (σ : Type) where
  | getContent (rst : Bytes) (addr : Usize)
  | clearData
  | install (f : { f : Reader σ // f.Reads mem })

/-- A cacher and the world of its reader under a sequence of calls; a read that faults ends it. -/
def requestMachine (mem : Memory) (w : σ) : Machine (MemCacher σ × σ) (RequestOp mem σ) where
  init := (MemCacher.new, w)
  step s
    | .getContent rst addr =>
      match s.1.getContent s.2 rst addr with
      | .ok g => some (g.cacher, g.world)
      | .error _ => none
    | .clearData => some (s.1.clearData, s.2)
    | .install f => some (s.1.install f.val, s.2)

/-- Without a reader there are no pages. -/
structure LoadedInv (mem : Memory) (c : MemCacher σ) : Prop extends CacheInv mem c where
  unloaded : c.f = none → ∀ p, c.cacheLst.lookup p = none

/-- A read of one page keeps what is loaded. -/
theorem LoadedInv.onePage {c : MemCacher σ} (h : LoadedInv mem c) {w : σ} {rst : Bytes}
    {addr : Usize} {g : Got σ} (hg : c.getContentInOnePage w rst addr = .ok g) :
    LoadedInv mem g.cacher := by
  rcases MemCacher.getContentInOnePage_cases hg with ⟨_, _, _, -, -, rfl⟩ | ⟨hlast, -, hcases⟩
  · exact h
  · rcases hcases with ⟨-, rfl⟩ | ⟨f, -, -, rfl⟩ | ⟨f, buf, _, _, hf, hwhole, hbuf, -, rfl⟩
    · exact h
    · exact h
    · have hp : pageOf addr ≠ 0 := by
        rw [h.lastPage] at hlast
        exact hlast.symm
      -- the page was read as a whole, so it holds the bytes of the target
      have hread : readRange mem (pageOf addr).toNat 4096 = some buf.val := by
        have hs := h.reader f hf
        cases hr : readRange mem (pageOf addr).toNat 4096 with
        | some l =>
          rw [hbuf, hs.whole w (pageOf addr) l (pageOf_pageOf addr) hr]
        | none =>
          rw [hs.whole_fails w (pageOf addr) (pageOf_pageOf addr) hr] at hwhole
          cases hwhole
      exact ⟨h.toCacheInv.insert hp hread, fun hnone => absurd (hf.symm.trans hnone) (by simp)⟩

/-- A read of the parts keeps what is loaded. -/
theorem LoadedInv.inParts {c : MemCacher σ} (h : LoadedInv mem c) {w : σ}
    {ps : List (Usize × Bytes)} {g : Got σ} (hg : c.getContentInParts w ps = .ok g) :
    LoadedInv mem g.cacher := by
  induction ps generalizing c w g with
  | nil =>
    obtain rfl := Except.ok.inj hg
    exact h
  | cons p ps ih =>
    obtain ⟨first, hfirst, hg⟩ := bind_eq_ok.mp hg
    obtain ⟨rest, hrest, hg⟩ := bind_eq_ok.mp hg
    obtain rfl := Except.ok.inj hg
    show LoadedInv mem rest.cacher
    exact ih (h.onePage hfirst) hrest

/-- INTERNAL: **every sequence of calls keeps the invariant.**
SRC: mem_cacher/mod.rs:12-82 -/
theorem requestMachine_inv {w : σ} {s : MemCacher σ × σ}
    (hs : (requestMachine mem w).Reachable s) : LoadedInv mem s.1 := by
  refine Machine.invariant _ (P := fun s => LoadedInv mem s.1) ?_ ?_ hs
  · exact ⟨CacheInv.new mem, fun _ p => Finmap.lookup_empty p⟩
  · intro s op s' h hstep
    cases op with
    | getContent rst addr =>
      simp only [requestMachine] at hstep
      split at hstep
      · next g hg =>
        rw [← Option.some.inj hstep]
        by_cases hw : addr.toNat + rst.length < 2 ^ 64
        · rw [MemCacher.getContent_eq_parts _ _ hw] at hg
          exact h.inParts hg
        · rw [MemCacher.getContent, if_pos (not_lt.mp hw)] at hg
          cases hg
      · cases hstep
    | clearData =>
      rw [← Option.some.inj hstep]
      exact ⟨CacheInv.clearData mem s.1, fun _ p => Finmap.lookup_empty p⟩
    | install f =>
      rw [← Option.some.inj hstep]
      exact ⟨h.toCacheInv.install f.2.serves, fun hnone => by cases hnone⟩

/-! ## The count of a request -/

/-- The number of bytes from the address of a request to the end of its first page. -/
def ReadCall.firstPart (q : ReadCall) : ℕ := 4096 - q.addr.toNat % 4096

/-- The count is the length of a prefix of the buffer that was read; in particular the bytes of the
second page are not counted when those of the first one cannot be read. -/
structure ValidPrefix (mem : Memory) (q : ReadCall) (rst : Bytes) (count : ℕ) : Prop where
  le : count ≤ q.rst.length
  target : readRange mem q.addr.toNat count = some (rst.take count)
  first : q.firstPart < q.rst.length → readRange mem q.addr.toNat q.firstPart = none → count = 0

/-- The request runs over the end of its first page, some byte of it there cannot be read, and all
of its bytes in the second page can. -/
def SecondPageOnly (mem : Memory) (q : ReadCall) : Prop :=
  q.firstPart < q.rst.length ∧ readRange mem q.addr.toNat q.firstPart = none ∧
    (readRange mem (q.addr.toNat + q.firstPart) (q.rst.length - q.firstPart)).isSome

/-- No part of a read outside of page 0 is in page 0. -/
theorem pageOf_ne_zero_of_mem_parts {rst : Bytes} {addr : Usize}
    (hw : addr.toNat + rst.length < 2 ^ 64) (hp : 4096 ≤ addr.toNat) :
    ∀ p ∈ MemCacher.parts rst addr, pageOf p.1 ≠ 0 := by
  have hne : ∀ k ≤ rst.length, pageOf (addr + UInt64.ofNat k) ≠ 0 := by
    intro k hk
    rw [Ne, pageOf_eq_zero_iff, MemCacher.toNat_addr_add hw hk]
    omega
  have hfirst : pageOf addr ≠ 0 := by
    rw [Ne, pageOf_eq_zero_iff]
    omega
  rcases MemCacher.parts_cases hw with ⟨-, hparts⟩ | ⟨-, -, -, hle, -, -, -, hparts⟩
  · rw [hparts, List.forall_mem_singleton]
    exact hfirst
  · rw [hparts, List.forall_mem_cons, List.forall_mem_singleton]
    exact ⟨hfirst, hne _ hle⟩

/-- Without a reader nothing is read. -/
theorem LoadedInv.count_eq_zero {c : MemCacher σ} (h : LoadedInv mem c) (hf : c.f = none) {w : σ}
    {ps : List (Usize × Bytes)} {g : Got σ} (hp : ∀ p ∈ ps, pageOf p.1 ≠ 0)
    (hg : c.getContentInParts w ps = .ok g) : g.count = 0 := by
  induction ps generalizing c w g with
  | nil =>
    obtain rfl := Except.ok.inj hg
    rfl
  | cons p ps ih =>
    obtain ⟨first, hfirst, hg⟩ := bind_eq_ok.mp hg
    obtain ⟨rest, hrest, hg⟩ := bind_eq_ok.mp hg
    obtain rfl := Except.ok.inj hg
    have hzero : first.cacher = c ∧ first.count = 0 := by
      rcases MemCacher.getContentInOnePage_cases hfirst with ⟨_, _, _, hor, -, -⟩ | ⟨-, -, hcases⟩
      · rcases hor with hor | hor
        · rw [h.lastPage] at hor
          exact absurd hor.symm (hp p List.mem_cons_self)
        · rw [h.unloaded hf] at hor
          cases hor
      · rcases hcases with ⟨-, rfl⟩ | ⟨f, hsome, -⟩ | ⟨f, _, _, _, hsome, -⟩
        · exact ⟨rfl, rfl⟩
        · rw [hf] at hsome
          cases hsome
        · rw [hf] at hsome
          cases hsome
    rw [hzero.1] at hrest
    show first.count + rest.count = 0
    rw [hzero.2, ih h hf (fun p hm => hp p (List.mem_cons_of_mem _ hm)) hrest]

/-- INTERNAL: **the count of a request** whose first part cannot be read is that of its second part.
SRC: mem_cacher/mod.rs:77-80 -/
theorem count_of_secondPageOnly {c : MemCacher σ} (h : CacheInv mem c) (hf : c.f.isSome = true)
    {w : σ} {q : ReadCall} (hp : 4096 ≤ q.addr.toNat) (hsecond : SecondPageOnly mem q) {g : Got σ}
    (hg : c.getContent w q.rst q.addr = .ok g) : g.count = q.rst.length - q.firstPart := by
  obtain ⟨hlt, hfirst, hsome⟩ := hsecond
  rcases getContent_answered h w q hp with
    ⟨hone, -⟩ | ⟨k, g₁, g₂, hk, -, hg', -, -, -, -, hans₁, hans₂⟩
  · rw [ReadCall.firstPart] at hlt
    omega
  · obtain rfl : k = q.firstPart := by
      rw [ReadCall.firstPart]
      omega
    obtain rfl := Except.ok.inj (hg'.symm.trans hg)
    rcases hans₁ with ⟨-, hr₁⟩ | ⟨hc₁, -⟩
    · rw [hfirst] at hr₁
      cases hr₁
    · rcases hans₂ with ⟨hc₂, -⟩ | ⟨-, hnone⟩
      · show g₁.count + g₂.count = _
        rw [hc₁, hc₂, Nat.zero_add]
      · rw [hnone hf] at hsome
        cases hsome

/-- No byte is a valid prefix of anything. -/
theorem ValidPrefix.zero (q : ReadCall) (rst : Bytes) : ValidPrefix mem q rst 0 :=
  ⟨Nat.zero_le _, rfl, fun _ _ => rfl⟩

/-- A request in one page is answered with a prefix. -/
theorem ValidPrefix.onePart {q : ReadCall} {rst : Bytes} {count : ℕ} {installed : Prop}
    (hfirst : ¬ q.firstPart < q.rst.length) (hlen : rst.length = q.rst.length)
    (hans : Answered mem installed q.addr.toNat q.rst.length rst count) :
    ValidPrefix mem q rst count := by
  rcases hans with ⟨hc, hr⟩ | ⟨hc, -⟩
  · refine ⟨hc.le, ?_, fun hlt => absurd hlt hfirst⟩
    rw [hc, hr, List.take_of_length_le hlen.le]
  · rw [hc]
    exact .zero q rst

/-- A request whose first part was read is answered with a prefix. -/
theorem ValidPrefix.twoParts {q : ReadCall} {rst₁ rst₂ : Bytes} {count : ℕ} {installed : Prop}
    (hle : q.firstPart ≤ q.rst.length) (hr₁ : readRange mem q.addr.toNat q.firstPart = some rst₁)
    (hlen₂ : rst₂.length = q.rst.length - q.firstPart)
    (hans₂ : Answered mem installed (q.addr.toNat + q.firstPart) (q.rst.length - q.firstPart)
      rst₂ count) : ValidPrefix mem q (rst₁ ++ rst₂) (q.firstPart + count) := by
  have hlen₁ := length_of_readRange _ hr₁
  refine ⟨?_, ?_, fun _ hnone => by rw [hr₁] at hnone; cases hnone⟩
  · rcases hans₂ with ⟨hc₂, -⟩ | ⟨hc₂, -⟩ <;> omega
  · rcases hans₂ with ⟨hc₂, hr₂⟩ | ⟨hc₂, -⟩
    · rw [hc₂, readRange_append mem hr₁ hr₂, List.take_of_length_le]
      rw [List.length_append, hlen₁, hlen₂]
    · rw [hc₂, Nat.add_zero, hr₁, List.take_left' hlen₁]

/-- MAIN: **the count is the length of a prefix that was read, unless only the second page was.**
In every state that a sequence of calls leads to, for every target and every request of at most
4096 bytes outside of page 0: the count is at most the length of the request, that many bytes at the
beginning of the buffer are those of the target, and bytes of the second page are not counted when
those of the first one cannot be read, if and only if the request is not one that can be read in its
second page only, or there is no reader.
SRC: mem_cacher/mod.rs:35-82, decode_proc/mod.rs:30-39 -/
theorem valid_prefix_iff {w : σ} {s : MemCacher σ × σ} (hs : (requestMachine mem w).Reachable s)
    (q : ReadCall) (hp : 4096 ≤ q.addr.toNat) :
    (∃ g, s.1.getContent s.2 q.rst q.addr = .ok g ∧ ValidPrefix mem q g.rst g.count) ↔
      ¬ (s.1.f.isSome = true ∧ SecondPageOnly mem q) := by
  have hinv := requestMachine_inv hs
  constructor
  · rintro ⟨g, hg, hvalid⟩ ⟨hf, hsecond⟩
    have hcount := count_of_secondPageOnly hinv.toCacheInv hf hp hsecond hg
    rw [hvalid.first hsecond.1 hsecond.2.1] at hcount
    have := hsecond.1
    omega
  · intro hnot
    rcases getContent_answered hinv.toCacheInv s.2 q hp with
      ⟨hone, g, hg, -, -, hlen, hans⟩ | ⟨k, g₁, g₂, hk, hle, hg, -, -, -, hlen₂, hans₁, hans₂⟩
    · have hfirst : ¬ q.firstPart < q.rst.length := by
        rw [ReadCall.firstPart]
        omega
      exact ⟨g, hg, .onePart hfirst hlen hans⟩
    · obtain rfl : k = q.firstPart := by
        rw [ReadCall.firstPart]
        omega
      refine ⟨_, hg, ?_⟩
      rcases hans₁ with ⟨hc₁, hr₁⟩ | ⟨hc₁, hnone₁⟩
      · show ValidPrefix mem q (g₁.rst ++ g₂.rst) (g₁.count + g₂.count)
        rw [hc₁]
        exact .twoParts hle hr₁ hlen₂ hans₂
      · -- the first part was not read, so nothing is counted
        have hzero : g₁.count + g₂.count = 0 := by
          cases hf : s.1.f with
          | none =>
            rw [MemCacher.getContent_eq_parts _ _ q.no_wrap] at hg
            exact hinv.count_eq_zero hf (pageOf_ne_zero_of_mem_parts q.no_wrap hp) hg
          | some f =>
            have hsome : s.1.f.isSome = true := by rw [hf]; rfl
            rcases hans₂ with ⟨hc₂, hr₂⟩ | ⟨hc₂, -⟩
            · -- the second part was read, so it is empty
              by_contra hne
              refine hnot ⟨hsome, by omega, hnone₁ hsome, ?_⟩
              rw [hr₂]
              rfl
            · omega
        show ValidPrefix mem q (g₁.rst ++ g₂.rst) (g₁.count + g₂.count)
        rw [hzero]
        exact .zero q _

/-! ## A request over the end of an unreadable page -/

/-- A target with one readable page, the page at 0x2000. -/
def secondPage : Memory := fun a => if 8192 ≤ a ∧ a < 12288 then some 7 else none

/-- The request for the last byte in front of that page and the first one in it. -/
def acrossPages : ReadCall :=
  ⟨[0, 0], 0x1fff, Nat.le_of_ble_eq_true rfl, Nat.le_of_ble_eq_true rfl⟩

/-- Of the page of sevens only the first of the two bytes can be read. -/
theorem sevens_acrossPages :
    readRange sevens 0x1fff 1 = some [7] ∧ readRange sevens 0x2000 1 = none := by
  constructor
  · rw [readRange_succ, sevens, if_pos (by omega)]
    rfl
  · rw [readRange_succ, sevens, if_neg (by omega), Option.bind_none]

/-- A read over the end of the page of sevens counts the byte in it, and no more. -/
theorem valid_prefix_acrossPages : ∃ g,
    (MemCacher.new.install (.ofMemory sevens)).getContent () [0, 0] 0x1fff = .ok g ∧
      ValidPrefix sevens acrossPages g.rst g.count ∧ g.count = 1 := by
  have hreach : (requestMachine sevens ()).Reachable
      (MemCacher.new.install (.ofMemory sevens), ()) :=
    ⟨[.install ⟨.ofMemory sevens, Reader.ofMemory_reads sevens⟩], rfl⟩
  obtain ⟨hfirst, hsecond⟩ := sevens_acrossPages
  obtain ⟨g, hg, hvalid⟩ := (valid_prefix_iff hreach acrossPages (by decide)).mpr fun hnot => by
    have hnone : readRange sevens 0x1fff 1 = none := hnot.2.2.1
    rw [hfirst] at hnone
    cases hnone
  refine ⟨g, hg, hvalid, ?_⟩
  rcases getContent_answered (requestMachine_inv hreach).toCacheInv () acrossPages (by decide) with
    ⟨hone, -⟩ | ⟨k, g₁, g₂, hk, -, hg', -, -, -, -, hans₁, hans₂⟩
  · exact absurd hone (by decide)
  · obtain rfl : k = 1 := Nat.add_left_cancel (n := 4095) hk
    obtain rfl := Except.ok.inj (hg'.symm.trans hg)
    change g₁.count + g₂.count = 1
    rcases hans₁ with ⟨hc₁, -⟩ | ⟨-, hnone⟩
    · rcases hans₂ with ⟨-, hr₂⟩ | ⟨hc₂, -⟩
      · have hr₂' : readRange sevens 0x2000 1 = some g₂.rst := hr₂
        rw [hsecond] at hr₂'
        cases hr₂'
      · rw [hc₁, hc₂]
    · have hnone' : readRange sevens 0x1fff 1 = none := hnone rfl
      rw [hfirst] at hnone'
      cases hnone'

/-- Of that page the second byte is one, and the byte in front of it cannot be read. -/
theorem acrossPages_secondPageOnly : SecondPageOnly secondPage acrossPages := by
  refine ⟨by decide, ?_, ?_⟩
  · show readRange secondPage 0x1fff 1 = none
    rw [readRange_succ, secondPage, if_neg (by omega), Option.bind_none]
  · show (readRange secondPage 0x2000 1).isSome
    rw [readRange_succ, secondPage, if_pos (by omega)]
    rfl

/-- MAIN: the byte of the second page is counted, and the first byte of the buffer is not one of
the target.
SRC: mem_cacher/mod.rs:77-80 -/
theorem second_page_counted : ¬ ∀ (mem : Memory) (s : MemCacher Unit × Unit),
    (requestMachine mem ()).Reachable s → ∀ (q : ReadCall) (g : Got Unit), 4096 ≤ q.addr.toNat →
      s.1.getContent s.2 q.rst q.addr = .ok g →
        g.count ≤ q.rst.length ∧
          readRange mem q.addr.toNat g.count = some (g.rst.take g.count) := by
  intro hall
  have hreach : (requestMachine secondPage ()).Reachable
      (MemCacher.new.install (.ofMemory secondPage), ()) :=
    ⟨[.install ⟨.ofMemory secondPage, Reader.ofMemory_reads secondPage⟩], rfl⟩
  have hinv := (requestMachine_inv hreach).toCacheInv
  obtain ⟨g, hg, -⟩ := getContent_spec hinv () acrossPages (by decide)
  have hread := (hall _ _ hreach acrossPages g (by decide) hg).2
  rw [count_of_secondPageOnly hinv rfl (by decide) acrossPages_secondPageOnly hg] at hread
  have hnone := acrossPages_secondPageOnly.2.1
  exact Option.some_ne_none _ (hread.symm.trans hnone)

end PtkGenerator

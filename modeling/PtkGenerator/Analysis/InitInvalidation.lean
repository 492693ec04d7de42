import PtkGenerator.Library.Families
import PtkGenerator.Model.ProcWorkers

/-!
# What an `Init` invalidates

An `Init` clears the cache of the worker that takes it, and of no other.  `WorkerOk` ties the
stamps of a cache to the two facts about the schedule that matter: which `Init` the worker took
last, and how many had been received when it fetched its first page after that.  The exact
frontier is then a condition on the steps that take a chunk (`Current`).

With one worker every `Init` clears the only cache there is, and the condition always holds.
-/

set_option autoImplicit false

namespace PtkGenerator

variable {σ : Type} {n : ℕ}

/-! ## One worker -/

/-- INTERNAL: **up to the insertion** a read leaves the cacher as it is, and a page in hand is not
in the cache. -/
theorem fetchOnePage_spec {c : MemCacher σ} {w : σ} {rst : Bytes} {addr : Usize}
    {r : Got σ ⊕ PageBuf × σ} (h : c.fetchOnePage w rst addr = .ok r) :
    (∀ g, r = .inl g → g.cacher = c) ∧
      ∀ page, r = .inr page → pageOf addr ∉ c.cacheLst := by
  have hgot : ∀ g : Got σ, g.cacher = c →
      (∀ g', (Sum.inl g : Got σ ⊕ PageBuf × σ) = .inl g' → g'.cacher = c) ∧
        ∀ page, (Sum.inl g : Got σ ⊕ PageBuf × σ) = .inr page → pageOf addr ∉ c.cacheLst :=
    fun g hg => ⟨fun g' hg' => Sum.inl.inj hg' ▸ hg, fun _ hp => absurd hp Sum.inl_ne_inr⟩
  simp only [MemCacher.fetchOnePage] at h
  by_cases hlast : c.lastPage = pageOf addr
  · rw [if_pos hlast] at h
    obtain ⟨content, -, h⟩ := bind_eq_ok.mp h
    obtain ⟨item, -, h⟩ := bind_eq_ok.mp h
    obtain rfl := Except.ok.inj h
    exact hgot _ rfl
  · rw [if_neg hlast] at h
    cases hhit : c.cacheLst.lookup (pageOf addr) with
    | some content =>
      simp only [hhit] at h
      obtain ⟨item, -, h⟩ := bind_eq_ok.mp h
      obtain rfl := Except.ok.inj h
      exact hgot _ rfl
    | none =>
      have hmiss : pageOf addr ∉ c.cacheLst := Finmap.lookup_eq_none.mp hhit
      simp only [hhit] at h
      split at h
      · obtain rfl := Except.ok.inj h
        exact hgot _ rfl
      · split at h
        · split at h
          · obtain rfl := Except.ok.inj h
            exact hgot _ rfl
          · obtain rfl := Except.ok.inj h
            exact hgot _ rfl
        · obtain rfl := Except.ok.inj h
          exact ⟨fun _ hg => absurd hg Sum.inr_ne_inl, fun _ _ => hmiss⟩

/-- INTERNAL: **the insertion** adds the page in hand and no other. -/
theorem storePage_cacheLst {c : MemCacher σ} {tmpBuff : PageBuf} {w : σ} {rst : Bytes}
    {addr : Usize} {g : Got σ} (h : c.storePage tmpBuff w rst addr = .ok g) :
    g.cacher.cacheLst = c.cacheLst.insert (pageOf addr) tmpBuff := by
  obtain ⟨item, -, h⟩ := bind_eq_ok.mp h
  obtain rfl := Except.ok.inj h
  rfl

namespace ProcWorker

/-- The worker holds only pages that were fetched after the last `Init` before its chunk was
received. -/
def UpToDate (w : ProcWorker σ) : Prop :=
  ∀ e, w.phase.epoch = some e → ∀ p ∈ w.cacher.cacheLst, e ≤ w.stamp p

/-- A page in hand is not in the cache yet.  It was fetched when the chunk had been taken, and not
before the first page that is in the cache. -/
structure InHand (inits : ℕ) (w : ProcWorker σ) (e number : ℕ) (addr : Usize) : Prop where
  epoch : e ≤ number
  lastInit : w.lastInit ≤ number
  first : ∀ k, w.firstFetch = some k → k ≤ number
  bound : number ≤ inits
  miss : pageOf addr ∉ w.cacher.cacheLst

/-- The stamps against what the worker did. -/
structure Ok (inits : ℕ) (w : ProcWorker σ) : Prop where
  lastInit : w.lastInit ≤ inits
  epoch : ∀ e, w.phase.epoch = some e → e ≤ inits
  since : ∀ k, w.firstFetch = some k → w.lastInit ≤ k
  first : ∀ k, w.firstFetch = some k → ∃ p ∈ w.cacher.cacheLst, w.stamp p = k
  stamp : ∀ p ∈ w.cacher.cacheLst, ∃ k, w.firstFetch = some k ∧ k ≤ w.stamp p
  bound : ∀ k, w.firstFetch = some k → k ≤ inits
  inHand : ∀ e tmpBuff number rst addr tail,
    w.phase = .fetched e tmpBuff number rst addr tail → w.InHand inits e number addr

/-- The worker took the `Init` with this number, or holds no page that was fetched before that
`Init` was received. -/
def ClearedFor (w : ProcWorker σ) (e : ℕ) : Prop :=
  w.lastInit = e ∨ ∀ k, w.firstFetch = some k → e ≤ k

variable {inits : ℕ} {w : ProcWorker σ}

/-- A worker is cleared for an `Init` when it fetched all its pages after that. -/
theorem Ok.clearedFor_iff (h : w.Ok inits) (e : ℕ) :
    w.ClearedFor e ↔ ∀ p ∈ w.cacher.cacheLst, e ≤ w.stamp p := by
  constructor
  · intro hcleared p hp
    obtain ⟨k, hk, hle⟩ := h.stamp p hp
    rcases hcleared with rfl | hfirst
    · exact (h.since k hk).trans hle
    · exact (hfirst k hk).trans hle
  · intro hall
    refine .inr fun k hk => ?_
    obtain ⟨p, hp, hstamp⟩ := h.first k hk
    exact hstamp ▸ hall p hp

/-- A new worker has no page and has taken no `Init`. -/
theorem Ok.new : (ProcWorker.new : ProcWorker σ).Ok 0 where
  lastInit := le_rfl
  epoch _ he := nomatch he
  since _ hk := nomatch hk
  first _ hk := nomatch hk
  stamp _ hp := absurd hp Finmap.notMem_empty
  bound _ hk := nomatch hk
  inHand _ _ _ _ _ _ hphase := nomatch hphase

/-- A page in hand stays in hand when another `Init` is received. -/
theorem InHand.mono {e number : ℕ} {addr : Usize} (h : w.InHand inits e number addr)
    {inits' : ℕ} (hle : inits ≤ inits') : w.InHand inits' e number addr :=
  ⟨h.epoch, h.lastInit, h.first, h.bound.trans hle, h.miss⟩

/-- A worker is in order also when another `Init` is received. -/
theorem Ok.mono (h : w.Ok inits) {inits' : ℕ} (hle : inits ≤ inits') : w.Ok inits' where
  lastInit := h.lastInit.trans hle
  epoch e he := (h.epoch e he).trans hle
  since := h.since
  first := h.first
  stamp := h.stamp
  bound k hk := (h.bound k hk).trans hle
  inHand e tmpBuff number rst addr tail hphase :=
    (h.inHand e tmpBuff number rst addr tail hphase).mono hle

/-- An `Init` that is taken clears the cache. -/
theorem ok_takeInit (hidle : w.phase = .idle) {number : ℕ} (hnumber : number ≤ inits) :
    (w.takeInit number).Ok inits where
  lastInit := hnumber
  epoch e he := by
    have hphase : (w.takeInit number).phase = .idle := hidle
    rw [hphase] at he
    cases he
  since _ hk := nomatch hk
  first _ hk := nomatch hk
  stamp _ hp := absurd hp Finmap.notMem_empty
  bound _ hk := nomatch hk
  inHand _ _ _ _ _ _ hphase := nomatch hidle.symm.trans hphase

/-- A worker with no page in hand goes on with the stamps it has. -/
theorem Ok.setPhase (h : w.Ok inits) (phase : ProcPhase)
    (hphase : ∀ e, phase.epoch = some e → e ≤ inits)
    (hnone : ∀ e tmpBuff number rst addr tail, phase ≠ .fetched e tmpBuff number rst addr tail) :
    ({ w with phase } : ProcWorker σ).Ok inits :=
  ⟨h.lastInit, hphase, h.since, h.first, h.stamp, h.bound,
    fun e tmpBuff number rst addr tail hf => absurd hf (hnone e tmpBuff number rst addr tail)⟩

/-- The installation of a reader does not touch the pages. -/
theorem Ok.install (h : w.Ok inits) (f : Reader σ) :
    ({ w with cacher := w.cacher.install f } : ProcWorker σ).Ok inits :=
  ⟨h.lastInit, h.epoch, h.since, h.first, h.stamp, h.bound,
    fun e tmpBuff number rst addr tail hphase =>
      have hand := h.inHand e tmpBuff number rst addr tail hphase
      ⟨hand.epoch, hand.lastInit, hand.first, hand.bound, hand.miss⟩⟩

/-- Behind a page the worker goes on with its chunk. -/
theorem Ok.behind (h : w.Ok inits) {e : ℕ} (he : e ≤ inits) (tail : Option (Bytes × Usize)) :
    ({ w with phase := .behind e tail } : ProcWorker σ).Ok inits := by
  refine h.setPhase _ (fun e' he' => ?_) fun e' tmpBuff number rst addr tail' hf => ?_
  · rw [ProcPhase.epoch_behind] at he'
    exact Option.some.inj he' ▸ he
  · cases tail with
    | none => cases hf
    | some rest => cases hf

/-- INTERNAL: **a page that is fetched** gets the number of the `Init` messages received so far.
SRC: mem_cacher/mod.rs:35-57 -/
theorem Ok.onePage (h : w.Ok inits) {world : σ} {rst : Bytes} {addr : Usize} {e : ℕ}
    (he : e ≤ inits) (tail : Option (Bytes × Usize)) :
    (w.onePage inits world rst addr e tail).1.Ok inits := by
  unfold ProcWorker.onePage
  cases hread : w.cacher.fetchOnePage world rst addr with
  | error fault =>
    exact h.setPhase .failed (fun _ hf => nomatch hf) fun _ _ _ _ _ _ hf => nomatch hf
  | ok r =>
    cases r with
    | inl g => exact h.behind he tail
    | inr page =>
      obtain ⟨tmpBuff, world'⟩ := page
      refine ⟨h.lastInit, fun e' he' => Option.some.inj he' ▸ he, h.since, h.first, h.stamp,
        h.bound, fun e' tmpBuff' number rst' addr' tail' hphase => ?_⟩
      obtain ⟨rfl, -, rfl, -, rfl, -⟩ := ProcPhase.fetched.inj hphase
      exact ⟨he, h.lastInit, h.bound, le_rfl, (fetchOnePage_spec hread).2 _ rfl⟩

/-- A read up to the insertion keeps the pages and the chunk. -/
theorem onePage_kept (w : ProcWorker σ) (inits : ℕ) (world : σ) (rst : Bytes) (addr : Usize)
    (e : ℕ) (tail : Option (Bytes × Usize)) :
    (w.onePage inits world rst addr e tail).1.cacher = w.cacher ∧
      (w.onePage inits world rst addr e tail).1.stamp = w.stamp ∧
      (w.onePage inits world rst addr e tail).1.lastInit = w.lastInit ∧
      ∀ e', (w.onePage inits world rst addr e tail).1.phase.epoch = some e' → e' = e := by
  unfold ProcWorker.onePage
  split
  · exact ⟨rfl, rfl, rfl, fun _ hf => nomatch hf⟩
  · refine ⟨rfl, rfl, rfl, fun e' he' => ?_⟩
    simp only [ProcPhase.epoch_behind, Option.some.injEq] at he'
    exact he'.symm
  · exact ⟨rfl, rfl, rfl, fun e' he' => (Option.some.inj he').symm⟩

/-- A worker without a chunk is up to date. -/
theorem UpToDate.of_epoch_eq_none (h : w.phase.epoch = none) : w.UpToDate := by
  intro e he
  rw [h] at he
  cases he

/-- The worker reads a page in the decode of the chunk behind `e` messages `Init`, or it is
stopped by a fault. -/
def Reads (w : ProcWorker σ) (inits : ℕ) (world : σ) (w' : ProcWorker σ) (world' : σ) : Prop :=
  ∃ e, w.phase.epoch = some e ∧ (w' = { w with phase := .failed } ∨
    ∃ rst addr tail, w.onePage inits world rst addr e tail = (w', world'))

/-- A call of `get_content` reads. -/
theorem reads_of_content {world world' : σ} {rst : Bytes} {addr : Usize} {w' : ProcWorker σ}
    (hc : w.content inits world rst addr = some (w', world')) : w.Reads inits world w' world' := by
  unfold ProcWorker.content at hc
  cases hphase : w.phase with
  | decoding e =>
    simp only [hphase] at hc
    have he : w.phase.epoch = some e := by rw [hphase]; rfl
    refine ⟨e, he, ?_⟩
    split at hc
    · exact .inl (Prod.mk.inj (Option.some.inj hc)).1.symm
    · split at hc
      · exact .inr ⟨_, _, _, Option.some.inj hc⟩
      · split at hc
        · exact .inl (Prod.mk.inj (Option.some.inj hc)).1.symm
        · split at hc
          · exact .inl (Prod.mk.inj (Option.some.inj hc)).1.symm
          · exact .inr ⟨_, _, _, Option.some.inj hc⟩
  | idle => simp [hphase] at hc
  | taken data e => simp [hphase] at hc
  | fetched e tmpBuff number rst addr tail => simp [hphase] at hc
  | split e rst addr => simp [hphase] at hc
  | failed => simp [hphase] at hc

/-- The second part of a call reads. -/
theorem reads_of_rest {world world' : σ} {w' : ProcWorker σ}
    (hc : w.rest inits world = some (w', world')) : w.Reads inits world w' world' := by
  unfold ProcWorker.rest at hc
  cases hphase : w.phase with
  | split e rst addr =>
    simp only [hphase] at hc
    exact ⟨e, by rw [hphase]; rfl, .inr ⟨_, _, _, Option.some.inj hc⟩⟩
  | idle => simp [hphase] at hc
  | taken data e => simp [hphase] at hc
  | decoding e => simp [hphase] at hc
  | fetched e tmpBuff number rst addr tail => simp [hphase] at hc
  | failed => simp [hphase] at hc

/-- INTERNAL: **reading pages** keeps the stamps right and an up-to-date cache up to date.
SRC: mem_cacher/mod.rs:70-82 -/
theorem Reads.spec {world world' : σ} {w' : ProcWorker σ} (hr : w.Reads inits world w' world')
    (h : w.Ok inits) : w'.Ok inits ∧ (w.UpToDate → w'.UpToDate) := by
  obtain ⟨e, he, rfl | ⟨rst, addr, tail, hpage⟩⟩ := hr
  · exact ⟨h.setPhase .failed (fun _ hf => nomatch hf) (fun _ _ _ _ _ _ hf => nomatch hf),
      fun _ => .of_epoch_eq_none rfl⟩
  · obtain rfl : (w.onePage inits world rst addr e tail).1 = w' := congrArg Prod.fst hpage
    obtain ⟨hcacher, hstamp, -, hepoch⟩ := w.onePage_kept inits world rst addr e tail
    refine ⟨h.onePage (h.epoch e he) tail, fun hup e' he' p hp => ?_⟩
    rw [hstamp, hepoch e' he']
    exact hup e he p (hcacher ▸ hp)

/-- A read takes no `Init`. -/
theorem Reads.lastInit {world world' : σ} {w' : ProcWorker σ}
    (hr : w.Reads inits world w' world') : w'.lastInit = w.lastInit := by
  obtain ⟨e, -, rfl | ⟨rst, addr, tail, hpage⟩⟩ := hr
  · rfl
  · obtain rfl : (w.onePage inits world rst addr e tail).1 = w' := congrArg Prod.fst hpage
    exact (w.onePage_kept inits world rst addr e tail).2.2.1

/-- The insertion puts the page in hand into the cache, or the read fails behind it. -/
theorem store_cases {world : σ} {w' : ProcWorker σ} (hs : w.store world = some w') :
    ∃ e tmpBuff number rst addr tail, w.phase = .fetched e tmpBuff number rst addr tail ∧
      (w' = { w with phase := .failed } ∨
        ∃ g, w.cacher.storePage tmpBuff world rst addr = .ok g ∧
          w' = { w with
            cacher := g.cacher
            phase := .behind e tail
            firstFetch := w.firstFetch.or (some number)
            stamp := Function.update w.stamp (pageOf addr) number }) := by
  unfold store at hs
  split at hs
  · next e tmpBuff number rst addr tail hphase =>
    refine ⟨e, tmpBuff, number, rst, addr, tail, hphase, ?_⟩
    split at hs
    · exact .inl (Option.some.inj hs).symm
    · next g hg => exact .inr ⟨g, hg, (Option.some.inj hs).symm⟩
  · cases hs

/-- The insertion takes no `Init`. -/
theorem store_lastInit {world : σ} {w' : ProcWorker σ} (hs : w.store world = some w') :
    w'.lastInit = w.lastInit := by
  obtain ⟨e, tmpBuff, number, rst, addr, tail, -, rfl | ⟨g, -, rfl⟩⟩ := store_cases hs
  · rfl
  · rfl

/-- The first page that went into the cache is the one there was, or the one in hand. -/
theorem or_eq_some_cases {first : Option ℕ} {number k : ℕ}
    (h : first.or (some number) = some k) :
    first = some k ∨ first = none ∧ k = number := by
  cases first with
  | none => exact .inr ⟨rfl, (Option.some.inj h).symm⟩
  | some m => exact .inl h

/-- INTERNAL: **the insertion of the page in hand** stamps it with the number it was fetched with,
whatever came since then; the pages that were there keep their stamps.
SRC: mem_cacher/mod.rs:58-62 -/
theorem store_spec {world : σ} {w' : ProcWorker σ} (h : w.Ok inits)
    (hs : w.store world = some w') : w'.Ok inits ∧ (w.UpToDate → w'.UpToDate) := by
  obtain ⟨e, tmpBuff, number, rst, addr, tail, hphase, rfl | ⟨g, hg, rfl⟩⟩ := store_cases hs
  · exact ⟨h.setPhase .failed (fun _ hf => nomatch hf) (fun _ _ _ _ _ _ hf => nomatch hf),
      fun _ => .of_epoch_eq_none rfl⟩
  · have hand := h.inHand e tmpBuff number rst addr tail hphase
    have hcache := storePage_cacheLst hg
    have hself : Function.update w.stamp (pageOf addr) number (pageOf addr) = number :=
      Function.update_self (pageOf addr) number w.stamp
    have hkept : ∀ p ∈ w.cacher.cacheLst,
        Function.update w.stamp (pageOf addr) number p = w.stamp p := by
      intro p hp
      refine Function.update_of_ne ?_ number w.stamp
      rintro rfl
      exact hand.miss hp
    have hcases : ∀ p ∈ g.cacher.cacheLst, p = pageOf addr ∨ p ∈ w.cacher.cacheLst := by
      intro p hp
      rw [hcache] at hp
      exact Finmap.mem_insert.mp hp
    have hgrows : ∀ p ∈ w.cacher.cacheLst, p ∈ g.cacher.cacheLst := by
      intro p hp
      rw [hcache]
      exact Finmap.mem_insert.mpr (.inr hp)
    have hnew : pageOf addr ∈ g.cacher.cacheLst := by
      rw [hcache]
      exact Finmap.mem_insert.mpr (.inl rfl)
    refine ⟨⟨h.lastInit, fun e' he' => ?_, fun k hk => ?_, fun k hk => ?_, fun p hp => ?_,
      fun k hk => ?_, fun e' tmpBuff' number' rst' addr' tail' hf => ?_⟩, fun hup e' he' p hp => ?_⟩
    · simp only [ProcPhase.epoch_behind, Option.some.injEq] at he'
      exact he' ▸ hand.epoch.trans hand.bound
    · rcases or_eq_some_cases hk with hold | ⟨-, rfl⟩
      · exact h.since k hold
      · exact hand.lastInit
    · rcases or_eq_some_cases hk with hold | ⟨-, rfl⟩
      · obtain ⟨p, hp, hstamp⟩ := h.first k hold
        exact ⟨p, hgrows p hp, (hkept p hp).trans hstamp⟩
      · exact ⟨_, hnew, hself⟩
    · rcases hcases p hp with rfl | hold
      · cases hfirst : w.firstFetch with
        | none => exact ⟨number, rfl, hself.ge⟩
        | some m =>
          exact ⟨m, rfl, (hand.first m hfirst).trans hself.ge⟩
      · obtain ⟨k, hk, hle⟩ := h.stamp p hold
        exact ⟨k, by simp only [hk, Option.some_or], hle.trans (hkept p hold).ge⟩
    · rcases or_eq_some_cases hk with hold | ⟨-, rfl⟩
      · exact h.bound k hold
      · exact hand.bound
    · cases tail with
      | none => cases hf
      | some rest => cases hf
    · simp only [ProcPhase.epoch_behind, Option.some.injEq] at he'
      subst he'
      rcases hcases p hp with rfl | hold
      · exact hand.epoch.trans hself.ge
      · have he : w.phase.epoch = some e := by rw [hphase]; rfl
        exact (hup e he p hold).trans (hkept p hold).ge

end ProcWorker

/-! ## The workers on their channel -/

namespace ProcClient

/-- The messages were received, and each worker is in order. -/
structure Ok (s : ProcClient σ n) : Prop where
  queue : ∀ c ∈ s.procRx, c.2 ≤ s.inits
  worker : ∀ i, (s.worker i).Ok s.inits

/-- Every chunk is being decoded with pages that were fetched after the last `Init` before it. -/
def UpToDate (s : ProcClient σ n) : Prop := ∀ i, (s.worker i).UpToDate

/-- A worker that takes a chunk took the last `Init` before the chunk, or holds no page that was
fetched before that `Init` was received. -/
def Current (s : ProcClient σ n) : ProcOp σ n → Prop
  | .take i => ∀ data e procRx, s.procRx = (.proc data, e) :: procRx → (s.worker i).ClearedFor e
  | _ => True

/-- Whether the worker of a step is current is decided by looking at the channel. -/
instance (s : ProcClient σ n) (op : ProcOp σ n) : Decidable (s.Current op) :=
  match op with
  | .take i =>
    match hq : s.procRx with
    | (.proc data, e) :: procRx =>
      decidable_of_iff ((s.worker i).lastInit = e ∨ ∀ k ∈ (s.worker i).firstFetch, e ≤ k)
        ⟨fun h _ _ _ hrest => (Prod.mk.inj (List.cons.inj (hq.symm.trans hrest)).1).2 ▸ h,
          fun h => h data e procRx hq⟩
    | (.init, _) :: _ => .isTrue fun _ _ _ hrest => nomatch hq.symm.trans hrest
    | [] => .isTrue fun _ _ _ hrest => nomatch hq.symm.trans hrest
  | .recvInit => .isTrue trivial
  | .recvDataReq _ => .isTrue trivial
  | .world _ => .isTrue trivial
  | .sync _ => .isTrue trivial
  | .content _ _ _ => .isTrue trivial
  | .store _ => .isTrue trivial
  | .rest _ => .isTrue trivial
  | .finish _ => .isTrue trivial

/-- A worker in order may be put in its place. -/
theorem Ok.put {s : ProcClient σ n} (h : s.Ok) (i : Fin n) {w : ProcWorker σ} (hw : w.Ok s.inits) :
    (s.put i w).Ok :=
  ⟨h.queue, Families.forall_update (P := fun _ (w : ProcWorker σ) => w.Ok s.inits) h.worker hw⟩

/-- A worker that is up to date may be put in its place. -/
theorem UpToDate.put {s : ProcClient σ n} (h : s.UpToDate) (i : Fin n) {w : ProcWorker σ}
    (hw : w.UpToDate) : (s.put i w).UpToDate :=
  Families.forall_update (P := fun _ (w : ProcWorker σ) => w.UpToDate) h hw

/-- An idle worker takes the next message, an `Init` or a chunk. -/
theorem take_cases {s s' : ProcClient σ n} {i : Fin n} (h : s.take i = some s') :
    (s.worker i).phase = .idle ∧
      ((∃ k procRx, s.procRx = (.init, k) :: procRx ∧
          s' = { s.put i ((s.worker i).takeInit k) with procRx }) ∨
        ∃ data e procRx, s.procRx = (.proc data, e) :: procRx ∧
          s' = { s.put i { s.worker i with phase := .taken data e } with procRx }) := by
  unfold take at h
  split at h
  · next k procRx hphase hq => exact ⟨hphase, .inl ⟨k, procRx, hq, (Option.some.inj h).symm⟩⟩
  · next data e procRx hphase hq =>
    exact ⟨hphase, .inr ⟨data, e, procRx, hq, (Option.some.inj h).symm⟩⟩
  · cases h

/-- A chunk begins with the installation of the reader. -/
theorem sync_cases {f : Reader σ} {world : σ} {s s' : ProcClient σ n} {i : Fin n}
    (h : (procMachine n f world).step s (.sync i) = some s') :
    ∃ data e, (s.worker i).phase = .taken data e ∧ s' = s.put i { s.worker i with
      cacher := (s.worker i).cacher.install f
      phase := .decoding e } := by
  simp only [procMachine] at h
  split at h
  · next data e hphase => exact ⟨data, e, hphase, (Option.some.inj h).symm⟩
  · cases h

/-- Behind its chunk a worker is idle. -/
theorem finish_cases {f : Reader σ} {world : σ} {s s' : ProcClient σ n} {i : Fin n}
    (h : (procMachine n f world).step s (.finish i) = some s') :
    s' = s.put i { s.worker i with phase := .idle } := by
  simp only [procMachine] at h
  split at h
  · exact (Option.some.inj h).symm
  · exact (Option.some.inj h).symm
  · cases h

/-- In the beginning every worker is in order. -/
theorem ok_init (f : Reader σ) (world : σ) : (procMachine n f world).init.Ok where
  queue _ hc := absurd hc List.not_mem_nil
  worker _ := ProcWorker.Ok.new

/-- An item goes into the channel. -/
theorem Ok.push {s : ProcClient σ n} (h : s.Ok) (c : ProcCtrl × ℕ) {inits : ℕ}
    (hinits : s.inits ≤ inits)
    (hc : c.2 ≤ inits) :
    ({ s with procRx := s.procRx ++ [c], inits } : ProcClient σ n).Ok := by
  refine ⟨fun d hd => ?_, fun i => (h.worker i).mono hinits⟩
  rcases List.mem_append.mp hd with hold | hnew
  · exact (h.queue d hold).trans hinits
  · rw [List.mem_singleton.mp hnew]
    exact hc

/-- A worker takes an item: an `Init` clears its cache, and a chunk is decoded with what is there.
SRC: client_proc.rs:58-63 -/
theorem take_spec {s s' : ProcClient σ n} {i : Fin n} (h : s.Ok) (hs : s.take i = some s') :
    s'.Ok ∧ (s.UpToDate → (s'.UpToDate ↔ s.Current (.take i))) := by
  obtain ⟨hidle, ⟨k, procRx, hq, rfl⟩ | ⟨data, e, procRx, hq, rfl⟩⟩ := take_cases hs
  · have hk : k ≤ s.inits := h.queue (.init, k) (hq ▸ List.mem_cons_self)
    have hput := h.put i (ProcWorker.ok_takeInit hidle hk)
    refine ⟨⟨fun c hc => h.queue c (hq ▸ List.mem_cons_of_mem _ hc), hput.worker⟩, fun hup => ?_⟩
    refine ⟨fun _ data e rest hrest => ?_, fun _ => hup.put i (.of_epoch_eq_none ?_)⟩
    · rw [hq] at hrest
      cases hrest
    · show (s.worker i).phase.epoch = none
      rw [hidle]
      rfl
  · have he : e ≤ s.inits := h.queue (.proc data, e) (hq ▸ List.mem_cons_self)
    have hput := h.put i ((h.worker i).setPhase (.taken data e)
      (fun e' he' => Option.some.inj he' ▸ he) fun _ _ _ _ _ _ hf => nomatch hf)
    refine ⟨⟨fun c hc => h.queue c (hq ▸ List.mem_cons_of_mem _ hc), hput.worker⟩, fun hup => ?_⟩
    constructor
    · intro hup' data' e' rest hrest
      rw [hq] at hrest
      obtain ⟨hctrl, -⟩ := List.cons.inj hrest
      obtain ⟨-, rfl⟩ := Prod.mk.inj hctrl
      rw [(h.worker i).clearedFor_iff]
      have hi := hup' i
      simp only [ProcClient.put, Function.update_self] at hi
      exact hi e rfl
    · intro hcurrent
      have hcleared := ((h.worker i).clearedFor_iff e).mp (hcurrent data e procRx hq)
      refine hup.put i fun e' he' => ?_
      exact Option.some.inj he' ▸ hcleared

/-- INTERNAL: **one step** keeps the stamps right, and keeps the caches up to date exactly when a
worker that takes a chunk was cleared for it.
SRC: client_proc.rs:52-90, 135-157, mem_cacher/mod.rs:21-26 -/
theorem step_spec {f : Reader σ} {world : σ} {s s' : ProcClient σ n} {op : ProcOp σ n} (h : s.Ok)
    (hs : (procMachine n f world).step s op = some s') :
    s'.Ok ∧ (s.UpToDate → (s'.UpToDate ↔ s.Current op)) := by
  cases op with
  | recvInit =>
    obtain rfl := Option.some.inj hs
    exact ⟨h.push (.init, s.inits + 1) (Nat.le_succ _) le_rfl,
      fun hup => ⟨fun _ => trivial, fun _ => hup⟩⟩
  | recvDataReq data =>
    obtain rfl := Option.some.inj hs
    exact ⟨h.push (.proc data, s.inits) le_rfl le_rfl, fun hup => ⟨fun _ => trivial, fun _ => hup⟩⟩
  | world w =>
    obtain rfl := Option.some.inj hs
    exact ⟨⟨h.queue, h.worker⟩, fun hup => ⟨fun _ => trivial, fun _ => hup⟩⟩
  | take i => exact take_spec h hs
  | sync i =>
    obtain ⟨data, e, hphase, rfl⟩ := sync_cases hs
    have he : (s.worker i).phase.epoch = some e := by rw [hphase]; rfl
    refine ⟨h.put i (((h.worker i).install f).behind ((h.worker i).epoch e he) none),
      fun hup => ⟨fun _ => trivial, fun _ => ?_⟩⟩
    refine hup.put i fun e' he' => ?_
    exact hup i e' (he.trans he')
  | content i rst addr =>
    obtain ⟨⟨w', world'⟩, hc, rfl⟩ := Option.map_eq_some_iff.mp hs
    obtain ⟨hok, hkeep⟩ := (ProcWorker.reads_of_content hc).spec (h.worker i)
    have hput := h.put i hok
    exact ⟨⟨hput.queue, hput.worker⟩,
      fun hup => ⟨fun _ => trivial, fun _ => hup.put i (hkeep (hup i))⟩⟩
  | store i =>
    obtain ⟨w', hc, rfl⟩ := Option.map_eq_some_iff.mp hs
    obtain ⟨hok, hkeep⟩ := ProcWorker.store_spec (h.worker i) hc
    exact ⟨h.put i hok, fun hup => ⟨fun _ => trivial, fun _ => hup.put i (hkeep (hup i))⟩⟩
  | rest i =>
    obtain ⟨⟨w', world'⟩, hc, rfl⟩ := Option.map_eq_some_iff.mp hs
    obtain ⟨hok, hkeep⟩ := (ProcWorker.reads_of_rest hc).spec (h.worker i)
    have hput := h.put i hok
    exact ⟨⟨hput.queue, hput.worker⟩,
      fun hup => ⟨fun _ => trivial, fun _ => hup.put i (hkeep (hup i))⟩⟩
  | finish i =>
    obtain rfl := finish_cases hs
    exact ⟨h.put i ((h.worker i).setPhase .idle (fun _ he => nomatch he)
        fun _ _ _ _ _ _ hf => nomatch hf),
      fun hup => ⟨fun _ => trivial, fun _ => hup.put i (.of_epoch_eq_none rfl)⟩⟩

/-- MAIN: **when an `Init` invalidates every cache.**  In a run of the receive loop and any number
of workers, every chunk is decoded with pages that were fetched after the last `Init` before the
chunk was received, if and only if whenever a worker takes a chunk, it took that `Init` itself or
holds no page that was fetched before that `Init` was received.
SRC: client_proc.rs:52-90, 135-157, mem_cacher/mod.rs:21-26 -/
theorem init_invalidates_iff (f : Reader σ) (world : σ) {ops : List (ProcOp σ n)}
    {t : ProcClient σ n}
    (h : (procMachine n f world).exec (procMachine n f world).init ops = some t) :
    (∀ as bs s, ops = as ++ bs →
      (procMachine n f world).exec (procMachine n f world).init as = some s → s.UpToDate) ↔
    (procMachine n f world).Meets Current (procMachine n f world).init ops :=
  Machine.forall_reached_iff _ (fun _ _ _ hs hstep => (step_spec hs hstep).1)
    (fun _ _ _ hs hup hstep => (step_spec hs hstep).2 hup) (ok_init f world)
    (fun _ => .of_epoch_eq_none rfl) h

/-! ## One worker -/

/-- The items of the channel are numbered on from `k` to `inits`. -/
def Numbered (inits : ℕ) : ℕ → List (ProcCtrl × ℕ) → Prop
  | k, [] => k = inits
  | k, (.init, number) :: procRx => number = k + 1 ∧ Numbered inits number procRx
  | k, (.proc _, epoch) :: procRx => epoch = k ∧ Numbered inits k procRx

/-- A further `Init` gets the next number. -/
theorem Numbered.pushInit {inits k : ℕ} {procRx : List (ProcCtrl × ℕ)}
    (h : Numbered inits k procRx) :
    Numbered (inits + 1) k (procRx ++ [(.init, inits + 1)]) := by
  induction procRx generalizing k with
  | nil =>
    obtain rfl : k = inits := h
    exact ⟨rfl, rfl⟩
  | cons c procRx ih =>
    obtain ⟨ctrl, number⟩ := c
    cases ctrl with
    | init => exact ⟨h.1, ih h.2⟩
    | proc data => exact ⟨h.1, ih h.2⟩

/-- A further chunk gets the number of the last `Init`. -/
theorem Numbered.pushProc {inits k : ℕ} {procRx : List (ProcCtrl × ℕ)} (h : Numbered inits k procRx)
    (data : Bytes) : Numbered inits k (procRx ++ [(.proc data, inits)]) := by
  induction procRx generalizing k with
  | nil =>
    obtain rfl : k = inits := h
    exact ⟨rfl, rfl⟩
  | cons c procRx ih =>
    obtain ⟨ctrl, number⟩ := c
    cases ctrl with
    | init => exact ⟨h.1, ih h.2⟩
    | proc data => exact ⟨h.1, ih h.2⟩

/-- With one worker, the items of the channel are numbered on from the `Init` it took last. -/
theorem numbered_step {f : Reader σ} {world : σ} {s s' : ProcClient σ 1} {op : ProcOp σ 1}
    (h : Numbered s.inits (s.worker 0).lastInit s.procRx)
    (hs : (procMachine 1 f world).step s op = some s') :
    Numbered s'.inits (s'.worker 0).lastInit s'.procRx := by
  have hone : ∀ (i : Fin 1) (w : ProcWorker σ), (s.put i w).worker 0 = w := by
    intro i w
    obtain rfl : i = 0 := Subsingleton.elim i 0
    exact Function.update_self 0 w s.worker
  have hworker : ∀ i : Fin 1, s.worker i = s.worker 0 := fun i => by rw [Subsingleton.elim i 0]
  cases op with
  | recvInit =>
    obtain rfl := Option.some.inj hs
    exact h.pushInit
  | recvDataReq data =>
    obtain rfl := Option.some.inj hs
    exact h.pushProc data
  | world w =>
    obtain rfl := Option.some.inj hs
    exact h
  | take i =>
    obtain ⟨-, ⟨k, procRx, hq, rfl⟩ | ⟨data, e, procRx, hq, rfl⟩⟩ := take_cases hs
    · rw [hq] at h
      show Numbered s.inits ((s.put i _).worker 0).lastInit procRx
      rw [hone]
      exact h.2
    · rw [hq] at h
      show Numbered s.inits ((s.put i _).worker 0).lastInit procRx
      rw [hone, hworker]
      exact h.2
  | sync i =>
    obtain ⟨data, e, -, rfl⟩ := sync_cases hs
    show Numbered s.inits ((s.put i _).worker 0).lastInit s.procRx
    rw [hone, hworker]
    exact h
  | content i rst addr =>
    obtain ⟨⟨w', world'⟩, hc, rfl⟩ := Option.map_eq_some_iff.mp hs
    show Numbered s.inits ((s.put i w').worker 0).lastInit s.procRx
    rw [hone, (ProcWorker.reads_of_content hc).lastInit, hworker]
    exact h
  | store i =>
    obtain ⟨w', hc, rfl⟩ := Option.map_eq_some_iff.mp hs
    show Numbered s.inits ((s.put i w').worker 0).lastInit s.procRx
    rw [hone, ProcWorker.store_lastInit hc, hworker]
    exact h
  | rest i =>
    obtain ⟨⟨w', world'⟩, hc, rfl⟩ := Option.map_eq_some_iff.mp hs
    show Numbered s.inits ((s.put i w').worker 0).lastInit s.procRx
    rw [hone, (ProcWorker.reads_of_rest hc).lastInit, hworker]
    exact h
  | finish i =>
    obtain rfl := finish_cases hs
    show Numbered s.inits ((s.put i _).worker 0).lastInit s.procRx
    rw [hone, hworker]
    exact h

/-- One worker takes every `Init`, and every chunk is decoded with pages that were fetched after
the last `Init` before it. -/
theorem upToDate_of_oneWorker (f : Reader σ) (world : σ) {s : ProcClient σ 1}
    (h : (procMachine 1 f world).Reachable s) : s.UpToDate := by
  have hinv : (s.Ok ∧ Numbered s.inits (s.worker 0).lastInit s.procRx) ∧ s.UpToDate := by
    refine Machine.invariant _ (P := fun s : ProcClient σ 1 =>
      (s.Ok ∧ Numbered s.inits (s.worker 0).lastInit s.procRx) ∧ s.UpToDate)
      ⟨⟨ok_init f world, rfl⟩, fun _ => .of_epoch_eq_none rfl⟩ ?_ h
    rintro s op s' ⟨⟨hok, hnum⟩, hup⟩ hs
    obtain ⟨hok', hiff⟩ := step_spec hok hs
    refine ⟨⟨hok', numbered_step hnum hs⟩, (hiff hup).mpr ?_⟩
    cases op with
    | take i =>
      intro data e procRx hq
      rw [hq] at hnum
      obtain rfl : i = 0 := Subsingleton.elim i 0
      exact .inl hnum.1.symm
    | recvInit => trivial
    | recvDataReq data => trivial
    | world w => trivial
    | sync i => trivial
    | content i rst addr => trivial
    | store i => trivial
    | rest i => trivial
    | finish i => trivial
  exact hinv.2

/-- A reader of a target that is all zeros. -/
def zeros : Reader Unit where
  call w rst _ := (w, rst, rst.length)
  length_call _ _ _ := rfl

/-- The worker has the page in hand when the `Init` is received, and inserts it behind that; it
takes the `Init` itself, and is up to date. -/
theorem init_invalidates_sameWorker : ∃ t,
    (procMachine 2 zeros ()).exec (procMachine 2 zeros ()).init
      [.recvDataReq [0], .take 0, .sync 0, .content 0 [0] 0x400000, .recvInit, .store 0, .finish 0,
        .recvDataReq [1], .take 0, .take 0, .sync 0, .content 0 [0] 0x400000, .store 0] = some t ∧
      t.UpToDate := by
  obtain ⟨t, ht⟩ := Option.isSome_iff_exists.mp (show
    ((procMachine 2 zeros ()).exec (procMachine 2 zeros ()).init
      [.recvDataReq [0], .take 0, .sync 0, .content 0 [0] 0x400000, .recvInit, .store 0, .finish 0,
        .recvDataReq [1], .take 0, .take 0, .sync 0, .content 0 [0] 0x400000, .store 0]).isSome =
      true by decide +kernel)
  exact ⟨t, ht, (init_invalidates_iff zeros () ht).mpr (by decide +kernel) _ [] t
    (List.append_nil _).symm ht⟩

/-- The other worker takes the `Init`, and the next chunk is decoded with the page of the first
worker, which was fetched before the `Init` and inserted behind it. -/
theorem other_worker_keeps_page : ∃ s,
    (procMachine 2 zeros ()).exec (procMachine 2 zeros ()).init
      [.recvDataReq [0], .take 0, .sync 0, .content 0 [0] 0x400000, .recvInit, .store 0,
        .finish 0, .recvDataReq [1], .take 1, .take 0] = some s ∧ ¬ s.UpToDate := by
  have hrun : ((procMachine 2 zeros ()).exec (procMachine 2 zeros ()).init
      [.recvDataReq [0], .take 0, .sync 0, .content 0 [0] 0x400000, .recvInit, .store 0,
        .finish 0, .recvDataReq [1], .take 1, .take 0]).map (fun s => ((s.worker 0).phase.epoch,
          decide (0x400000 ∈ (s.worker 0).cacher.cacheLst), (s.worker 0).stamp 0x400000)) =
      some (some 1, true, 0) := by decide +kernel
  obtain ⟨s, hs, hfacts⟩ := Option.map_eq_some_iff.mp hrun
  simp only [Prod.mk.injEq, decide_eq_true_eq] at hfacts
  obtain ⟨hepoch, hpage, hstamp⟩ := hfacts
  refine ⟨s, hs, fun hup => ?_⟩
  have hle := hup 0 1 hepoch _ hpage
  rw [hstamp] at hle
  omega

end ProcClient

end PtkGenerator

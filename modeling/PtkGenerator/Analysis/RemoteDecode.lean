import PtkGenerator.Analysis.DecodeTotal
import PtkGenerator.Analysis.RemoteReader
import PtkGenerator.Model.ImageDecoder

/-!
# What a worker decodes

What a decoder returns depends on the bytes it reads, and these come through a cacher.  On the
server they are the bytes of the target as long as what is read is readable, whatever the cacher has
been used for before; so a chunk yields the same instructions with every worker.  A worker of a
client is stopped at the first read of a decode.  It gets through the chunks whose decode reads
nothing, and those it counts as the local workers do.
-/

set_option autoImplicit false

namespace PtkGenerator

open Machine Ranges SumMap

variable {ρ σ : Type} {T : Target}

/-! ## The memory of the target itself -/

/-- A read of at most 4096 bytes outside of page 0, all of them readable, without a cacher. -/
def Target.read (T : Target) (q : ImageRead) : Option Bytes :=
  if q.1.length ≤ 4096 ∧ q.2.toNat + q.1.length < 2 ^ 64 ∧ 4096 ≤ q.2.toNat then
    readRange T.mem q.2.toNat q.1.length
  else none

namespace ImageDecoder

/-- The calls of a decoder whose reads are answered without a cacher. -/
def plain (d : ImageDecoder ρ) (read : ImageRead → Option Bytes) :
    Environment DecodeState DecoderAnswer ρ :=
  fun r s =>
    match s.phase with
    | .sync => ((d.syncForward r).evaluated fun _ => some []).map fun x => (.syncForward x.1, x.2)
    | .drain => ((d.event r).evaluated read).map fun x => (.event x.1, x.2)
    | .next => ((d.next r).evaluated read).map fun x => (.next x.1, x.2)
    | .resync => ((d.syncForward r).evaluated read).map fun x => (.syncForward x.1, x.2)
    | .returned => none

/-- The decode of a chunk that reads the memory itself. -/
def decoded (d : ImageDecoder ρ) (T : Target) (n : ℕ) (dataRst : PageMap) (data : Bytes) :
    Driven DecodeState DecoderAnswer ρ :=
  (decodeLoop dataRst).run (d.plain T.read) (d.new data) n

/-- The decode of a chunk returns within `n` calls, and all it reads is readable. -/
def Decodes (d : ImageDecoder ρ) (T : Target) (n : ℕ) (data : Bytes) : Prop :=
  (d.decoded T n ∅ data).state.phase = .returned

/-- The instructions that a chunk yields. -/
def yields (d : ImageDecoder ρ) (T : Target) (n : ℕ) (data : Bytes) : List Usize :=
  returnedIps (d.decoded T n ∅ data).log

/-! ## The map does not matter -/

/-- The decode loop steps from phase to phase. -/
theorem step_decodeLoop (dataRst : PageMap) :
    (decodeLoop dataRst).step = DecodeState.step := rfl

/-- Without a cacher, what a decoder answers depends on the phase only. -/
theorem plain_congr (d : ImageDecoder ρ) (read : ImageRead → Option Bytes) (r : ρ)
    {s t : DecodeState} (h : s.phase = t.phase) : d.plain read r s = d.plain read r t := by
  rw [plain, plain, h]

end ImageDecoder

/-- The phase behind an answer depends on the phase before it. -/
theorem DecodeState.step_phase {s t : DecodeState} (h : s.phase = t.phase) (a : DecoderAnswer) :
    (s.step a).map DecodeState.phase = (t.step a).map DecodeState.phase := by
  obtain ⟨phase, cnt, dataRst⟩ := s
  obtain ⟨phase', cnt', dataRst'⟩ := t
  obtain rfl : phase = phase' := h
  cases a with
  | syncForward r => cases phase <;> cases r <;> rfl
  | event r => cases phase <;> cases r <;> rfl
  | next r => cases phase <;> rcases r with (_ | _ | code) | ⟨ip, st⟩ <;> rfl

namespace ImageDecoder

/-- INTERNAL: **what a decode returns does not depend on the map it counts in.**
SRC: decode_proc/mod.rs:52-91, 134-173 -/
theorem decoded_congr (d : ImageDecoder ρ) (T : Target) (n : ℕ) (dataRst : PageMap) (data : Bytes) :
    (d.decoded T n dataRst data).state.phase = (d.decoded T n ∅ data).state.phase ∧
      (d.decoded T n dataRst data).log = (d.decoded T n ∅ data).log ∧
      (d.decoded T n dataRst data).world = (d.decoded T n ∅ data).world := by
  induction n with
  | zero => exact ⟨rfl, rfl, rfl⟩
  | succ n ih =>
    obtain ⟨hphase, hlog, hworld⟩ := ih
    simp only [decoded] at hphase hlog hworld ⊢
    simp only [run_succ, ask, hworld, d.plain_congr T.read _ hphase]
    cases d.plain T.read ((decodeLoop ∅).run (d.plain T.read) (d.new data) n).world
      ((decodeLoop ∅).run (d.plain T.read) (d.new data) n).state with
    | none => exact ⟨hphase, hlog, hworld⟩
    | some e =>
      have hstep := DecodeState.step_phase hphase e.1
      cases hs :
        DecodeState.step ((decodeLoop dataRst).run (d.plain T.read) (d.new data) n).state e.1
        <;> cases ht :
          DecodeState.step ((decodeLoop ∅).run (d.plain T.read) (d.new data) n).state e.1
      · simp only [step_decodeLoop, hs, ht]
        exact ⟨hphase, hlog, hworld⟩
      · rw [hs, ht] at hstep
        cases hstep
      · rw [hs, ht] at hstep
        cases hstep
      · rw [hs, ht] at hstep
        simp only [step_decodeLoop, hs, ht, hlog, and_true]
        exact Option.some.inj hstep

/-- INTERNAL: a chunk that decodes does so in every map. -/
theorem Decodes.returned {d : ImageDecoder ρ} {n : ℕ} {data : Bytes} (h : d.Decodes T n data)
    (dataRst : PageMap) : (d.decoded T n dataRst data).state.phase = .returned :=
  (d.decoded_congr T n dataRst data).1.trans h

end ImageDecoder

/-! ## What the callback answers -/

/-- INTERNAL: **a read of the image** is a read of the target, whatever the cacher holds.
SRC: mem_cacher/mod.rs:70-82, decode_proc/mod.rs:39, 121 -/
theorem imageCallback_eq {s : MemCacher σ × σ} {q : ImageRead} {r : Bytes}
    (hinv : CacheInv T.mem s.1 ∧ s.1.f.isSome = true) (hr : T.read q = some r) :
    ∃ s', imageCallback s q = some (r, s') ∧ CacheInv T.mem s'.1 ∧ s'.1.f.isSome = true := by
  rw [Target.read] at hr
  split at hr
  case isFalse => cases hr
  case isTrue hq =>
    obtain ⟨g, hg, hinv', hf, hlen, hans⟩ :=
      getContent_spec hinv.1 s.2 ⟨q.1, q.2, hq.1, hq.2.1⟩ hq.2.2
    dsimp only at hg hlen hans
    obtain ⟨hcount, hfull⟩ : g.count = q.1.length ∧
        Ranges.readRange T.mem q.2.toNat q.1.length = some g.rst := by
      rcases hans with hfull | ⟨-, hnone⟩
      · exact hfull
      · rw [hnone hinv.2] at hr
        cases hr
    obtain rfl : r = g.rst := Option.some.inj (hr.symm.trans hfull)
    refine ⟨(g.cacher, g.world), ?_, hinv', by rw [hf]; exact hinv.2⟩
    rw [imageCallback, hg]
    simp only [hcount, ← hlen, List.take_length]

/-- INTERNAL: **a call of the decoder** comes to the same through the cacher as on the memory. -/
theorem answered_imageCallback {β : Type} {x : Reading β} {b : β}
    (hx : x.evaluated T.read = some b) {s : MemCacher σ × σ} (hinv : CacheInv T.mem s.1)
    (hf : s.1.f.isSome = true) :
    ∃ s', x.answered imageCallback s = some (b, s') ∧ CacheInv T.mem s'.1 ∧
      s'.1.f.isSome = true := by
  have hanswer : ∀ (s : MemCacher σ × σ) (q : ImageRead) (r : Bytes),
      CacheInv T.mem s.1 ∧ s.1.f.isSome = true → T.read q = some r →
        ∃ s', imageCallback s q = some (r, s') ∧ CacheInv T.mem s'.1 ∧ s'.1.f.isSome = true :=
    fun _ _ _ hI hq => imageCallback_eq hI hq
  exact Asking.answered_eq hanswer ⟨hinv, hf⟩ hx

/-! ## A chunk -/

namespace ImageDecoder

/-- A decoder that reads through a cacher is where the one that reads the memory itself is. -/
def Follows (T : Target) (s : DecodeState) (r : ρ) (w : ρ × MemCacher σ × σ) : Prop :=
  w.1 = r ∧ CacheInv T.mem w.2.1 ∧ (s.phase ≠ .sync → s.phase ≠ .returned → w.2.1.f.isSome = true)

/-- INTERNAL: a call that has its image set leaves the reader installed. -/
theorem call_follows {β : Type} {x : Reading (β × ρ)}
    {g : β → DecoderAnswer} {a : DecoderAnswer} {v : ρ} {c : MemCacher σ × σ}
    (hans : (x.evaluated T.read).map (fun y => (g y.1, y.2)) = some (a, v))
    (hinv : CacheInv T.mem c.1) (hf : c.1.f.isSome = true) :
    ∃ v', (x.answered imageCallback c).map (fun y => (g y.1.1, (y.1.2, y.2))) = some (a, v') ∧
      ∀ s, Follows T s v v' := by
  obtain ⟨y, hy, hay⟩ := Option.map_eq_some_iff.mp hans
  obtain ⟨rfl, rfl⟩ := Prod.mk.inj hay
  obtain ⟨c', hc', hinv', hf'⟩ := answered_imageCallback hy hinv hf
  refine ⟨(y.2, c'), ?_, fun s => ⟨rfl, hinv', fun _ _ => hf'⟩⟩
  rw [hc', Option.map_some]

/-- INTERNAL: **an answer is the same** through a cacher as on the memory itself.
SRC: decode_proc/mod.rs:26-44, 106-126 -/
theorem cached_answers (d : ImageDecoder ρ) {f : Reader σ} (hf : f.Serves T.mem)
    {s : DecodeState} {r v : ρ} {w : ρ × MemCacher σ × σ} {a : DecoderAnswer}
    (hw : Follows T s r w) (hans : d.plain T.read r s = some (a, v)) :
    ∃ v', d.cached f w s = some (a, v') ∧ ∀ s', s.step a = some s' → Follows T s' v v' := by
  obtain ⟨r', c⟩ := w
  obtain ⟨hr, hinv, hsome⟩ := hw
  obtain rfl : r' = r := hr
  cases hphase : s.phase with
  | sync =>
    simp only [plain, hphase] at hans
    obtain ⟨x, hx, hax⟩ := Option.map_eq_some_iff.mp hans
    obtain ⟨rfl, rfl⟩ := Prod.mk.inj hax
    simp only [cached, calls, hphase, hx, Option.map_some]
    refine ⟨_, rfl, fun s' hs' => ?_⟩
    cases hres : x.1 with
    | ok st => exact ⟨rfl, hinv.install hf, fun _ _ => rfl⟩
    | error e =>
      -- the loop is over, and no reader was installed
      rw [hres] at hs'
      cases DecodeState.step_cases hs' with
      | notSynced => exact ⟨rfl, hinv, fun _ hne => absurd rfl hne⟩
      | notResynced _ hresync =>
        rw [hphase] at hresync
        cases hresync
  | drain | next | resync =>
    simp only [plain, hphase] at hans
    simp only [cached, calls, hphase]
    obtain ⟨v', hv', hfollows⟩ :=
      call_follows hans hinv (hsome (by simp [hphase]) (by simp [hphase]))
    exact ⟨v', hv', fun s' _ => hfollows s'⟩
  | returned =>
    simp only [plain, hphase] at hans
    cases hans

/-- INTERNAL: **a chunk is counted as it is on the memory itself**, in every map and with every
cacher.
SRC: decode_proc/mod.rs:15-93, 96-175 -/
theorem cached_decodes (d : ImageDecoder ρ) {f : Reader σ} (hf : f.Serves T.mem) {n : ℕ}
    {data : Bytes} (hd : d.Decodes T n data) {c : MemCacher σ × σ} (hc : CacheInv T.mem c.1)
    (dataRst : PageMap) :
    ((decodeLoop dataRst).run (d.cached f) (d.new data, c) n).state.dataRst =
        decodeYield dataRst (d.yields T n data) ∧
      CacheInv T.mem ((decodeLoop dataRst).run (d.cached f) (d.new data, c) n).world.2.1 := by
  have hstart : Follows T (decodeLoop dataRst).init (d.new data) (d.new data, c) :=
    ⟨rfl, hc, fun hne => absurd rfl hne⟩
  -- where the one has ended, so has the decode, and nothing is called any more
  have hopen : ∀ m < n,
      Ended (d.plain T.read) ((decodeLoop dataRst).run (d.plain T.read) (d.new data) m) → ∀ v',
      d.cached f v' ((decodeLoop dataRst).run (d.plain T.read) (d.new data) m).state = none := by
    intro m hm hended v'
    have hreturned := hd.returned dataRst
    rw [decoded, run_of_ended hended hm.le] at hreturned
    simp only [cached, calls, hreturned]
  have hcalls : ∀ s r w a v, Follows T s r w → d.plain T.read r s = some (a, v) →
      ∃ v', d.cached f w s = some (a, v') ∧
        ∀ s', (decodeLoop dataRst).step s a = some s' → Follows T s' v v' :=
    fun _ _ _ _ _ hw hans => d.cached_answers hf hw hans
  obtain ⟨hstate, -, hfollows⟩ := run_eq_of_answers hcalls hstart hopen
  refine ⟨?_, hfollows.2.1⟩
  obtain ⟨-, hmap⟩ := decodeLoop_counts (fun _ => rfl)
    (exec_log (M := decodeLoop dataRst) (E := d.plain T.read) (d.new data) n)
  have hlog := (d.decoded_congr T n dataRst data).2.1
  simp only [decoded] at hlog
  rw [hstate, hmap, hlog]
  rfl

/-! ## A worker -/

/-- The chunks among what a worker takes. -/
def taken (ctrl : List ProcCtrl) : List Bytes :=
  ctrl.filterMap fun
    | .init => none
    | .proc data => some data

/-- INTERNAL: **a local worker** counts what its chunks yield.  By induction on the chunks, with the
cacher that the chunks before have left. -/
theorem read_localWorker (d : ImageDecoder ρ) {f : Reader σ} (hf : f.Serves T.mem) {n : ℕ}
    {chunks : List Bytes} (hd : ∀ data ∈ chunks, d.Decodes T n data) {c : MemCacher σ × σ}
    (hc : CacheInv T.mem c.1) (dataRst : PageMap) :
    (d.localWorker f n c dataRst chunks).read =
      dataRst.read + (chunks.map fun data => hist (d.yields T n data)).sum := by
  induction chunks generalizing c dataRst with
  | nil => simp [localWorker]
  | cons data chunks ih =>
    rw [List.forall_mem_cons] at hd
    obtain ⟨hmap, hinv⟩ := d.cached_decodes hf hd.1 hc dataRst
    rw [localWorker, DecodeProc.decode, ih hd.2 hinv, hmap, read_decodeYield, List.map_cons,
      List.sum_cons, ← add_assoc]

/-! ## A worker of a client -/

/-- The decode of a chunk returns within `n` calls, and nothing is read in it. -/
def Blind (d : ImageDecoder ρ) (n : ℕ) (data : Bytes) : Prop :=
  ((decodeLoop ∅).run (d.plain fun _ => none) (d.new data) n).state.phase = .returned

/-- With a client the first read of the image stops the decode. -/
theorem asyncImageCallback_eq_none {c : MemCacher Unit} (h : c.Empty) (T : Target) (G : Growth)
    (w : Unit) (q : ImageRead) : asyncImageCallback (remoteReader T G) (c, w) q = none := by
  obtain ⟨e, he, -⟩ := h.getContentWith T G w q.1 q.2
  rw [asyncImageCallback, he]

/-- INTERNAL: **a worker of a client answers as if nothing could be read.**
SRC: decode_proc/mod.rs:96-175 -/
theorem asyncCached_eq (d : ImageDecoder ρ) {c : MemCacher Unit} (h : c.Empty) (T : Target)
    (G : Growth) (w : Unit) (r : ρ) (s : DecodeState) :
    d.asyncCached (remoteReader T G) (r, c, w) s =
      (d.plain (fun _ => none) r s).map fun x => (x.1, (x.2, c, w)) := by
  have hnone := asyncImageCallback_eq_none h T G w
  cases hphase : s.phase with
  | sync =>
    simp only [asyncCached, calls, plain, hphase, Option.map_map]
    congr 1
    funext x
    cases hx : x.1 <;> simp only [Function.comp_apply, hx, id]
  | drain | next | resync =>
    simp only [asyncCached, calls, plain, hphase, Asking.answered_eq_evaluated hnone,
      Option.map_map]
    rfl
  | returned => simp only [asyncCached, calls, plain, hphase, Option.map_none]

/-- INTERNAL: so it comes to where the decode comes to in which nothing can be read, with the cacher
it had.  By induction on the calls. -/
theorem run_asyncCached (d : ImageDecoder ρ) {c : MemCacher Unit} (h : c.Empty) (T : Target)
    (G : Growth) (w : Unit) (n : ℕ) (data : Bytes) :
    (decodeLoop ∅).run (d.asyncCached (remoteReader T G)) (d.new data, c, w) n =
      ⟨((decodeLoop ∅).run (d.plain fun _ => none) (d.new data) n).state,
        (((decodeLoop ∅).run (d.plain fun _ => none) (d.new data) n).world, c, w),
        ((decodeLoop ∅).run (d.plain fun _ => none) (d.new data) n).log⟩ := by
  induction n with
  | zero => rfl
  | succ n ih =>
    rw [run_succ, run_succ, ih, ask, ask, d.asyncCached_eq h]
    cases d.plain (fun _ => none)
      ((decodeLoop ∅).run (d.plain fun _ => none) (d.new data) n).world
      ((decodeLoop ∅).run (d.plain fun _ => none) (d.new data) n).state with
    | none => rfl
    | some e =>
      simp only [Option.map_some]
      cases (decodeLoop ∅).step
        ((decodeLoop ∅).run (d.plain fun _ => none) (d.new data) n).state e.1 <;> rfl

/-- A call that reads nothing comes to the same where something can be read. -/
theorem plain_of_blind {d : ImageDecoder ρ} {r r' : ρ} {s : DecodeState} {a : DecoderAnswer}
    (h : d.plain (fun _ => none) r s = some (a, r')) (read : ImageRead → Option Bytes) :
    d.plain read r s = some (a, r') := by
  have hdone : ∀ {β : Type} {x : Reading β} {y : β}, x.evaluated (fun _ => none) = some y →
      x.evaluated read = some y := fun hx => by
    rw [Asking.eq_done_of_evaluated hx]
    rfl
  cases hphase : s.phase with
  | sync =>
    simp only [plain, hphase] at h ⊢
    exact h
  | drain | next | resync =>
    simp only [plain, hphase] at h ⊢
    obtain ⟨x, hx, ha⟩ := Option.map_eq_some_iff.mp h
    exact Option.map_eq_some_iff.mpr ⟨x, hdone hx, ha⟩
  | returned =>
    simp only [plain, hphase] at h
    cases h

/-- INTERNAL: **a decode that reads nothing** returns on every target, and with the same map. -/
theorem Blind.decodes {d : ImageDecoder ρ} {n : ℕ} {data : Bytes} (h : d.Blind n data)
    (T : Target) : d.Decodes T n data ∧
      ((decodeLoop ∅).run (d.plain fun _ => none) (d.new data) n).state.dataRst.read =
        hist (d.yields T n data) := by
  have hopen : ∀ m < n, Ended (d.plain fun _ => none)
      ((decodeLoop ∅).run (d.plain fun _ => none) (d.new data) m) →
        ∀ r, d.plain T.read r ((decodeLoop ∅).run (d.plain fun _ => none) (d.new data) m).state =
          none := by
    intro m hm hended r
    have hreturned := h
    rw [Blind, run_of_ended hended hm.le] at hreturned
    simp only [plain, hreturned]
  have hcalls : ∀ (s : DecodeState) (r r' : ρ) a v, r = r' →
      d.plain (fun _ => none) r s = some (a, v) → ∃ v', d.plain T.read r' s = some (a, v') ∧
        ∀ s', (decodeLoop ∅).step s a = some s' → v = v' := by
    rintro s r r' a v rfl ha
    exact ⟨v, plain_of_blind ha T.read, fun _ _ => rfl⟩
  obtain ⟨hstate, hlog, -⟩ := run_eq_of_answers hcalls (Eq.refl (d.new data)) hopen
  constructor
  · rw [Decodes, decoded, hstate]
    exact h
  · obtain ⟨-, hmap⟩ := decodeLoop_counts (fun _ => rfl)
      (exec_log (M := decodeLoop ∅) (E := d.plain fun _ => none) (d.new data) n)
    rw [hmap, ← hlog, read_decodeYield]
    exact (congrArg (· + _) PageMap.read_empty).trans (zero_add _)

/-- INTERNAL: **a worker of a client** gets through what it takes if and only if nothing is read in
the decode of its chunks, and makes one map of each, with what the chunk yields.  By induction on
what it takes; its cacher stays empty. -/
theorem procWorker_iff (d : ImageDecoder ρ) (T : Target) (G : Growth) {n : ℕ}
    {ctrl : List ProcCtrl} {c : MemCacher Unit} (h : c.Empty) (w : Unit) :
    ((d.procWorker (remoteReader T G) n (c, w) ctrl).isSome ↔
        ∀ data ∈ taken ctrl, d.Blind n data) ∧
      ∀ maps, d.procWorker (remoteReader T G) n (c, w) ctrl = some maps →
        maps.map PageMap.read = (taken ctrl).map fun data => hist (d.yields T n data) := by
  induction ctrl generalizing c with
  | nil =>
    refine ⟨⟨fun _ data hdata => absurd hdata List.not_mem_nil, fun _ => rfl⟩, fun maps hmaps => ?_⟩
    obtain rfl := Option.some.inj hmaps
    rfl
  | cons x ctrl ih =>
    cases x with
    | init => exact ih (.clearData c)
    | proc data =>
      have htaken : taken (.proc data :: ctrl) = data :: taken ctrl := rfl
      obtain ⟨hsome, hmaps⟩ := ih h
      rw [procWorker, DecodeProc.asyncDecode, d.run_asyncCached h, htaken, List.forall_mem_cons]
      by_cases hblind : d.Blind n data
      · have hphase : ((decodeLoop ∅).run (d.plain fun _ => none) (d.new data) n).state.phase =
            .returned := hblind
        simp only [hphase, Option.isSome_map]
        refine ⟨hsome.trans (and_iff_right hblind).symm, fun maps heq => ?_⟩
        obtain ⟨rest, hrest, rfl⟩ := Option.map_eq_some_iff.mp heq
        rw [List.map_cons, List.map_cons, hmaps rest hrest, (hblind.decodes T).2]
      · have hphase : ((decodeLoop ∅).run (d.plain fun _ => none) (d.new data) n).state.phase ≠
            .returned := hblind
        split
        · next hreturned => exact absurd hreturned hphase
        · exact ⟨⟨fun hs => (nomatch hs), fun hall => absurd hall.1 hblind⟩,
            fun _ hs => (nomatch hs)⟩

end ImageDecoder

/-- A decoder that finds an instruction at 0x1000, once, when there is a seven. -/
def oneRead : ImageDecoder Bool where
  new _ := true
  syncForward r := .done (.ok ⟨false⟩, r)
  event r := .done (.error (.other 0), r)
  next r :=
    if r then .ask ([0], 0x1000) fun bytes =>
      .done (if bytes = [7] then .ok (0x1000, ⟨false⟩) else .error (.other 0), false)
    else .done (.error (.other 0), r)

/-- The decoder of one read decodes within five answers. -/
theorem oneRead_decodes (data : Bytes) : oneRead.Decodes sevensTarget 5 data := rfl

/-- A decoder that finds an instruction at 0x2000 without looking. -/
def noRead : ImageDecoder Bool where
  new _ := true
  syncForward r := .done (.ok ⟨false⟩, r)
  event r := .done (.error (.other 0), r)
  next r := .done (if r then .ok (0x2000, ⟨false⟩) else .error (.other 0), false)

/-- The decoder without a read reads nothing. -/
theorem noRead_blind (data : Bytes) : noRead.Blind 5 data := rfl

end PtkGenerator

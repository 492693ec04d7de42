import Mathlib.Data.Set.Finite.Lattice
import PtkGenerator.Analysis.DistributedDecode
import PtkGenerator.Model.DecodeLoop

/-!
# What the decode loop returns

The loop goes on for as long as the decoder answers without errors: three errors in a row end it,
and an error can only be made up for by another synchronisation.  With a decoder that synchronises
finitely often and in between returns finitely many events and instructions it ends, and what it
has counted then are the instructions that were returned, in counters of 64 bits.
-/

set_option autoImplicit false

namespace PtkGenerator

open Machine SumMap

/-! ## What is counted -/

/-- The addresses that were returned, in two parts. -/
@[simp] theorem returnedIps_append (as bs : List DecoderAnswer) :
    returnedIps (as ++ bs) = returnedIps as ++ returnedIps bs := List.filterMap_append

/-- INTERNAL: **one answer counts what it returns.**
SRC: decode_proc/mod.rs:53-65, 135-147 -/
theorem DecodeState.Step.counts {s t : DecodeState} {a : DecoderAnswer} (h : Step s a t)
    (hs : s.phase = .sync → s.cnt = 0) : (t.phase = .sync → t.cnt = 0) ∧
      t.cnt = s.cnt + UInt64.ofNat (returnedIps [a]).length ∧
      t.dataRst = decodeYield s.dataRst (returnedIps [a]) := by
  have hzero : ∀ n : Usize, n = n + UInt64.ofNat 0 := fun n => (add_zero n).symm
  cases h with
  | counted ip st _ => exact ⟨fun h => (by cases h), rfl, rfl⟩
  | notSynced e hsync =>
    refine ⟨fun h => (by cases h), ?_, rfl⟩
    rw [hs hsync]
    rfl
  | synced | moreEvents | noEvent | eventFailed | lostSync | failed | resynced | notResynced =>
    exact ⟨fun h => (by cases h), hzero s.cnt, rfl⟩

/-- INTERNAL: **a run counts the instructions that were returned in it**, by induction on the
answers. -/
theorem decodeLoop_counts {dataRst : PageMap} {s t : DecodeState} {as : List DecoderAnswer}
    (hs : s.phase = .sync → s.cnt = 0) (h : (decodeLoop dataRst).exec s as = some t) :
    t.cnt = s.cnt + UInt64.ofNat (returnedIps as).length ∧
      t.dataRst = decodeYield s.dataRst (returnedIps as) := by
  induction as generalizing s with
  | nil =>
    obtain rfl := Option.some.inj h
    exact ⟨(add_zero s.cnt).symm, rfl⟩
  | cons a as ih =>
    obtain ⟨u, hu, hrest⟩ := (exec_cons_eq_some _).mp h
    obtain ⟨hphase, hcnt, hmap⟩ := (DecodeState.step_cases hu).counts hs
    obtain ⟨hcnt', hmap'⟩ := ih hphase hrest
    have hips : returnedIps (a :: as) = returnedIps [a] ++ returnedIps as :=
      returnedIps_append [a] as
    rw [hips]
    constructor
    · rw [hcnt', hcnt, List.length_append, UInt64.ofNat_add, add_assoc]
    · rw [hmap', hmap, decodeYield, decodeYield, decodeYield, List.foldl_append]

/-- Where no address falls into a cell the cell counts nothing. -/
theorem cnt_hist_of_forall_not {ips : List Usize} {page : Usize} {i : Fin 4096}
    (h : ∀ a ∈ ips, ¬ (pageOf a = page ∧ offIdx a = i)) : (hist ips).cnt page i = 0 := by
  induction ips with
  | nil => simp [hist]
  | cons a ips ih =>
    have hcons : hist (a :: ips) = Tally.one a + hist ips := by simp [hist]
    rw [List.forall_mem_cons] at h
    rw [hcons, Tally.cnt_add, ih h.2, Tally.cnt_one, if_neg h.1, add_zero]

/-- What becomes of a map and of `cnt` when the instructions at `ips` are returned: the counters are
64 bits wide. -/
structure Counted (dataRst : PageMap) (ips : List Usize) (s : DecodeState) : Prop where
  cnt : s.cnt.toNat = ips.length % 2 ^ 64
  counters : ∀ a, (s.dataRst.cnt (pageOf a) (offIdx a)).toNat =
    ((dataRst.cnt (pageOf a) (offIdx a)).toNat + ips.count a) % 2 ^ 64
  others : ∀ page i, (∀ a ∈ ips, ¬ (pageOf a = page ∧ offIdx a = i)) →
    s.dataRst.cnt page i = dataRst.cnt page i
  pages : ∀ page, page ∈ s.dataRst ↔ page ∈ dataRst ∨ ∃ a ∈ ips, pageOf a = page

/-- At every moment what was returned is counted. -/
theorem counted_of_exec {dataRst : PageMap} {s : DecodeState} {as : List DecoderAnswer}
    (h : (decodeLoop dataRst).exec (decodeLoop dataRst).init as = some s) :
    Counted dataRst (returnedIps as) s := by
  obtain ⟨hcnt, hmap⟩ := decodeLoop_counts (fun _ => rfl) h
  have hread : s.dataRst.read = dataRst.read + hist (returnedIps as) := by
    rw [hmap]
    exact read_decodeYield _ _
  have hadd : ∀ page i, s.dataRst.cnt page i =
      dataRst.cnt page i + (hist (returnedIps as)).cnt page i := by
    intro page i
    rw [PageMap.cnt_eq_read, PageMap.cnt_eq_read, hread, Tally.cnt_add]
  refine ⟨?_, ?_, ?_, ?_⟩
  · rw [hcnt]
    show (0 + UInt64.ofNat (returnedIps as).length).toNat = _
    rw [zero_add, UInt64.toNat_ofNat']
  · intro a
    rw [hadd, UInt64.toNat_add, cnt_hist, Nat.add_mod_mod]
  · intro page i hno
    rw [hadd, cnt_hist_of_forall_not hno, add_zero]
  · intro page
    rw [PageMap.mem_iff, PageMap.mem_iff, hread, Pi.add_apply, add_ne_zero_iff, hist_ne_zero_iff]

/-! ## The end of the loop -/

/-- A synchronisation that succeeds. -/
def SyncOk (a : Option DecoderAnswer) : Prop := ∃ st, a = some (.syncForward (.ok st))

/-- An event or an instruction that is returned. -/
def WorkOk (a : Option DecoderAnswer) : Prop :=
  (∃ st, a = some (.event (.ok st))) ∨ ∃ i, a = some (.next (.ok i))

/-- The decoder synchronises finitely often, and returns finitely many events and instructions from
any time on until it synchronises again. -/
structure FinitelyOk (answers : ℕ → Option DecoderAnswer) : Prop where
  syncs : {n | SyncOk (answers n)}.Finite
  work : ∀ n, {m | n ≤ m ∧ WorkOk (answers m) ∧
    ∀ k, n ≤ k → k < m → ¬ SyncOk (answers k)}.Finite

/-- From some time on there are only errors. -/
theorem FinitelyOk.exists_errors {answers : ℕ → Option DecoderAnswer} (h : FinitelyOk answers) :
    ∃ k, ∀ n, k ≤ n → ¬ SyncOk (answers n) ∧ ¬ WorkOk (answers n) := by
  obtain ⟨j, hj⟩ := h.syncs.bddAbove
  have hsync : ∀ n, j + 1 ≤ n → ¬ SyncOk (answers n) := fun n hn hok => by
    have := hj hok
    omega
  -- behind the last synchronisation, all events and instructions count
  obtain ⟨k, hk⟩ := (h.work (j + 1)).bddAbove
  refine ⟨max (j + 1) (k + 1), fun n hn => ⟨hsync n (by omega), fun hok => ?_⟩⟩
  have := hk ⟨by omega, hok, fun i hi _ => hsync i hi⟩
  omega

/-- How many errors in a row a call is away from the end. -/
def DecodePhase.errorsLeft : DecodePhase → ℕ
  | .drain => 3
  | .next => 2
  | .sync => 1
  | .resync => 1
  | .returned => 0

/-- An error takes the loop nearer to its end. -/
theorem DecodeState.Step.errorsLeft_lt {s t : DecodeState} {a : DecoderAnswer} (h : Step s a t)
    (hsync : ¬ SyncOk (some a)) (hwork : ¬ WorkOk (some a)) :
    t.phase.errorsLeft < s.phase.errorsLeft := by
  cases h with
  | synced st _ => exact absurd ⟨st, rfl⟩ hsync
  | resynced st _ => exact absurd ⟨st, rfl⟩ hsync
  | moreEvents st _ _ => exact absurd (.inl ⟨st, rfl⟩) hwork
  | noEvent st _ _ => exact absurd (.inl ⟨st, rfl⟩) hwork
  | counted ip st _ => exact absurd (.inr ⟨(ip, st), rfl⟩) hwork
  | notSynced e hs => simp [hs, DecodePhase.errorsLeft]
  | eventFailed e hs => simp [hs, DecodePhase.errorsLeft]
  | lostSync e hs _ => simp [hs, DecodePhase.errorsLeft]
  | failed code hs => simp [hs, DecodePhase.errorsLeft]
  | notResynced e hs => simp [hs, DecodePhase.errorsLeft]

section Decoder

variable {ρ : Type} (d : InsnDecoder ρ)

/-- Every answer of a decoder is to the call that is made. -/
theorem InsnDecoder.step_isSome {w w' : ρ} {s : DecodeState} {a : DecoderAnswer}
    (h : d.answers w s = some (a, w')) : (s.step a).isSome := by
  unfold answers at h
  cases hphase : s.phase with
  | sync | resync =>
    simp only [hphase] at h
    obtain ⟨rfl, -⟩ := Prod.mk.inj (Option.some.inj h)
    cases hr : (d.syncForward w).1 <;>
      simp only [DecodeState.step, hphase, Option.isSome_some]
  | drain =>
    simp only [hphase] at h
    obtain ⟨rfl, -⟩ := Prod.mk.inj (Option.some.inj h)
    cases hr : (d.event w).1 <;> simp only [DecodeState.step, hphase, Option.isSome_some]
  | next =>
    simp only [hphase] at h
    obtain ⟨rfl, -⟩ := Prod.mk.inj (Option.some.inj h)
    cases hr : (d.next w).1 with
    | ok i => simp only [DecodeState.step, hphase, Option.isSome_some]
    | error e => cases e <;> simp only [DecodeState.step, hphase, Option.isSome_some]
  | returned =>
    simp only [hphase] at h
    cases h

/-- A decode with finitely many answers that are no error ends. -/
theorem decodeLoop_ends (w : ρ) (dataRst : PageMap)
    (h : FinitelyOk ((decodeLoop dataRst).answerAt d.answers w)) :
    ∃ n, Ended d.answers ((decodeLoop dataRst).run d.answers w n) := by
  obtain ⟨k, hk⟩ := h.exists_errors
  refine exists_ended (fun s => s.phase.errorsLeft) k fun n hn a w' ha => ?_
  obtain ⟨t, ht⟩ := Option.isSome_iff_exists.mp (d.step_isSome ha)
  have hanswer : (decodeLoop dataRst).answerAt d.answers w n = some a := by
    rw [answerAt, ha]
    rfl
  obtain ⟨hsync, hwork⟩ := hk n hn
  rw [hanswer] at hsync hwork
  exact ⟨t, ht, (DecodeState.step_cases ht).errorsLeft_lt hsync hwork⟩

/-- The loop returns, with the instructions counted that were returned to it; when the first
synchronisation fails these are none, and the map is as it was. -/
def ReturnsCounted (M : Machine DecodeState DecoderAnswer) (w : ρ) (dataRst : PageMap) : Prop :=
  ∃ n, Ended d.answers (M.run d.answers w n) ∧
    Counted dataRst (returnedIps (M.run d.answers w n).log) (M.run d.answers w n).state ∧
    ∀ e, (d.syncForward w).1 = .error e → (M.run d.answers w n).state.cnt = 0 ∧
      (M.run d.answers w n).state.dataRst = dataRst

/-- A decode that ends has counted what was returned. -/
theorem decodeLoop_returns (w : ρ) (dataRst : PageMap)
    (h : FinitelyOk ((decodeLoop dataRst).answerAt d.answers w)) :
    ReturnsCounted d (decodeLoop dataRst) w dataRst := by
  obtain ⟨n, hn⟩ := decodeLoop_ends d w dataRst h
  refine ⟨n, hn, counted_of_exec (exec_log w n), fun e he => ?_⟩
  have hfirst : ((decodeLoop dataRst).run d.answers w 1).state = ⟨.returned, 0, dataRst⟩ := by
    simp only [run, ask, decodeLoop, InsnDecoder.answers, DecodeState.step, he]
  have hended : Ended d.answers ((decodeLoop dataRst).run d.answers w 1) := by
    rw [Ended, hfirst]
    rfl
  rw [run_eq_of_ended hn hended, hfirst]
  exact ⟨rfl, rfl⟩

/-- MAIN: **the decode loop terminates and counts.**  For every decoder that synchronises finitely
often and returns finitely many events and instructions between two synchronisations and behind the
last one, and for every map: `decode` and `async_decode` return, `cnt` is the number of instructions
that were returned, the counter at each address grows by the number of them there, both in 64 bits,
the other counters are unchanged, and the pages that are added are those of returned instructions.
SRC: decode_proc/mod.rs:15-93, 96-175 -/
theorem decode_total (w : ρ) (dataRst : PageMap) :
    (FinitelyOk ((DecodeProc.decode dataRst).answerAt d.answers w) →
      ReturnsCounted d (DecodeProc.decode dataRst) w dataRst) ∧
    (FinitelyOk ((DecodeProc.asyncDecode dataRst).answerAt d.answers w) →
      ReturnsCounted d (DecodeProc.asyncDecode dataRst) w dataRst) :=
  ⟨decodeLoop_returns d w dataRst, decodeLoop_returns d w dataRst⟩

end Decoder

/-! ## A decoder of one instruction -/

/-- Answers come to an end with the run. -/
theorem finitelyOk_of_ended {ρ : Type} {d : InsnDecoder ρ} {w : ρ} {dataRst : PageMap} {n : ℕ}
    (h : Ended d.answers ((decodeLoop dataRst).run d.answers w n)) :
    FinitelyOk ((decodeLoop dataRst).answerAt d.answers w) := by
  have hnone : ∀ m, n ≤ m → (decodeLoop dataRst).answerAt d.answers w m = none := by
    intro m hm
    rw [answerAt, run_of_ended h hm, h]
    rfl
  refine ⟨(Set.finite_lt_nat n).subset fun m hm => ?_,
    fun k => (Set.finite_lt_nat n).subset fun m hm => ?_⟩
  · by_contra hlt
    obtain ⟨st, hst⟩ := hm
    rw [hnone m (not_lt.mp hlt)] at hst
    cases hst
  · by_contra hlt
    rcases hm.2.1 with ⟨st, hst⟩ | ⟨i, hi⟩
    · rw [hnone m (not_lt.mp hlt)] at hst
      cases hst
    · rw [hnone m (not_lt.mp hlt)] at hi
      cases hi

/-- A decoder that returns the instruction at 0x1000 once. -/
def oneInsn : InsnDecoder Bool where
  syncForward w := (.ok ⟨false⟩, w)
  event w := (.error (.other 0), w)
  next w := if w then (.ok (0x1000, ⟨false⟩), false) else (.error (.other 0), w)

/-- The decode of one instruction ends with its fifth answer. -/
theorem oneInsn_ended (dataRst : PageMap) :
    Ended oneInsn.answers ((decodeLoop dataRst).run oneInsn.answers true 5) := rfl

/-- One instruction is decoded and counted. -/
theorem decode_total_oneInsn : ReturnsCounted oneInsn (DecodeProc.decode ∅) true ∅ :=
  (decode_total oneInsn true ∅).1 (finitelyOk_of_ended (oneInsn_ended ∅))

/-- A map with a counter at its largest value. -/
def fullCounter : PageMap := Finmap.insert 0x1000 (InsPage.zeroed.addAt 0 0xffffffffffffffff) ∅

/-- MAIN: a counter at its largest value does not grow.
SRC: decode_proc/mod.rs:60 -/
theorem full_counter_wraps : ¬ ∀ (d : InsnDecoder Bool) (w : Bool) (dataRst : PageMap),
    FinitelyOk ((DecodeProc.decode dataRst).answerAt d.answers w) →
      ∃ n, Ended d.answers ((DecodeProc.decode dataRst).run d.answers w n) ∧
        ∀ a, (((DecodeProc.decode dataRst).run d.answers w n).state.dataRst.cnt
          (pageOf a) (offIdx a)).toNat = (dataRst.cnt (pageOf a) (offIdx a)).toNat +
            (returnedIps ((DecodeProc.decode dataRst).run d.answers w n).log).count a := by
  intro hall
  obtain ⟨n, hn, hcnt⟩ := hall oneInsn true fullCounter
    (finitelyOk_of_ended (oneInsn_ended fullCounter))
  have hrun := run_eq_of_ended hn (oneInsn_ended fullCounter)
  have hgrows := hcnt 0x1000
  have hips : returnedIps
      ((DecodeProc.decode fullCounter).run oneInsn.answers true n).log = [0x1000] := by
    rw [hrun]
    rfl
  have hpage : pageOf 0x1000 = 0x1000 := by decide
  have hoff : offIdx 0x1000 = 0 := by decide
  have hfull : (fullCounter.cnt (pageOf 0x1000) (offIdx 0x1000)).toNat = 0xffffffffffffffff := by
    rw [hpage, hoff, PageMap.cnt, fullCounter, Finmap.lookup_insert]
    dsimp only
    rw [InsPage.execCnt_addAt_zeroed, if_pos rfl]
    rfl
  rw [hips, hfull, List.count_singleton_self] at hgrows
  have hlt := (((DecodeProc.decode fullCounter).run oneInsn.answers true n).state.dataRst.cnt
    (pageOf 0x1000) (offIdx 0x1000)).toNat_lt
  omega

end PtkGenerator

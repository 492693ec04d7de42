import PtkGenerator.Analysis.DistributedDecode
import PtkGenerator.Analysis.SpliterStream
import PtkGenerator.Library.Families
import PtkGenerator.Model.Pipeline

/-!
# Every chunk is decoded exactly once

The invariant of the pipeline is an account of the chunks: what the splitters have sent is on
the shared channel, with a worker that decodes it, or decoded (`Inv.conserved`).  A worker ends
only when the channel is empty and every splitter has ended, and no splitter ends before it has
sent what its buffers gave (`SpliterOk`), so behind `wait_for_complete` the account says that
every chunk was decoded once, and the maps of the workers read as the sum of the histograms of
all chunks (`pipeline_exactly_once`).  What a splitter sends is a function of the buffers it was
fed, which is why the schedule does not matter.
-/

set_option autoImplicit false

namespace PtkGenerator

open Families SumMap

variable {cpuNums : ℕ} {split : Bytes → List ℕ} {yields : Bytes → List Usize}

/-- The chunks a splitter has sent. -/
def Spliter.chunks (i : Fin cpuNums) (sp : Spliter) : List (Chunk cpuNums) :=
  sp.sent.mapIdx fun k d => ⟨i, k, d⟩

/-- The chunks a worker holds or has decoded. -/
def Worker.load (w : Worker cpuNums) : Multiset (Chunk cpuNums) :=
  (w.current.toList : Multiset (Chunk cpuNums)) + (w.decoded : Multiset (Chunk cpuNums))

/-- What a splitter has sent, or is about to send, is what the loop makes of the buffers it has
taken; it ends with nothing left to take or to send. -/
structure SpliterOk (split : Bytes → List ℕ) (sp : Spliter) : Prop where
  run : ∃ taken, sp.fed = taken ++ sp.rx ∧
    spliterRun split [] taken = some (sp.sent ++ sp.outgoing, sp.assemedData)
  ended : sp.ended = true → sp.txAlive = false ∧ sp.rx = [] ∧ sp.outgoing = []

/-- The map of a worker counts what it has decoded. -/
structure WorkerOk (yields : Bytes → List Usize) (w : Worker cpuNums) : Prop where
  data : w.data.read = (w.decoded.map fun c => hist (yields c.data)).sum
  ended : w.ended = true → w.current = none

/-- What the main thread has waited for. -/
def MainOk (s : Pipeline cpuNums) : MainPhase → Prop
  | .collecting => ∀ i, (s.spliters i).txAlive = true
  | .waitSpliter k => ∀ i, i.val < k → (s.spliters i).ended = true
  | .waitWorker k => (∀ i, (s.spliters i).ended = true) ∧
      ∀ j, j.val < k → (s.workers j).ended = true
  | .completed => (∀ i, (s.spliters i).ended = true) ∧ ∀ j, (s.workers j).ended = true

/-- What holds of the threads and the channel together. -/
structure Pipeline.Inv (split : Bytes → List ℕ) (yields : Bytes → List Usize)
    (s : Pipeline cpuNums) : Prop where
  spliters : ∀ i, SpliterOk split (s.spliters i)
  workers : ∀ j, WorkerOk yields (s.workers j)
  conserved : ∑ i, ((s.spliters i).chunks i : Multiset (Chunk cpuNums)) =
    (s.queue : Multiset (Chunk cpuNums)) + ∑ j, (s.workers j).load
  drained : ∀ j, (s.workers j).ended = true →
    (∀ i, (s.spliters i).ended = true) ∧ s.queue = []
  main : MainOk s s.main

/-- A splitter that has ended is still at its end behind an update that keeps that. -/
theorem ended_update {spliters : Fin cpuNums → Spliter} {i : Fin cpuNums} {sp : Spliter}
    (hended : (spliters i).ended = true → sp.ended = true) (k : Fin cpuNums) :
    (spliters k).ended = true → (Function.update spliters i sp k).ended = true :=
  forall_update (P := fun k (sp' : Spliter) => (spliters k).ended = true → sp'.ended = true)
    (fun _ hk => hk) hended k

/-- What `main` has waited for stays so when a splitter changes that does not start again. -/
theorem MainOk.setSpliter {s : Pipeline cpuNums} {m : MainPhase} (h : MainOk s m) {i : Fin cpuNums}
    {sp : Spliter} (hended : (s.spliters i).ended = true → sp.ended = true)
    (halive : m = .collecting → sp.txAlive = true) : MainOk (s.setSpliter i sp) m := by
  cases m with
  | collecting =>
    exact forall_update (P := fun _ (sp' : Spliter) => sp'.txAlive = true) h (halive rfl)
  | waitSpliter k => exact fun i' hi' => ended_update hended i' (h i' hi')
  | waitWorker k => exact ⟨fun i' => ended_update hended i' (h.1 i'), h.2⟩
  | completed => exact ⟨fun i' => ended_update hended i' (h.1 i'), h.2⟩

/-- What `main` has waited for stays so when a worker changes that does not start again. -/
theorem MainOk.setWorker {s : Pipeline cpuNums} {m : MainPhase} (h : MainOk s m)
    {j : Fin (cpuNums - 1)} {w : Worker cpuNums}
    (hended : (s.workers j).ended = true → w.ended = true) : MainOk (s.setWorker j w) m := by
  have hmono : ∀ k, (s.workers k).ended = true →
      (Function.update s.workers j w k).ended = true := by
    intro k
    exact forall_update
      (P := fun k (w' : Worker cpuNums) => (s.workers k).ended = true → w'.ended = true)
      (fun _ hk => hk) hended k
  cases m with
  | collecting => exact h
  | waitSpliter k => exact h
  | waitWorker k => exact ⟨h.1, fun k' hk' => hmono k' (h.2 k' hk')⟩
  | completed => exact ⟨h.1, fun k' => hmono k' (h.2 k')⟩

namespace Pipeline

/-- While `main` collects, each splitter has its sender. -/
theorem Inv.txAlive {s : Pipeline cpuNums} (h : s.Inv split yields) (hm : s.main = .collecting)
    (i : Fin cpuNums) : (s.spliters i).txAlive = true := by
  have hmain := h.main
  rw [hm] at hmain
  exact hmain i

/-! ## The ways a step changes the state -/

/-- A splitter may change that has sent the same chunks. -/
theorem Inv.setSpliter {s : Pipeline cpuNums} (h : s.Inv split yields) {i : Fin cpuNums}
    {sp : Spliter} (hok : SpliterOk split sp) (hsent : sp.sent = (s.spliters i).sent)
    (hended : (s.spliters i).ended = true → sp.ended = true)
    (halive : s.main = .collecting → sp.txAlive = true) :
    (s.setSpliter i sp).Inv split yields := by
  refine ⟨forall_update h.spliters hok, h.workers, ?_, ?_, h.main.setSpliter hended halive⟩
  · refine Eq.trans ?_ h.conserved
    refine sum_update_eq
      (g := fun (k : Fin cpuNums) (sp : Spliter) => (sp.chunks k : Multiset (Chunk cpuNums))) ?_
    unfold Spliter.chunks
    rw [hsent]
  · intro j hj
    obtain ⟨hall, hq⟩ := h.drained j hj
    exact ⟨fun k => ended_update hended k (hall k), hq⟩

/-- A worker may change, with the chunks it takes from the channel. -/
theorem Inv.setWorker {s : Pipeline cpuNums} (h : s.Inv split yields) {j : Fin (cpuNums - 1)}
    {w : Worker cpuNums} {queue : List (Chunk cpuNums)} {x : Multiset (Chunk cpuNums)}
    (hok : WorkerOk yields w) (hqueue : (s.queue : Multiset (Chunk cpuNums)) = ↑queue + x)
    (hload : w.load = (s.workers j).load + x)
    (hkeep : (s.workers j).ended = true → w.ended = true)
    (hended : w.ended = true → (∀ i, (s.spliters i).ended = true) ∧ queue = []) :
    ({ s.setWorker j w with queue } : Pipeline cpuNums).Inv split yields := by
  have hempty : s.queue = [] → queue = [] := by
    intro hq
    rw [hq, Multiset.coe_nil] at hqueue
    have := congrArg Multiset.card hqueue
    rw [Multiset.card_zero, Multiset.card_add, Multiset.coe_card] at this
    exact List.eq_nil_of_length_eq_zero (by omega)
  refine ⟨h.spliters, forall_update h.workers hok, ?_, ?_, h.main.setWorker hkeep⟩
  · have hsum : ∑ k, (Function.update s.workers j w k).load = (∑ k, (s.workers k).load) + x :=
      sum_update_add (g := fun _ (w' : Worker cpuNums) => w'.load) hload
    change _ = (queue : Multiset (Chunk cpuNums)) + ∑ k, (Function.update s.workers j w k).load
    rw [hsum, add_comm _ x, ← add_assoc, ← hqueue]
    exact h.conserved
  · refine forall_update (P := fun _ (w' : Worker cpuNums) => w'.ended = true →
      (∀ i, (s.spliters i).ended = true) ∧ queue = []) ?_ hended
    intro k hk
    exact ⟨(h.drained k hk).1, hempty (h.drained k hk).2⟩

/-- `main` may go to a place that the threads allow. -/
theorem Inv.setMain {s : Pipeline cpuNums} (h : s.Inv split yields) {m : MainPhase}
    (hm : MainOk s m) : ({ s with main := m } : Pipeline cpuNums).Inv split yields := by
  refine ⟨h.spliters, h.workers, h.conserved, h.drained, ?_⟩
  cases m <;> exact hm

/-! ## The steps -/

/-- A buffer from the capture goes to its splitter. -/
theorem Inv.processor {s t : Pipeline cpuNums} (h : s.Inv split yields) {i : Fin cpuNums}
    {d : Bytes} (ht : s.processor i d = some t) : t.Inv split yields := by
  obtain ⟨hm, ⟨-, rfl⟩ | ⟨-, rfl⟩⟩ := processor_cases ht
  · have hok := h.spliters i
    refine h.setSpliter ⟨?_, ?_⟩ rfl (fun he => he) fun _ => h.txAlive hm i
    · obtain ⟨taken, hfed, hrun⟩ := hok.run
      exact ⟨taken, by rw [hfed, List.append_assoc], hrun⟩
    · -- while buffers come in, no splitter has ended
      intro he
      have := (hok.ended he).1
      rw [h.txAlive hm i] at this
      cases this
  · exact h

/-- The capture ends. -/
theorem Inv.stop {s t : Pipeline cpuNums} (h : s.Inv split yields) (ht : s.stop = some t) :
    t.Inv split yields := by
  obtain ⟨-, rfl⟩ := stop_cases ht
  exact h.setMain fun i hi => absurd hi (Nat.not_lt_zero _)

/-- `main` drops the sender of a splitter. -/
theorem Inv.dropTx {s t : Pipeline cpuNums} (h : s.Inv split yields) (ht : s.dropTx = some t) :
    t.Inv split yields := by
  obtain ⟨k, hk, hm, -, rfl⟩ := dropTx_cases ht
  have hok := h.spliters ⟨k, hk⟩
  refine h.setSpliter ⟨hok.run, fun he => ⟨rfl, (hok.ended he).2⟩⟩ rfl (fun he => he) ?_
  intro hc
  rw [hm] at hc
  cases hc

/-- `main` joins a splitter that has ended. -/
theorem Inv.joinSpliter {s t : Pipeline cpuNums} (h : s.Inv split yields)
    (ht : s.joinSpliter = some t) : t.Inv split yields := by
  have hmain := h.main
  obtain ⟨k, hm, ⟨hk, hjoin, rfl⟩ | ⟨hk, rfl⟩⟩ := joinSpliter_cases ht
  · rw [hm] at hmain
    refine h.setMain fun i hi => ?_
    by_cases hik : i.val = k
    · obtain rfl : i = ⟨k, hk⟩ := Fin.ext hik
      exact hjoin.2
    · exact hmain i (by omega)
  · rw [hm] at hmain
    exact h.setMain ⟨fun i => hmain i (by omega), fun i hi => absurd hi (Nat.not_lt_zero _)⟩

/-- `main` joins a worker that has ended. -/
theorem Inv.joinWorker {s t : Pipeline cpuNums} (h : s.Inv split yields)
    (ht : s.joinWorker = some t) : t.Inv split yields := by
  have hmain := h.main
  obtain ⟨k, hm, ⟨hk, hjoin, rfl⟩ | ⟨hk, rfl⟩⟩ := joinWorker_cases ht
  · rw [hm] at hmain
    refine h.setMain ⟨hmain.1, fun j hj => ?_⟩
    by_cases hjk : j.val = k
    · obtain rfl : j = ⟨k, hk⟩ := Fin.ext hjk
      exact hjoin
    · exact hmain.2 j (by omega)
  · rw [hm] at hmain
    exact h.setMain ⟨hmain.1, fun j => hmain.2 j (by omega)⟩

end Pipeline

/-- A splitter that is fed one buffer more sends the chunks of that buffer behind the others. -/
theorem spliterRun_concat {a a' a'' d : Bytes} {ds sent chunks : List Bytes}
    (hrun : spliterRun split a ds = some (sent, a'))
    (hrecv : spliterRecv split a' d = some (chunks, a'')) :
    spliterRun split a (ds ++ [d]) = some (sent ++ chunks, a'') := by
  induction ds generalizing a sent with
  | nil =>
    simp only [spliterRun, Option.some.injEq, Prod.mk.injEq] at hrun
    obtain ⟨rfl, rfl⟩ := hrun
    rw [List.nil_append, spliterRun, hrecv]
    simp [spliterRun]
  | cons e ds ih =>
    rw [spliterRun] at hrun
    cases he : spliterRecv split a e with
    | none =>
      rw [he] at hrun
      cases hrun
    | some first =>
      obtain ⟨sent₁, a₁⟩ := first
      cases hrest : spliterRun split a₁ ds with
      | none =>
        simp only [he, hrest, Option.bind_eq_bind, Option.bind_some, Option.bind_none] at hrun
        cases hrun
      | some rest =>
        obtain ⟨later, a₂⟩ := rest
        simp only [he, hrest, Option.bind_eq_bind, Option.bind_some, Option.some.injEq,
          Prod.mk.injEq] at hrun
        obtain ⟨rfl, rfl⟩ := hrun
        rw [List.cons_append, spliterRun, he]
        simp only [Option.bind_eq_bind, Option.bind_some, ih hrest, List.append_assoc]

namespace Pipeline

/-- A splitter takes its next buffer and cuts it. -/
theorem Inv.spliterRecv {s t : Pipeline cpuNums} (h : s.Inv split yields) {i : Fin cpuNums}
    (ht : s.spliterRecv split i = some t) : t.Inv split yields := by
  obtain ⟨d, rx, chunks, assemedData, hrunning, hout, hrx, hrecv, rfl⟩ := spliterRecv_cases ht
  have hok := h.spliters i
  obtain ⟨taken, hfed, hrun⟩ := hok.run
  rw [hout, List.append_nil] at hrun
  rw [hrx] at hfed
  refine h.setSpliter ⟨⟨taken ++ [d], ?_, spliterRun_concat hrun hrecv⟩, ?_⟩ rfl
    (fun he => he) fun hm => h.txAlive hm i
  · rw [hfed, List.append_assoc, List.singleton_append]
  · intro he
    exact absurd he hrunning

/-- A splitter without a sender and without buffers ends. -/
theorem Inv.spliterEnd {s t : Pipeline cpuNums} (h : s.Inv split yields) {i : Fin cpuNums}
    (ht : s.spliterEnd i = some t) : t.Inv split yields := by
  obtain ⟨⟨-, halive, hrx, hout⟩, rfl⟩ := spliterEnd_cases ht
  have hok := h.spliters i
  exact h.setSpliter ⟨hok.run, fun _ => ⟨halive, hrx, hout⟩⟩ rfl (fun _ => rfl)
    fun hm => h.txAlive hm i

/-- A splitter sends a chunk to the channel. -/
theorem Inv.spliterSend {s t : Pipeline cpuNums} (h : s.Inv split yields) {i : Fin cpuNums}
    (ht : s.spliterSend i = some t) : t.Inv split yields := by
  obtain ⟨c, outgoing, hout, rfl⟩ := spliterSend_cases ht
  have hok := h.spliters i
  have hrunning : (s.spliters i).ended ≠ true := by
    intro he
    have := (hok.ended he).2.2
    rw [hout] at this
    cases this
  have hworkers : ∀ j, (s.workers j).ended ≠ true := fun j hj =>
    hrunning ((h.drained j hj).1 i)
  obtain ⟨taken, hfed, hrun⟩ := hok.run
  refine ⟨forall_update h.spliters ⟨⟨taken, hfed, ?_⟩, fun he => absurd he hrunning⟩, h.workers,
    ?_, fun j hj => absurd hj (hworkers j),
    h.main.setSpliter (fun he => he) fun hm => h.txAlive hm i⟩
  · rw [hrun, hout, List.append_assoc, List.singleton_append]
  · have hsum : ∑ k, (↑(Spliter.chunks k (Function.update s.spliters i
        { s.spliters i with outgoing, sent := (s.spliters i).sent ++ [c] } k)) :
          Multiset (Chunk cpuNums)) =
        (∑ k, ↑((s.spliters k).chunks k)) + {⟨i, (s.spliters i).sent.length, c⟩} := by
      refine sum_update_add
        (g := fun (k : Fin cpuNums) (sp : Spliter) => (sp.chunks k : Multiset (Chunk cpuNums))) ?_
      unfold Spliter.chunks
      rw [List.mapIdx_concat]
      rfl
    refine hsum.trans ?_
    rw [h.conserved, add_right_comm]
    rfl

/-- A worker takes the first chunk of the channel. -/
theorem Inv.workerRecv {s t : Pipeline cpuNums} (h : s.Inv split yields) {j : Fin (cpuNums - 1)}
    (ht : s.workerRecv j = some t) : t.Inv split yields := by
  obtain ⟨c, queue, hrunning, hnone, hq, rfl⟩ := workerRecv_cases ht
  have hok := h.workers j
  refine h.setWorker (x := {c}) ⟨hok.data, fun he => absurd he hrunning⟩ ?_ ?_ (fun he => he)
    fun he => absurd he hrunning
  · rw [hq, ← Multiset.cons_coe, ← Multiset.singleton_add, add_comm]
  · unfold Worker.load
    rw [hnone]
    simp [add_comm]

/-- A worker counts what the decode of its chunk has yielded. -/
theorem Inv.workerDecode {s t : Pipeline cpuNums} (h : s.Inv split yields)
    {j : Fin (cpuNums - 1)} (ht : s.workerDecode yields j = some t) : t.Inv split yields := by
  obtain ⟨c, hc, rfl⟩ := workerDecode_cases ht
  have hok := h.workers j
  refine h.setWorker (x := 0) ⟨?_, fun _ => rfl⟩ (add_zero _).symm ?_ (fun he => he) ?_
  · simp only [read_decodeYield, hok.data, List.map_append, List.sum_append, List.map_cons,
      List.map_nil, List.sum_cons, List.sum_nil, add_zero]
  · unfold Worker.load
    rw [hc]
    simp [← Multiset.coe_add, add_comm]
  · intro he
    have := hok.ended he
    rw [hc] at this
    cases this

/-- A worker ends when no splitter is left and the channel is empty. -/
theorem Inv.workerEnd {s t : Pipeline cpuNums} (h : s.Inv split yields) {j : Fin (cpuNums - 1)}
    (ht : s.workerEnd j = some t) : t.Inv split yields := by
  obtain ⟨⟨-, hfree, hq, hall⟩, rfl⟩ := workerEnd_cases ht
  have hok := h.workers j
  exact h.setWorker (x := 0) ⟨hok.data, fun _ => hfree⟩ (add_zero _).symm (add_zero _).symm
    (fun _ => rfl) fun _ => ⟨hall, hq⟩

end Pipeline

/-- INTERNAL: **every run keeps the account.**
SRC: online_proc.rs:38-97, 115-173, 207-241 -/
theorem pipelineMachine_inv {s : Pipeline cpuNums}
    (hs : (pipelineMachine cpuNums split yields).Reachable s) : s.Inv split yields := by
  refine Machine.invariant _ (P := fun s => s.Inv split yields) ?_ ?_ hs
  · refine ⟨fun _ => ⟨⟨[], rfl, rfl⟩, fun he => Bool.noConfusion he⟩,
      fun _ => ⟨?_, fun _ => rfl⟩, ?_,
      fun _ he => Bool.noConfusion he, fun _ => rfl⟩
    · simp [pipelineMachine]
    · simp [pipelineMachine, Spliter.chunks, Worker.load]
  · intro s a t h ht
    cases a with
    | processor i d => exact h.processor ht
    | stop => exact h.stop ht
    | dropTx => exact h.dropTx ht
    | joinSpliter => exact h.joinSpliter ht
    | joinWorker => exact h.joinWorker ht
    | spliterRecv i => exact h.spliterRecv ht
    | spliterSend i => exact h.spliterSend ht
    | spliterEnd i => exact h.spliterEnd ht
    | workerRecv j => exact h.workerRecv ht
    | workerDecode j => exact h.workerDecode ht
    | workerEnd j => exact h.workerEnd ht

/-! ## Behind `wait_for_complete` -/

/-- A chunk was sent once, at its number, or not at all. -/
theorem Spliter.count_chunks (i : Fin cpuNums) (sp : Spliter) (c : Chunk cpuNums) :
    (sp.chunks i).count c = if c.cpu = i ∧ sp.sent[c.seq]? = some c.data then 1 else 0 := by
  have hnodup : (sp.chunks i).Nodup := by
    rw [List.nodup_iff_injective_getElem]
    intro a b hab
    unfold Spliter.chunks at hab
    simp only [List.getElem_mapIdx, Chunk.mk.injEq, true_and] at hab
    exact Fin.ext hab.1
  have hmem : c ∈ sp.chunks i ↔ c.cpu = i ∧ sp.sent[c.seq]? = some c.data := by
    unfold Spliter.chunks
    rw [List.mem_mapIdx]
    constructor
    · rintro ⟨k, hk, rfl⟩
      exact ⟨rfl, List.getElem?_eq_getElem hk⟩
    · rintro ⟨rfl, hget⟩
      obtain ⟨hk, hdata⟩ := List.getElem?_eq_some_iff.mp hget
      exact ⟨c.seq, hk, by rw [hdata]⟩
  rw [hnodup.count]
  simp only [hmem]

namespace Pipeline

/-- Behind `wait_for_complete` every chunk was decoded by a worker. -/
theorem Inv.completed {s : Pipeline cpuNums} (h : s.Inv split yields) (h2 : 2 ≤ cpuNums)
    (hdone : s.main = .completed) :
    (s.queue = [] ∧ ∀ j, (s.workers j).current = none) ∧
      ∑ i, ((s.spliters i).chunks i : Multiset (Chunk cpuNums)) =
        ∑ j, ((s.workers j).decoded : Multiset (Chunk cpuNums)) := by
  have hmain := h.main
  rw [hdone] at hmain
  have hidle : ∀ j, (s.workers j).current = none := fun j => (h.workers j).ended (hmain.2 j)
  -- there is a worker, and it ended when the channel was empty
  have hq : s.queue = [] := (h.drained ⟨0, by omega⟩ (hmain.2 _)).2
  refine ⟨⟨hq, hidle⟩, ?_⟩
  rw [h.conserved, hq, Multiset.coe_nil, zero_add]
  refine Finset.sum_congr rfl fun j _ => ?_
  unfold Worker.load
  rw [hidle j]
  exact zero_add _

/-- A splitter that has ended has sent the chunks of all its buffers. -/
theorem Inv.sent_eq {s : Pipeline cpuNums} (h : s.Inv split yields) {i : Fin cpuNums}
    (he : (s.spliters i).ended = true) :
    createSpliterThread split (s.spliters i).fed = some (s.spliters i).sent := by
  obtain ⟨taken, hfed, hrun⟩ := (h.spliters i).run
  obtain ⟨-, hrx, hout⟩ := (h.spliters i).ended he
  rw [hrx, List.append_nil] at hfed
  rw [hout, List.append_nil] at hrun
  rw [createSpliterThread, hfed, hrun, Option.map_some]

end Pipeline

/-- The histogram of several chunks, as a homomorphism. -/
def chunkHist (yields : Bytes → List Usize) : Multiset (Chunk cpuNums) →+ Tally :=
  Multiset.sumAddMonoidHom.comp (Multiset.mapAddMonoidHom fun c => hist (yields c.data))

/-- The counts of a list of chunks are those of its members. -/
theorem chunkHist_coe (l : List (Chunk cpuNums)) :
    chunkHist yields (l : Multiset (Chunk cpuNums)) =
      (l.map fun c => hist (yields c.data)).sum := by
  simp [chunkHist]

/-- The counts of the chunks of a splitter are those of what it has sent. -/
theorem chunkHist_chunks (i : Fin cpuNums) (sp : Spliter) :
    chunkHist yields (sp.chunks i : Multiset (Chunk cpuNums)) =
      (sp.sent.map fun d => hist (yields d)).sum := by
  rw [chunkHist_coe]
  congr 1
  unfold Spliter.chunks
  apply List.ext_getElem?
  intro k
  simp [Function.comp_def]

/-- INTERNAL: the merged map is the sum over the splitters of what they have sent, in whatever
order the maps are visited.
SRC: online_proc.rs:272-292 -/
theorem Pipeline.Inv.read_collectAllData {s : Pipeline cpuNums} (h : s.Inv split yields)
    (h2 : 2 ≤ cpuNums) (hdone : s.main = .completed) {orders : List (List (Σ _ : Usize, InsPage))}
    (ho : List.Forall₂ Order s.pds orders) :
    (collectAllData orders).read =
      ∑ i, ((s.spliters i).sent.map fun d => hist (yields d)).sum := by
  have hall : ∑ i, ((s.spliters i).sent.map fun d => hist (yields d)).sum =
      ∑ j, ((s.workers j).decoded.map fun c => hist (yields c.data)).sum := by
    have := congrArg (chunkHist yields) (h.completed h2 hdone).2
    rw [map_sum, map_sum] at this
    simp only [chunkHist_chunks] at this
    simpa only [chunkHist_coe] using this
  rw [collectAllData, read_foldl_merge (f := id) ho, PageMap.read_empty, zero_add, hall]
  unfold Pipeline.pds
  simp only [id, List.map_append, List.map_map, List.sum_append, List.map_cons, List.map_nil,
    List.sum_cons, List.sum_nil, PageMap.read_empty, add_zero, Fin.sum_univ_def]
  congr 1
  refine List.map_congr_left fun j _ => ?_
  exact (h.workers j).data

/-- MAIN: **the local pipeline decodes every chunk exactly once, whatever the schedule.**  In
every run that has come to the end of `wait_for_complete`, with at least two CPUs: nothing is on
the channel and no worker holds a chunk; every splitter has sent what its loop makes of the buffers
it was fed; every chunk that was sent has been decoded by one worker, once, and nothing else has;
the map that `collect_all_data` merges is the sum of the histograms of all chunks sent, and it is
the same in every run in which the splitters were fed the same buffers.
SRC: online_proc.rs:38-97, 115-173, 207-241, 272-292 -/
theorem pipeline_exactly_once (h2 : 2 ≤ cpuNums) {s : Pipeline cpuNums}
    (hs : (pipelineMachine cpuNums split yields).Reachable s) (hdone : s.main = .completed) :
    (s.queue = [] ∧ ∀ j, (s.workers j).current = none) ∧
    (∀ i, createSpliterThread split (s.spliters i).fed = some (s.spliters i).sent) ∧
    (∀ c, (s.spliters c.cpu).sent[c.seq]? = some c.data →
      ∃ j, (s.workers j).decoded.count c = 1 ∧ ∀ k, k ≠ j → c ∉ (s.workers k).decoded) ∧
    (∀ j, ∀ c ∈ (s.workers j).decoded, (s.spliters c.cpu).sent[c.seq]? = some c.data) ∧
    (∀ orders, List.Forall₂ Order s.pds orders → (collectAllData orders).read =
      ∑ i, ((s.spliters i).sent.map fun d => hist (yields d)).sum) ∧
    ∀ t : Pipeline cpuNums, (pipelineMachine cpuNums split yields).Reachable t →
      t.main = .completed → (∀ i, (t.spliters i).fed = (s.spliters i).fed) →
      ∀ orders orders', List.Forall₂ Order s.pds orders → List.Forall₂ Order t.pds orders' →
        collectAllData orders = collectAllData orders' := by
  have h := pipelineMachine_inv hs
  obtain ⟨hidle, haccount⟩ := h.completed h2 hdone
  have hended : ∀ i, (s.spliters i).ended = true := by
    have hmain := h.main
    rw [hdone] at hmain
    exact hmain.1
  have hcount : ∀ c, ∑ j, (s.workers j).decoded.count c =
      if (s.spliters c.cpu).sent[c.seq]? = some c.data then 1 else 0 := by
    intro c
    have := congrArg (Multiset.count c) haccount
    simp only [Multiset.count_sum', Multiset.coe_count, Spliter.count_chunks] at this
    rw [← this, Finset.sum_eq_single c.cpu]
    · simp
    · intro i _ hi
      rw [if_neg fun e => hi e.1.symm]
    · intro hne
      exact absurd (Finset.mem_univ _) hne
  refine ⟨hidle, fun i => h.sent_eq (hended i), ?_, ?_, fun orders ho =>
    h.read_collectAllData h2 hdone ho, ?_⟩
  · intro c hc
    have hone := hcount c
    rw [if_pos hc] at hone
    obtain ⟨j, hj, hothers⟩ := exists_one_of_sum_eq_one hone
    exact ⟨j, hj, fun k hk => List.count_eq_zero.mp (hothers k hk)⟩
  · intro j c hc
    by_contra hne
    have hzero := hcount c
    rw [if_neg hne, Finset.sum_eq_zero_iff] at hzero
    exact (List.count_pos_iff.mpr hc).ne' (hzero j (Finset.mem_univ j))
  · intro t ht htdone hfed orders orders' ho ho'
    have h' := pipelineMachine_inv ht
    have hended' : ∀ i, (t.spliters i).ended = true := by
      have hmain := h'.main
      rw [htdone] at hmain
      exact hmain.1
    apply PageMap.read_injective
    rw [h.read_collectAllData h2 hdone ho, h'.read_collectAllData h2 htdone ho']
    refine Finset.sum_congr rfl fun i _ => ?_
    have hsent := h.sent_eq (hended i)
    rw [← hfed i, h'.sent_eq (hended' i)] at hsent
    rw [Option.some.inj hsent]

/-- A run on two CPUs: the stream of each of them is one piece, a PSB+ and a TNT packet, and what
follows its second sync point. -/
def twoCpuRun : List (PipelineOp 2) :=
  [.processor 0 (psbPlus ++ [0x06]), .processor 1 (psbPlus ++ [0x04] ++ psbPlus ++ [0x06]),
    .spliterRecv 1, .spliterSend 1, .processor 0 (psbPlus ++ [0x06]), .spliterRecv 0,
    .workerRecv 0, .stop, .dropTx, .spliterRecv 0, .spliterSend 0, .spliterEnd 0,
    .workerDecode 0, .joinSpliter, .dropTx, .spliterEnd 1, .joinSpliter, .workerRecv 0,
    .joinSpliter, .workerDecode 0, .workerEnd 0, .joinWorker, .joinWorker]

/-- Two CPUs: both chunks are decoded by the only worker. -/
theorem pipeline_exactly_once_two :
    ∃ s, (pipelineMachine 2 psbSplit fun _ => [0x401000]).exec
        (pipelineMachine 2 psbSplit fun _ => [0x401000]).init twoCpuRun = some s ∧
      s.main = .completed ∧ s.queue = [] ∧ ∀ j, (s.workers j).current = none := by
  have hrun : ∃ s, (pipelineMachine 2 psbSplit fun _ => [0x401000]).exec
      (pipelineMachine 2 psbSplit fun _ => [0x401000]).init twoCpuRun = some s ∧
      s.main = .completed := ⟨_, rfl, rfl⟩
  obtain ⟨s, hs, hdone⟩ := hrun
  exact ⟨s, hs, hdone, (pipeline_exactly_once (by decide) ⟨twoCpuRun, hs⟩ hdone).1⟩

end PtkGenerator

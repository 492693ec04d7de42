import Mathlib.Tactic.Abel
import PtkGenerator.Analysis.ConnChunks
import PtkGenerator.Analysis.PoolConservation
import PtkGenerator.Library.Families
import PtkGenerator.Model.Network

/-!
# Where the chunks and the counts are

Every chunk that `decode` was called with is in one place: in the hand of `decode`, in a queue, in
the hand of a send task, on a wire, in the queue of a client, in the hand of a worker, decoded, or
lost.  A chunk that was decoded is an answer, which is on a wire, merged, or could not be sent.
Each step moves what is in one place to the next one, so the account holds over every interleaving.
-/

set_option autoImplicit false

namespace PtkGenerator

open Families SumMap

variable {n : ℕ}

/-! ## The link of a slot -/

namespace Link

/-- The chunks that an agent has sent, or is about to, and its client has not decoded. -/
def chunks (l : Link n) : Multiset Bytes :=
  ↑l.sending.toList + l.conn.chunks + ∑ w, ↑(l.holding w).toList

/-- The counts of the answers on the wire. -/
def answersNum (l : Link n) (page : Usize) (i : Fin 4096) : ℕ :=
  (l.conn.answers.map fun data => data.read.num page i).sum

/-- A worker that is at `proc_rx.recv()` has no chunk. -/
def Free (l : Link n) : Prop := ∀ w, l.conn.workers w = .idle → l.holding w = none

/-- What a step of the client does to the account. -/
structure Moves (l l' : Link n) (out : ClientOut) : Prop where
  free : l'.Free
  sending : l'.sending = l.sending
  chunks : l'.chunks + ↑(out.decoded.map Prod.fst) + ↑out.lost = l.chunks
  answers : ∀ page i,
    l'.answersNum page i + (out.unsent.map fun ips => (hist ips).num page i).sum =
      l.answersNum page i + (out.decoded.map fun d => (hist d.2).num page i).sum

/-- A step that moves neither a chunk nor an answer. -/
theorem moves_of_keeps {l : Link n} (h : l.Free) {conn : Conn n} (hk : l.conn.Keeps conn) :
    l.Moves { l with conn } {} where
  free w hw := h w (hk.idle w hw)
  sending := rfl
  chunks := by
    simp only [Link.chunks, hk.chunks]
    exact (add_zero _).trans (add_zero _)
  answers page i := by
    simp only [answersNum, hk.answers]
    rfl

/-- The chunks in the hands of the workers, when one of them takes or loses one. -/
theorem sum_holding (l : Link n) (w : Fin n) (c : Option Bytes) :
    (∑ v, (↑(Function.update l.holding w c v).toList : Multiset Bytes)) + ↑(l.holding w).toList =
      (∑ v, ↑(l.holding v).toList) + ↑c.toList :=
  sum_update_swap (fun _ (c : Option Bytes) => (↑c.toList : Multiset Bytes)) l.holding w c

/-- A worker that was at `proc_rx.recv()` and is no longer there may have a chunk. -/
theorem free_of_busy {l : Link n} (h : l.Free) {w : Fin n} {q : WorkerPhase} {conn : Conn n}
    {holding : Fin n → Option Bytes} (hq : q ≠ .idle)
    (hworkers : conn.workers = Function.update l.conn.workers w q)
    (hother : ∀ v, v ≠ w → holding v = l.holding v) : Free { l with conn, holding } := by
  intro v hv
  have hv' : Function.update l.conn.workers w q v = .idle := hworkers ▸ hv
  have hvw : v ≠ w := by
    rintro rfl
    rw [Function.update_self] at hv'
    exact hq hv'
  exact (hother v hvw).trans (h v (Conn.idle_update hv' hq))

/-- A worker takes a message, and the chunk that is in it. -/
theorem moves_takeCtrl {l : Link n} (h : l.Free) {w : Fin n} {conn : Conn n}
    (hc : l.conn.takeCtrl w = some conn) :
    l.Moves { l with conn, holding := Function.update l.holding w l.taken } {} := by
  obtain ⟨hidle, hanswers, hwire, hcases⟩ := Conn.chunks_takeCtrl hc
  have hholding := l.sum_holding w l.taken
  rw [h w hidle, Option.toList_none, Multiset.coe_nil, add_zero] at hholding
  have hfree : ∀ {q : WorkerPhase}, q ≠ .idle → conn.workers = Function.update l.conn.workers w q →
      Free { l with conn, holding := Function.update l.holding w l.taken } := fun hq hworkers =>
    free_of_busy h hq hworkers fun v hv => Function.update_of_ne hv _ _
  have hchunks : conn.chunks + ↑l.taken.toList = l.conn.chunks →
      Link.chunks { l with conn, holding := Function.update l.holding w l.taken } + 0 + 0 =
        l.chunks := by
    intro hconn
    simp only [Link.chunks]
    rw [hholding, ← hconn, add_zero, add_zero, add_comm (∑ v, _) _, ← add_assoc, ← add_assoc]
  have hanswers' : ∀ page i, answersNum
      { l with conn, holding := Function.update l.holding w l.taken } page i + 0 =
        l.answersNum page i + 0 := by
    intro page i
    simp only [answersNum, hanswers]
  rcases hcases with ⟨ctrl, hctrl, hctrl', hworkers⟩ | ⟨data, ctrl, hctrl, hctrl', hworkers⟩ |
    ⟨hctrl, hctrl', hworkers⟩
  · have htaken : l.taken = none := by rw [taken, hctrl]
    refine ⟨fun v hv => ?_, rfl, hchunks ?_, hanswers'⟩
    · have hv' : l.conn.workers v = .idle := hworkers ▸ hv
      show Function.update l.holding w l.taken v = none
      rw [htaken]
      by_cases hvw : v = w
      · rw [hvw, Function.update_self]
      · rw [Function.update_of_ne hvw, h v hv']
    · rw [htaken, Conn.chunks, Conn.chunks, hwire, hctrl', hctrl]
      exact add_zero _
  · have htaken : l.taken = some data := by rw [taken, hctrl]
    refine ⟨hfree (WorkerPhase.ofChunk_ne_idle data) hworkers, rfl, hchunks ?_, hanswers'⟩
    rw [htaken, Conn.chunks, Conn.chunks, hwire, hctrl', hctrl,
      List.filterMap_cons_some (show ProcCtrl.chunk (.proc data) = some data from rfl),
      ← Multiset.cons_coe, ← Multiset.singleton_add, add_assoc]
    exact congrArg _ (add_comm _ _)
  · have htaken : l.taken = none := by rw [taken, hctrl]
    refine ⟨hfree (by simp) hworkers, rfl, hchunks ?_, hanswers'⟩
    rw [htaken, Conn.chunks, Conn.chunks, hwire, hctrl', hctrl]
    exact add_zero _

/-- A worker takes an empty chunk, which is lost with it. -/
theorem moves_takeEmpty {l : Link n} (h : l.Free) {w : Fin n} {conn : Conn n}
    (hc : l.conn.takeCtrl w = some conn) (htaken : l.taken = some []) :
    l.Moves { l with conn } { lost := [[]] } := by
  obtain ⟨hidle, hanswers, hwire, hcases⟩ := Conn.chunks_takeCtrl hc
  rcases hcases with ⟨ctrl, hctrl, -⟩ | ⟨data, ctrl, hctrl, hctrl', hworkers⟩ | ⟨hctrl, -⟩
  · rw [taken, hctrl] at htaken
    cases htaken
  · obtain rfl : data = [] := by
      rw [taken, hctrl] at htaken
      exact Option.some.inj htaken
    refine ⟨free_of_busy h (WorkerPhase.ofChunk_ne_idle []) hworkers fun _ _ => rfl, rfl, ?_,
      fun page i => ?_⟩
    · have hconn : conn.chunks + {[]} = l.conn.chunks := by
        rw [Conn.chunks, Conn.chunks, hwire, hctrl', hctrl,
          List.filterMap_cons_some (show ProcCtrl.chunk (.proc []) = some [] from rfl),
          ← Multiset.cons_coe, ← Multiset.singleton_add, add_assoc]
        exact congrArg _ (add_comm _ _)
      simp only [Link.chunks, ← hconn, List.map_nil, Multiset.coe_nil, Multiset.coe_singleton]
      abel
    · simp only [answersNum, hanswers]
      rfl
  · rw [taken, hctrl] at htaken
    cases htaken

/-- A worker lets go of its chunk. -/
theorem free_of_idle {l : Link n} (h : l.Free) {w : Fin n} {conn : Conn n}
    (hworkers : conn.workers = Function.update l.conn.workers w .idle) :
    Free { l with conn, holding := Function.update l.holding w none } := by
  intro v hv
  show Function.update l.holding w none v = none
  by_cases hvw : v = w
  · rw [hvw, Function.update_self]
  · have hv' : Function.update l.conn.workers w .idle v = .idle := hworkers ▸ hv
    rw [Function.update_of_ne hvw] at hv' ⊢
    exact h v hv'

/-- The chunk that a worker lets go of is decoded. -/
theorem chunks_of_idle {l : Link n} {w : Fin n} {chunk : Bytes} {conn : Conn n}
    (hw : l.holding w = some chunk) (hchunks : conn.chunks = l.conn.chunks) :
    Link.chunks { l with conn, holding := Function.update l.holding w none } + {chunk} =
      l.chunks := by
  have hholding := l.sum_holding w none
  rw [hw, Option.toList_none, Multiset.coe_nil, add_zero] at hholding
  simp only [Link.chunks, hchunks]
  rw [← hholding, ← add_assoc]
  rfl

/-- A chunk is answered. -/
theorem moves_sendDataRsp {l : Link n} (h : l.Free) {w : Fin n} {chunk : Bytes}
    {ips : List Usize} {order : List (Σ _ : Usize, InsPage)} {conn : Conn n}
    (hw : l.holding w = some chunk) (ho : Order (asyncDecodeYield ∅ ips) order)
    (hc : l.conn.sendDataRsp w (sparsify order) = some conn) :
    l.Moves { l with conn, holding := Function.update l.holding w none }
      { decoded := [(chunk, ips)] } := by
  obtain ⟨hchunks, hanswers, hworkers⟩ := Conn.chunks_sendDataRsp hc
  have hread : (sparsify order).read = hist ips := ProcData.read ⟨order, ho, rfl⟩
  refine ⟨free_of_idle h hworkers, rfl, ?_, fun page i => ?_⟩
  · exact (add_zero _).trans (chunks_of_idle hw hchunks)
  · simp only [answersNum, hanswers, List.map_append, List.sum_append, List.map_cons,
      List.map_nil, hread]
    rfl

/-- A chunk is decoded, and its answer is not sent. -/
theorem moves_dropDataRsp {l : Link n} (h : l.Free) {w : Fin n} {chunk : Bytes}
    (ips : List Usize) {conn : Conn n} (hw : l.holding w = some chunk)
    (hc : l.conn.dropDataRsp w = some conn) :
    l.Moves { l with conn, holding := Function.update l.holding w none }
      { decoded := [(chunk, ips)], unsent := [ips] } := by
  obtain ⟨hchunks, hanswers, hworkers⟩ := Conn.chunks_dropDataRsp hc
  refine ⟨free_of_idle h hworkers, rfl, ?_, fun page i => ?_⟩
  · exact (add_zero _).trans (chunks_of_idle hw hchunks)
  · simp only [answersNum, hanswers]
    rfl

/-- INTERNAL: **a step of a client** moves a chunk on, loses it, or turns it into an answer.
SRC: client_proc.rs:31-44, 56-88, 92-175 -/
theorem client_moves {l l' : Link n} (h : l.Free) {op : ClientOp n} {out : ClientOut}
    (hop : l.client op = some (l', out)) : l.Moves l' out := by
  have hstep : ∀ {conn : Option (Conn n)}, (∀ c, conn = some c → l.conn.Keeps c) →
      conn.map (fun conn => ({ l with conn }, {})) = some (l', out) → l.Moves l' out := by
    intro conn hk hconn
    obtain ⟨c, hc, heq⟩ := Option.map_eq_some_iff.mp hconn
    obtain ⟨rfl, rfl⟩ := Prod.mk.inj heq
    exact moves_of_keeps h (hk c hc)
  cases op with
  | takeCtrl w =>
    obtain ⟨conn, hc, heq⟩ := Option.map_eq_some_iff.mp hop
    split at heq
    · next htaken =>
      obtain ⟨rfl, rfl⟩ := Prod.mk.inj heq
      exact moves_takeEmpty h hc htaken
    · obtain ⟨rfl, rfl⟩ := Prod.mk.inj heq
      exact moves_takeCtrl h hc
  | readMem w addr len => exact hstep (fun _ => Conn.keeps_readMem) hop
  | recv w => exact hstep (fun _ => Conn.keeps_recv) hop
  | retReadMem w => exact hstep (fun _ => Conn.keeps_retReadMem) hop
  | sendDataRsp w ips order =>
    simp only [client] at hop
    split at hop
    · next chunk hw =>
      obtain ⟨ho, hop⟩ := Option.ite_none_right_eq_some.mp hop
      obtain ⟨conn, hc, heq⟩ := Option.map_eq_some_iff.mp hop
      obtain ⟨rfl, rfl⟩ := Prod.mk.inj heq
      exact moves_sendDataRsp h hw ho hc
    · cases hop
  | dropDataRsp w ips =>
    simp only [client] at hop
    split at hop
    · next chunk hw =>
      obtain ⟨conn, hc, heq⟩ := Option.map_eq_some_iff.mp hop
      obtain ⟨rfl, rfl⟩ := Prod.mk.inj heq
      exact moves_dropDataRsp h ips hw hc
    · cases hop
  | register => exact hstep (fun _ => Conn.keeps_register) hop
  | sendMemReq => exact hstep (fun _ => Conn.keeps_sendMemReq) hop
  | recvMsg => exact hstep (fun _ => Conn.keeps_recvMsg) hop

end Link

end PtkGenerator

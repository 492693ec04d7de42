import Mathlib.Tactic.Abel
import PtkGenerator.Analysis.NetworkAccount

/-!
# No chunk and no count gets lost between the server and its clients

The account of `NetworkAccount` for the whole network: its steps each change one slot, besides the
record of the step, so most of them are one case (`Inv.slot`).  Together with the account of the
pool, what the agents hold and what was handed out is what the clients have decoded, up to the
answers on the wires and those that could not be sent.
-/

set_option autoImplicit false

namespace PtkGenerator

open Families SumMap

variable {n : ℕ}

/-- The chunks in the queues of the agents. -/
def PoolTasks.queued (s : PoolTasks) : Multiset Bytes :=
  (s.sides.map fun q => (↑q.rxProcData : Multiset Bytes)).sum

/-- Two sums of which one member each has changed, and what left these members. -/
theorem account_slot {M : Type} [AddCancelCommMonoid M] {Q Q' L L' a a' c c' d x : M}
    (H D X : M) (hQ : Q' + a = Q + a') (hL : L' + c = L + c') (h : a' + c' + d + x = a + c) :
    H + (Q + L) + D + X = H + (Q' + L') + (D + d) + (X + x) := by
  apply add_right_cancel (b := a + c)
  calc H + (Q + L) + D + X + (a + c)
      = H + (Q + a') + (L + c') + D + X + (d + x) := by
        rw [← h]
        abel
    _ = H + (Q' + a) + (L' + c) + D + X + (d + x) := by rw [hQ, hL]
    _ = H + (Q' + L') + (D + d) + (X + x) + (a + c) := by abel

namespace Network

/-- The chunks between `decode` and the end of their decode. -/
def inFlight (s : Network n) : Multiset Bytes := s.tasks.queued + (s.links.map Link.chunks).sum

/-- The counts of the answers on the wires. -/
def answersNum (s : Network n) (page : Usize) (i : Fin 4096) : ℕ :=
  (s.links.map fun l => l.answersNum page i).sum

/-- The counts of what was decoded. -/
def decodedNum (s : Network n) (page : Usize) (i : Fin 4096) : ℕ :=
  (s.decoded.map fun d => (hist d.2).num page i).sum

/-- The counts of the answers that could not be sent. -/
def unsentNum (s : Network n) (page : Usize) (i : Fin 4096) : ℕ :=
  (s.unsent.map fun ips => (hist ips).num page i).sum

/-- The account of the chunks and the one of the counts, and what the tasks have in their hands. -/
structure Inv (s : Network n) : Prop where
  length : s.links.length = s.tasks.sides.length
  hand : ∀ (idx : ℕ) (q : SendSide) (l : Link n), s.tasks.sides[idx]? = some q →
    s.links[idx]? = some l → (l.sending.isSome ↔ q.sendTask = .sending)
  free : ∀ l ∈ s.links, l.Free
  chunks : (↑s.given : Multiset Bytes) =
    ↑s.tasks.decode.hand.toList + s.inFlight + ↑(s.decoded.map Prod.fst) + ↑s.lost
  counts : ∀ page i, s.decodedNum page i =
    s.tasks.pool.mergedNum page i + s.answersNum page i + s.unsentNum page i
  pool : s.tasks.pool.Inv

/-- A link belongs to a slot. -/
theorem Inv.side {s : Network n} (h : s.Inv) {idx : ℕ} {l : Link n} (hl : s.links[idx]? = some l) :
    ∃ q, s.tasks.sides[idx]? = some q := by
  have hlt : idx < s.tasks.sides.length := by
    rw [← h.length]
    exact (List.getElem?_eq_some_iff.mp hl).1
  exact ⟨_, List.getElem?_eq_getElem hlt⟩

/-- A slot has a link. -/
theorem Inv.link {s : Network n} (h : s.Inv) {idx : ℕ} {q : SendSide}
    (hq : s.tasks.sides[idx]? = some q) : ∃ l, s.links[idx]? = some l := by
  have hlt : idx < s.links.length := by
    rw [h.length]
    exact (List.getElem?_eq_some_iff.mp hq).1
  exact ⟨_, List.getElem?_eq_getElem hlt⟩

/-- INTERNAL: **a step at one slot**: what leaves the slot is decoded, merged, not sent or lost. -/
theorem Inv.slot {s t : Network n} (h : s.Inv) {idx : ℕ} {q : SendSide} {l : Link n}
    (q' : SendSide) (l' : Link n) (out : ClientOut)
    (hq : s.tasks.sides[idx]? = some q) (hl : s.links[idx]? = some l)
    (hsides : t.tasks.sides = s.tasks.sides.set idx q') (hlinks : t.links = s.links.set idx l')
    (hdecode : t.tasks.decode = s.tasks.decode) (hgiven : t.given = s.given)
    (hdecoded : t.decoded = s.decoded ++ out.decoded) (hunsent : t.unsent = s.unsent ++ out.unsent)
    (hlost : t.lost = s.lost ++ out.lost)
    (hfree : l'.Free) (hhand : l'.sending.isSome ↔ q'.sendTask = .sending)
    (hchunks : (↑q'.rxProcData : Multiset Bytes) + l'.chunks + ↑(out.decoded.map Prod.fst) +
      ↑out.lost = ↑q.rxProcData + l.chunks)
    (hcounts : ∀ page i, (out.decoded.map fun d => (hist d.2).num page i).sum +
      s.tasks.pool.mergedNum page i + l.answersNum page i =
        t.tasks.pool.mergedNum page i + l'.answersNum page i +
          (out.unsent.map fun ips => (hist ips).num page i).sum)
    (hpool : t.tasks.pool.Inv) : t.Inv := by
  have hqueued := sum_map_set (b := q') hq fun q => (↑q.rxProcData : Multiset Bytes)
  have hsum := sum_map_set (b := l') hl Link.chunks
  refine ⟨?_, ?_, ?_, ?_, ?_, hpool⟩
  · rw [hsides, hlinks, List.length_set, List.length_set]
    exact h.length
  · intro j p m hp hm
    rw [hsides] at hp
    rw [hlinks] at hm
    by_cases hj : idx = j
    · subst hj
      rw [List.getElem?_set_self (List.getElem?_eq_some_iff.mp hq).1] at hp
      rw [List.getElem?_set_self (List.getElem?_eq_some_iff.mp hl).1] at hm
      obtain rfl := Option.some.inj hp
      obtain rfl := Option.some.inj hm
      exact hhand
    · rw [List.getElem?_set_ne hj] at hp hm
      exact h.hand j p m hp hm
  · intro m hm
    rw [hlinks] at hm
    rcases List.mem_or_eq_of_mem_set hm with hold | rfl
    · exact h.free m hold
    · exact hfree
  · rw [hgiven, hdecode, hdecoded, hlost, h.chunks]
    simp only [inFlight, PoolTasks.queued, hsides, hlinks, List.map_append, ← Multiset.coe_add]
    exact account_slot _ _ _ hqueued hsum hchunks
  · intro page i
    have hanswers := sum_map_set (b := l') hl fun l => l.answersNum page i
    have hold := h.counts page i
    have hslot := hcounts page i
    simp only [decodedNum, answersNum, unsentNum, hdecoded, hunsent, hlinks, List.map_append,
      List.sum_append] at hold ⊢
    omega

/-- A step of a client, or one of a receive task: the send side of the slot is as it was. -/
theorem Inv.slotLink {s t : Network n} (h : s.Inv) {idx : ℕ} {l : Link n} (l' : Link n)
    (out : ClientOut) (hl : s.links[idx]? = some l)
    (hsides : t.tasks.sides = s.tasks.sides) (hlinks : t.links = s.links.set idx l')
    (hdecode : t.tasks.decode = s.tasks.decode) (hgiven : t.given = s.given)
    (hdecoded : t.decoded = s.decoded ++ out.decoded) (hunsent : t.unsent = s.unsent ++ out.unsent)
    (hlost : t.lost = s.lost ++ out.lost)
    (hfree : l'.Free) (hsending : l'.sending = l.sending)
    (hchunks : l'.chunks + ↑(out.decoded.map Prod.fst) + ↑out.lost = l.chunks)
    (hcounts : ∀ page i, (out.decoded.map fun d => (hist d.2).num page i).sum +
      s.tasks.pool.mergedNum page i + l.answersNum page i =
        t.tasks.pool.mergedNum page i + l'.answersNum page i +
          (out.unsent.map fun ips => (hist ips).num page i).sum)
    (hpool : t.tasks.pool.Inv) : t.Inv := by
  obtain ⟨q, hq⟩ := h.side hl
  refine h.slot q l' out hq hl ?_ hlinks hdecode hgiven hdecoded hunsent hlost hfree ?_ ?_ hcounts
    hpool
  · rw [set_of_getElem? hq, hsides]
  · rw [hsending]
    exact h.hand idx q l hq hl
  · rw [← hchunks, add_assoc, add_assoc, add_assoc]

/-! ## The steps -/

/-- A step of a client moves its chunks and answers. -/
theorem Inv.client {s t : Network n} (h : s.Inv) {idx : ℕ} {op : ClientOp n}
    (ht : s.client idx op = some t) : t.Inv := by
  obtain ⟨l, l', out, hl, hop, rfl⟩ := client_cases ht
  have hmoves := Link.client_moves (h.free l (List.mem_of_getElem? hl)) hop
  refine h.slotLink l' out hl rfl rfl rfl rfl rfl rfl rfl hmoves.free hmoves.sending hmoves.chunks
    ?_ h.pool
  intro page i
  have hanswers := hmoves.answers page i
  show _ = s.tasks.pool.mergedNum page i + l'.answersNum page i + _
  omega

/-- A receive task takes a message that is no answer. -/
theorem Inv.reply {s : Network n} (h : s.Inv) {idx : ℕ} {l : Link n} {conn : Conn n}
    {data : Bytes} {pool : Pool} (hl : s.links[idx]? = some l)
    (hconn : l.conn.serverReply data = some conn)
    (hcounts : ∀ p, l.conn.wireOut.head? = some p → ∀ page i, s.tasks.pool.mergedNum page i +
      (p.answer.toList.map fun data => data.read.num page i).sum = pool.mergedNum page i)
    (hpool : pool.Inv) :
    Inv { s.setLink idx { l with conn } with tasks := { s.tasks with pool } } := by
  obtain ⟨p, hp, hchunks, hworkers, hanswers⟩ := Conn.chunks_serverReply hconn
  refine h.slotLink { l with conn } {} hl rfl rfl rfl rfl (List.append_nil _).symm
    (List.append_nil _).symm (List.append_nil _).symm ?_ rfl ?_ ?_ hpool
  · intro w hw
    exact h.free l (List.mem_of_getElem? hl) w (hworkers ▸ hw)
  · simp only [Link.chunks, hchunks]
    exact (add_zero _).trans (add_zero _)
  · intro page i
    have hp' := hcounts p hp page i
    simp only [Link.answersNum, hanswers, List.map_append, List.sum_append, List.map_nil,
      List.sum_nil]
    omega

/-- A registration moves no chunk. -/
theorem Inv.regReq {s t : Network n} (h : s.Inv) {idx : ℕ} (ht : s.regReq idx = some t) :
    t.Inv := by
  obtain ⟨l, id, wireOut, pool, conn, hl, hout, hpool, hconn, rfl⟩ := regReq_cases ht
  refine h.reply hl hconn ?_ (h.pool.regReq hpool)
  intro p hp page i
  rw [hout] at hp
  obtain rfl := Option.some.inj hp
  obtain ⟨a, -, rfl⟩ := Pool.regReq_cases hpool
  rfl

/-- A `DataRsp` moves the counts of one answer to the agent. -/
theorem Inv.dataRsp {s t : Network n} (h : s.Inv) {idx : ℕ} {msg : DataRspMsg}
    (ht : s.dataRsp idx msg = some t) : t.Inv := by
  obtain ⟨l, wireOut, pool, conn, hl, hout, hpool, hconn, rfl⟩ := dataRsp_cases ht
  refine h.reply hl hconn ?_ (h.pool.dataRsp hpool)
  intro p hp page i
  rw [hout] at hp
  obtain rfl := Option.some.inj hp
  obtain ⟨a, rstData, -, -, -, rfl⟩ := Pool.dataRsp_cases hpool
  simp only [Pool.mergedNum, List.map_append, List.sum_append]
  rfl

/-- A `MemReq` moves no chunk. -/
theorem Inv.memReq {s t : Network n} (h : s.Inv) {idx : ℕ} {data : Bytes}
    (ht : s.memReq idx data = some t) : t.Inv := by
  obtain ⟨l, c, wireOut, conn, hl, hout, hconn, rfl⟩ := memReq_cases ht
  refine h.reply hl hconn ?_ h.pool
  intro p hp page i
  rw [hout] at hp
  obtain rfl := Option.some.inj hp
  rfl

/-- A closed connection keeps its chunks. -/
theorem Inv.closeConnection {s : Network n} (h : s.Inv) {idx : ℕ} {tasks : PoolTasks}
    (ht : s.tasks.closeConnection idx = some tasks) : Inv { s with tasks } := by
  obtain ⟨q, hq, rfl⟩ := PoolTasks.closeConnection_cases ht
  obtain ⟨l, hl⟩ := h.link hq
  refine h.slot _ l {} hq hl rfl (set_of_getElem? hl).symm rfl rfl
    (List.append_nil _).symm (List.append_nil _).symm (List.append_nil _).symm
    (h.free l (List.mem_of_getElem? hl)) (h.hand idx q l hq hl) ?_ ?_ h.pool
  · simp
  · intro page i
    simp

/-- A send task takes a chunk from its queue. -/
theorem Inv.takeChunk {s t : Network n} (h : s.Inv) {idx : ℕ} (ht : s.takeChunk idx = some t) :
    t.Inv := by
  obtain ⟨q, l, chunk, rxProcData, hq, hl, htask, hrx, rfl⟩ := takeChunk_cases ht
  have hnone : l.sending = none := by
    have hhand := h.hand idx q l hq hl
    rw [htask] at hhand
    cases hs : l.sending with
    | none => rfl
    | some c =>
      rw [hs] at hhand
      exact absurd (hhand.mp rfl) (by simp)
  refine h.slot _ { l with sending := some chunk } {}
    hq hl rfl rfl rfl rfl (List.append_nil _).symm (List.append_nil _).symm
    (List.append_nil _).symm
    (h.free l (List.mem_of_getElem? hl)) (iff_of_true rfl rfl) ?_ ?_ h.pool
  · have hcons : (↑(chunk :: rxProcData) : Multiset Bytes) = {chunk} + ↑rxProcData := by
      rw [Multiset.singleton_add, Multiset.cons_coe]
    simp only [Link.chunks, hnone, hrx, Option.toList_some, Option.toList_none,
      Multiset.coe_nil, List.map_nil, add_zero, zero_add, Multiset.coe_singleton, hcons]
    abel
  · intro page i
    simp [Link.answersNum]

/-- A send that is done puts its chunk on the wire or loses it. -/
theorem Inv.sendDone {s t : Network n} (h : s.Inv) {idx : ℕ} {ok : Bool}
    (ht : s.sendDone idx ok = some t) : t.Inv := by
  obtain ⟨q, l, chunk, hq, hl, -, hchunk, ⟨rfl, rfl⟩ | ⟨rfl, rfl⟩⟩ := sendDone_cases ht
  · have hsent : (l.conn.serverSend (.proc chunk)).chunks = l.conn.chunks + {chunk} :=
      Conn.chunks_push l.conn (p := .dataReq chunk) rfl rfl
    refine h.slot _ { l with conn := l.conn.serverSend (.proc chunk), sending := none } {}
      hq hl rfl rfl rfl rfl (List.append_nil _).symm (List.append_nil _).symm
      (List.append_nil _).symm (h.free l (List.mem_of_getElem? hl)) (by simp) ?_ ?_ h.pool
    · simp only [Link.chunks, hsent, hchunk, Option.toList_some, Option.toList_none,
        Multiset.coe_nil, List.map_nil, add_zero, zero_add, Multiset.coe_singleton]
      abel
    · intro page i
      simp [Link.answersNum, Conn.serverSend, Conn.answers]
  · refine h.slot _ { l with sending := none } { lost := [chunk] }
      hq hl rfl rfl rfl rfl (List.append_nil _).symm (List.append_nil _).symm rfl
      (h.free l (List.mem_of_getElem? hl)) (by simp) ?_ ?_ h.pool
    · simp only [Link.chunks, hchunk, Option.toList_some, Option.toList_none,
        Multiset.coe_nil, List.map_nil, add_zero, zero_add, Multiset.coe_singleton]
      abel
    · intro page i
      simp [Link.answersNum]

/-- A step that leaves the slots and `decode` alone. -/
theorem Inv.setPool {s : Network n} (h : s.Inv) {pool : Pool} (hpool : pool.Inv)
    (hmerged : pool.merged = s.tasks.pool.merged) :
    Inv { s with tasks := { s.tasks with pool } } := by
  refine ⟨h.length, h.hand, h.free, h.chunks, fun page i => ?_, hpool⟩
  have hcounts := h.counts page i
  rw [Pool.mergedNum, ← hmerged] at hcounts
  exact hcounts

/-- The end of a receive loop moves no chunk. -/
theorem Inv.endRecv {s : Network n} (h : s.Inv) {idx : ℕ} {pool : Pool}
    (ht : s.tasks.pool.endRecv idx = some pool) :
    Inv { s with tasks := { s.tasks with pool } } := by
  refine h.setPool (h.pool.endRecv ht) ?_
  obtain ⟨a, -, rfl⟩ := Pool.endRecv_cases ht
  rfl

/-- `get_result` merges nothing into the agents. -/
theorem merged_getResult {s t : Pool} {op : CallOp} (h : s.getResult op = some t) :
    t.merged = s.merged := by
  rcases Pool.getResult_cases h with ⟨-, rfl⟩ | ⟨c, -, hcases⟩
  · rfl
  · rcases hcases with ⟨hp, rfl⟩ | ⟨order, -, hf⟩ | ⟨-, hd⟩ | ⟨idx, rest, -, hw⟩ | ⟨-, rfl⟩
    · obtain ⟨c', heq, -⟩ := Pool.callHasResult_eq (s := s) hp
      rw [heq]
    · obtain ⟨a, -, -, rfl⟩ := Pool.callFetchResult_cases hf
      rfl
    · obtain ⟨a, -, rfl⟩ := Pool.callIsDisconnected_cases hd
      rfl
    · obtain ⟨a, -, -, rfl⟩ := Pool.callWaitStop_cases hw
      rfl
    · rfl

/-- No client is ever found to be disconnected, so that a step of `get_result` is one of the
pool. -/
theorem Inv.getResult_cases {s : Network n} (h : s.Inv) {op : CallOp} {tasks : PoolTasks}
    (ht : s.tasks.getResult op = some tasks) : s.tasks.decode = .idle ∧
      ∃ pool, s.tasks.pool.getResult op = some pool ∧ tasks = { s.tasks with pool } := by
  obtain ⟨hidle, ⟨-, hwait⟩ | hpool⟩ := PoolTasks.getResult_cases ht
  · unfold PoolTasks.waitStop at hwait
    split at hwait
    · next idx rest disConnected hcall =>
      have hnone := (h.pool.call _ hcall).2 _ rfl
      cases hnone
    · cases hwait
  · exact ⟨hidle, hpool⟩

/-- `get_result` moves counts to its result. -/
theorem Inv.getResult {s : Network n} (h : s.Inv) {op : CallOp} {tasks : PoolTasks}
    (ht : s.tasks.getResult op = some tasks) : Inv { s with tasks } := by
  obtain ⟨-, pool, hpool, rfl⟩ := h.getResult_cases ht
  exact h.setPool (h.pool.getResult hpool) (merged_getResult hpool)

/-- A new link carries no chunk. -/
theorem chunks_new (n : ℕ) : (Link.new n).chunks = 0 := by
  have hworkers : ∑ w : Fin n, (↑((Link.new n).holding w).toList : Multiset Bytes) = 0 :=
    Finset.sum_eq_zero fun _ _ => rfl
  rw [Link.chunks, hworkers]
  rfl

/-- A new client carries no chunk. -/
theorem Inv.accept {s t : Network n} (h : s.Inv) (ht : s.accept = some t) : t.Inv := by
  obtain ⟨tasks, haccept, rfl⟩ := Option.map_eq_some_iff.mp ht
  obtain ⟨-, pool, hpool, rfl⟩ := PoolTasks.accept_cases haccept
  have hinv := h.pool.accept hpool
  have hmerged : pool.merged = s.tasks.pool.merged := by
    obtain ⟨-, -, rfl⟩ := Pool.accept_cases hpool
    rfl
  refine ⟨?_, ?_, ?_, ?_, ?_, ⟨hinv.conserved, hinv.connected, hinv.call⟩⟩
  · simp only [List.length_append, List.length_singleton, h.length]
  · intro idx q l hq hl
    by_cases hidx : idx < s.links.length
    · rw [List.getElem?_append_left (h.length ▸ hidx)] at hq
      rw [List.getElem?_append_left hidx] at hl
      exact h.hand idx q l hq hl
    · rw [List.getElem?_append_right (h.length ▸ not_lt.mp hidx)] at hq
      rw [List.getElem?_append_right (not_lt.mp hidx)] at hl
      obtain rfl := List.mem_singleton.mp (List.mem_of_getElem? hq)
      obtain rfl := List.mem_singleton.mp (List.mem_of_getElem? hl)
      exact iff_of_false (by simp [Link.new]) (by simp)
  · intro l hl
    rcases List.mem_append.mp hl with hold | hnew
    · exact h.free l hold
    · rw [List.mem_singleton.mp hnew]
      exact fun _ _ => rfl
  · rw [h.chunks]
    simp only [inFlight, PoolTasks.queued, List.map_append, List.sum_append, List.map_cons,
      List.map_nil, List.sum_cons, List.sum_nil, chunks_new, Multiset.coe_nil, add_zero]
  · intro page i
    have hcounts := h.counts page i
    rw [Pool.mergedNum, ← hmerged] at hcounts
    simp only [decodedNum, answersNum, List.map_append, List.sum_append] at hcounts ⊢
    exact hcounts

/-- A published chunk makes a queue longer. -/
theorem queues_ne_of_push {sides : List SendSide} {idx : ℕ} {q : SendSide}
    (hq : sides[idx]? = some q) (data : Bytes) :
    (sides.set idx { q with rxProcData := q.rxProcData ++ [data] }).map SendSide.rxProcData ≠
      sides.map SendSide.rxProcData := by
  intro heq
  have hget := congrArg (·[idx]?) heq
  simp only [List.getElem?_map, hq, List.getElem?_set_self (List.getElem?_eq_some_iff.mp hq).1,
    Option.map_some, Option.some.injEq] at hget
  have hlen := congrArg List.length hget
  rw [List.length_append, List.length_singleton] at hlen
  omega

/-- A step of `decode` that leaves the queues alone: it takes a chunk, keeps it, or drops it. -/
theorem Inv.setDecode {s : Network n} (h : s.Inv) {decode : DecodeCall} {given lost : List Bytes}
    (hchunks : (↑given : Multiset Bytes) + ↑s.tasks.decode.hand.toList + ↑s.lost =
      ↑s.given + ↑decode.hand.toList + ↑lost) :
    Inv { s with tasks := { s.tasks with decode }, given, lost } := by
  refine ⟨h.length, h.hand, h.free, ?_, h.counts, h.pool⟩
  have hold := h.chunks
  apply add_right_cancel (b := (↑s.tasks.decode.hand.toList : Multiset Bytes) + ↑s.lost)
  rw [← add_assoc, hchunks, hold]
  simp only [inFlight, PoolTasks.queued]
  abel

/-- `decode` moves its chunk from the hand to a queue. -/
theorem Inv.decode {s t : Network n} (h : s.Inv) {op : DecodeOp} (ht : s.decode op = some t) :
    t.Inv := by
  obtain ⟨tasks, hstep, rfl⟩ := Option.map_eq_some_iff.mp ht
  cases op with
  | begin data =>
    obtain ⟨hidle, -, rfl⟩ := PoolTasks.begin_cases hstep
    refine h.setDecode ?_
    rw [hidle, ← Multiset.coe_add]
    simp only [DecodeCall.hand, Option.toList_none, Option.toList_some, Multiset.coe_nil, add_zero]
  | test =>
    obtain ⟨data, idx, htesting, rfl⟩ := PoolTasks.testStep_cases hstep
    have hkeep : ∀ decode : DecodeCall, decode.hand = some data →
        Inv { s with tasks := { s.tasks with decode } } := by
      intro decode hhand
      refine h.setDecode ?_
      rw [hhand, htesting]
      rfl
    rcases PoolTasks.test_cases s.tasks data idx with ⟨-, heq⟩ | ⟨a, q, -, -, -, heq⟩ | ⟨-, heq⟩
    · rw [heq]
      exact hkeep _ rfl
    · rw [heq]
      exact hkeep _ rfl
    · rw [heq]
      exact hkeep _ rfl
  | publish =>
    obtain ⟨data, idx, hhand, hpublish⟩ : ∃ data idx, s.tasks.decode.hand = some data ∧
        s.tasks.publishTo data idx = some tasks := by
      rcases PoolTasks.publish_cases hstep with ⟨data, idx, hfound, hp⟩ | ⟨data, hexhausted, hp⟩
      · exact ⟨data, idx, by rw [hfound]; rfl, hp⟩
      · exact ⟨data, 0, by rw [hexhausted]; rfl, hp⟩
    have hdrop : ∀ decode : DecodeCall, decode.hand = none →
        Inv { s with
          tasks := { s.tasks with decode }, lost := s.lost ++ s.tasks.decode.hand.toList } := by
      intro decode hnone
      refine h.setDecode ?_
      rw [hnone, ← Multiset.coe_add, Option.toList_none, Multiset.coe_nil, add_zero]
      abel
    rcases PoolTasks.publishTo_cases hpublish with ⟨a, q, -, -, -, rfl⟩ |
      ⟨a, q, -, hq, -, -, rfl⟩ | ⟨-, rfl⟩
    · dsimp only
      rw [if_pos rfl]
      exact hdrop .panicked rfl
    · -- the chunk is in the queue of the slot
      dsimp only
      rw [if_neg (queues_ne_of_push hq data)]
      have hqueued := sum_map_set (b := { q with rxProcData := q.rxProcData ++ [data] }) hq
        fun q => (↑q.rxProcData : Multiset Bytes)
      refine ⟨?_, fun j p l hp hl => ?_, h.free, ?_, h.counts, h.pool⟩
      · rw [List.length_set]
        exact h.length
      · by_cases hj : idx = j
        · subst hj
          rw [List.getElem?_set_self (List.getElem?_eq_some_iff.mp hq).1] at hp
          obtain rfl := Option.some.inj hp
          exact h.hand idx q l hq hl
        · rw [List.getElem?_set_ne hj] at hp
          exact h.hand j p l hp hl
      · have hold := h.chunks
        rw [hhand] at hold
        rw [hold]
        simp only [inFlight, PoolTasks.queued, DecodeCall.hand, Option.toList_some,
          Option.toList_none, Multiset.coe_nil, zero_add, Multiset.coe_singleton]
        apply add_right_cancel (b := (↑q.rxProcData : Multiset Bytes))
        have hq' : ((s.tasks.sides.set idx { q with rxProcData := q.rxProcData ++ [data] }).map
            fun q => (↑q.rxProcData : Multiset Bytes)).sum + ↑q.rxProcData =
              (s.tasks.sides.map fun q => (↑q.rxProcData : Multiset Bytes)).sum + {data} +
                ↑q.rxProcData := by
          rw [hqueued, ← Multiset.coe_add, Multiset.coe_singleton]
          abel
        rw [add_right_cancel hq']
        abel
    · dsimp only
      rw [if_pos rfl]
      exact hdrop .idle rfl

/-- Every step keeps the account. -/
theorem Inv.step {s t : Network n} (h : s.Inv) {op : NetworkOp n}
    (ht : (networkMachine n).step s op = some t) : t.Inv := by
  cases op with
  | accept => exact h.accept ht
  | decode op => exact h.decode ht
  | getResult op =>
    obtain ⟨tasks, htasks, rfl⟩ := Option.map_eq_some_iff.mp ht
    exact h.getResult htasks
  | closeConnection idx =>
    obtain ⟨tasks, htasks, rfl⟩ := Option.map_eq_some_iff.mp ht
    exact h.closeConnection htasks
  | takeChunk idx => exact h.takeChunk ht
  | sendDone idx ok => exact h.sendDone ht
  | endRecv idx =>
    obtain ⟨pool, hpool, rfl⟩ := Option.map_eq_some_iff.mp ht
    exact h.endRecv hpool
  | regReq idx => exact h.regReq ht
  | dataRsp idx msg => exact h.dataRsp ht
  | memReq idx data => exact h.memReq ht
  | client idx op => exact h.client ht

end Network

/-- INTERNAL: **every run keeps the account.**
SRC: client_pool.rs:38-119, client_agent.rs:77-207, client_proc.rs:31-175 -/
theorem networkMachine_inv {s : Network n} (hs : (networkMachine n).Reachable s) : s.Inv := by
  refine Machine.invariant _ (P := Network.Inv) ?_ (fun _ _ _ h ht => h.step ht) hs
  refine ⟨rfl, ?_, ?_, rfl, fun _ _ => rfl,
    poolMachine_inv (show (poolMachine 32).Reachable _ from ⟨[], rfl⟩)⟩
  · intro idx q l hq
    cases hq
  · intro l hl
    cases hl

/-- A worker answers its chunk, when nothing is on the wire. -/
theorem Network.client_sendDataRsp {s : Network n} {idx : ℕ} {w : Fin n} {l : Link n}
    {chunk : Bytes} {ips : List Usize} {order : List (Σ _ : Usize, InsPage)}
    (ho : Order (asyncDecodeYield ∅ ips) order) (hl : s.links[idx]? = some l)
    (hw : l.conn.workers w = .decoding) (hchunk : l.holding w = some chunk)
    (hout : l.conn.wireOut = []) :
    s.client idx (.sendDataRsp w ips order) = some
      { s.setLink idx { l with
          conn := { l.conn.setWorker w .idle with wireOut := [.dataRsp (sparsify order)] }
          holding := Function.update l.holding w none } with
        decoded := s.decoded ++ [(chunk, ips)] } := by
  simp only [Network.client, hl, Option.bind_eq_bind, Option.bind_some, Link.client, hchunk,
    if_pos ho, Conn.sendDataRsp, hw, Option.map_some, hout, List.append_nil, List.nil_append,
    Conn.setWorker, setLink]

/-- The receive task merges the answer. -/
theorem Network.dataRsp_answer {s : Network n} {idx : ℕ} {l : Link n} {a : Agent}
    (msg : DataRspMsg) (hl : s.links[idx]? = some l) (ha : s.tasks.pool.agent idx = some a)
    (hrecv : a.receiving = true) (hout : l.conn.wireOut = [.dataRsp msg.data]) :
    ∃ pool, s.dataRsp idx msg = some { s.setLink idx { l with
      conn := { l.conn with wireOut := [] } } with tasks := { s.tasks with pool } } := by
  obtain ⟨rstData, hdone, -⟩ := dataRsp_visits msg.visits msg.inPage a.rstData
  let pool : Pool := { s.tasks.pool.setAgent idx { a with rstData } with
    merged := s.tasks.pool.merged ++ [msg.data] }
  have hpool : s.tasks.pool.dataRsp idx msg = some pool := by
    simp only [Pool.dataRsp, ha, hrecv, if_true, hdone, pool]
  refine ⟨pool, ?_⟩
  simp only [Network.dataRsp, hl, Option.bind_eq_bind, Option.bind_some, hout, if_true, hpool,
    Conn.serverReply]

/-- INTERNAL: **an answer comes to the map of its agent.**
SRC: client_proc.rs:73-88, client_agent.rs:139-155 -/
theorem Network.exists_answered {s : Network n} {idx : ℕ} {w : Fin n} {l : Link n} {a : Agent}
    {chunk : Bytes} (ips : List Usize) (hl : s.links[idx]? = some l)
    (ha : s.tasks.pool.agent idx = some a) (hrecv : a.receiving = true)
    (hw : l.conn.workers w = .decoding) (hchunk : l.holding w = some chunk)
    (hout : l.conn.wireOut = []) :
    ∃ order msg pool, (networkMachine n).exec s
        [.client idx (.sendDataRsp w ips order), .dataRsp idx msg] = some
      { s.setLink idx { l with
          conn := l.conn.setWorker w .idle
          holding := Function.update l.holding w none } with
        tasks := { s.tasks with pool }
        decoded := s.decoded ++ [(chunk, ips)] } := by
  obtain ⟨order, ho⟩ := order_of_entries (asyncDecodeYield ∅ ips)
  obtain ⟨visit, hv⟩ := exists_visits (sparsify order)
  let msg : DataRspMsg := ⟨sparsify order, ProcData.inPage ⟨order, ho, rfl⟩, visit, hv⟩
  let l₁ : Link n := { l with
    conn := { l.conn.setWorker w .idle with wireOut := [.dataRsp (sparsify order)] }
    holding := Function.update l.holding w none }
  let s₁ : Network n := { s.setLink idx l₁ with decoded := s.decoded ++ [(chunk, ips)] }
  have hanswer : s.client idx (.sendDataRsp w ips order) = some s₁ :=
    client_sendDataRsp ho hl hw hchunk hout
  have hl₁ : s₁.links[idx]? = some l₁ :=
    List.getElem?_set_self (List.getElem?_eq_some_iff.mp hl).1
  obtain ⟨pool, hmerge⟩ := dataRsp_answer msg hl₁ ha hrecv rfl
  refine ⟨order, msg, pool, (Machine.exec_cons_eq_some _).mpr ⟨s₁, hanswer,
    (Machine.exec_cons_eq_some _).mpr ⟨_, hmerge, ?_⟩⟩⟩
  simp only [Machine.exec_nil, s₁, l₁, setLink, List.set_set, Conn.setWorker, hout]

/-- MAIN: **no chunk and no count gets lost between the server and its clients.**  Over every
interleaving of the pool, the tasks of its agents and the tasks of the clients: every chunk that
`decode` was called with is in the hand of `decode`, on its way, decoded or lost, and in one of
these places once.  What was decoded is, as long as no counter overflows, what `get_result` has
returned, what it is collecting, what the agents hold, what the answers on the wires carry and what
could not be sent; so when no chunk and no answer is on its way, none was lost and all answers were
sent, it is the counts of all chunks.
SRC: client_pool.rs:38-119, client_agent.rs:77-207, client_proc.rs:31-175 -/
theorem network_conserves {s : Network n} (hs : (networkMachine n).Reachable s) :
    (↑s.given : Multiset Bytes) =
      ↑s.tasks.decode.hand.toList + s.inFlight + ↑(s.decoded.map Prod.fst) + ↑s.lost ∧
    ∀ page i, s.decodedNum page i < 2 ^ 64 →
      s.tasks.pool.returnedNum page i + s.tasks.pool.callNum page i +
        s.tasks.pool.heldNum page i + s.answersNum page i + s.unsentNum page i =
          s.decodedNum page i := by
  have h := networkMachine_inv hs
  refine ⟨h.chunks, fun page i hlt => ?_⟩
  have hcounts := h.counts page i
  have hpool := h.pool.conserved page i (by omega)
  omega

/-- Two chunks go to a client, whose first worker decodes one of them; the other is on its way. -/
def twoChunksNetworkRun : List (NetworkOp 2) :=
  [.accept, .regReq 0, .decode (.begin psbPlus), .decode .test, .decode .publish, .takeChunk 0,
    .sendDone 0 true, .client 0 .recvMsg, .client 0 .recvMsg, .client 0 (.takeCtrl 0),
    .decode (.begin (psbPlus ++ [0x06])), .decode .test, .decode .publish]

/-- The first chunk yields two executions of one byte, and all are accounted for. -/
theorem network_conserves_twoChunks : ∃ ops s,
    (networkMachine 2).exec (networkMachine 2).init (twoChunksNetworkRun ++ ops) = some s ∧
      s.decoded = [(psbPlus, [0x1000, 0x1000])] ∧ s.inFlight = {psbPlus ++ [0x06]} ∧
      s.tasks.pool.returnedNum 0x1000 0 + s.tasks.pool.callNum 0x1000 0 +
        s.tasks.pool.heldNum 0x1000 0 + s.answersNum 0x1000 0 + s.unsentNum 0x1000 0 = 2 := by
  have hrun : ∃ s l a, (networkMachine 2).exec (networkMachine 2).init twoChunksNetworkRun =
        some s ∧ s.links[0]? = some l ∧ s.tasks.pool.agent 0 = some a ∧ a.receiving = true ∧
      l.conn.workers 0 = .decoding ∧ l.holding 0 = some psbPlus ∧ l.conn.wireOut = [] ∧
      s.given = [psbPlus, psbPlus ++ [0x06]] ∧ s.tasks.decode.hand = none ∧ s.decoded = [] ∧
      s.lost = [] :=
    ⟨_, _, _, rfl, rfl, rfl, rfl, rfl, rfl, rfl, rfl, rfl, rfl, rfl⟩
  obtain ⟨s, l, a, hs, hl, ha, hrecv, hw, hchunk, hout, hgiven, hhand, hdecoded, hlost⟩ := hrun
  obtain ⟨order, msg, pool, hanswer⟩ :=
    Network.exists_answered [0x1000, 0x1000] hl ha hrecv hw hchunk hout
  have hafter : ∃ ops t, (networkMachine 2).exec s ops = some t ∧ t.given = s.given ∧
      t.tasks.decode.hand = none ∧ t.decoded = s.decoded ++ [(psbPlus, [0x1000, 0x1000])] ∧
      t.lost = s.lost := ⟨_, _, hanswer, rfl, hhand, rfl, rfl⟩
  obtain ⟨ops, t, ht, hgiven', hhand', hdecoded', hlost'⟩ := hafter
  rw [hgiven] at hgiven'
  rw [hdecoded] at hdecoded'
  rw [hlost] at hlost'
  have hexec := (Machine.exec_append _).mpr ⟨s, hs, ht⟩
  obtain ⟨hchunks, hcounts⟩ := network_conserves ⟨_, hexec⟩
  refine ⟨ops, t, hexec, hdecoded', ?_, ?_⟩
  · rw [hgiven', hhand', hdecoded', hlost', Option.toList_none, Multiset.coe_nil, zero_add,
      add_zero, add_comm] at hchunks
    exact (add_left_cancel (a := {psbPlus}) hchunks).symm
  · have hnum : t.decodedNum 0x1000 0 = 2 := by
      rw [Network.decodedNum, hdecoded']
      rfl
    rw [hcounts 0x1000 0 (by rw [hnum]; decide), hnum]

end PtkGenerator

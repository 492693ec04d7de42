import PtkGenerator.Analysis.ServerStreams

/-!
# From the rings of the server to the maps of its agents

A chunk goes through the channel, the task of the pool and the network of the clients, and comes
back as counts in the map of an agent.  When all of it has come back, each chunk of the streams was
decoded once, and the agents of the server hold what these decodes have counted.
-/

set_option autoImplicit false

namespace PtkGenerator

open Cuts SumMap

variable {n m L outLen : ℕ} {split : Bytes → List ℕ} {yields : Bytes → List Usize}

/-- The chunks of a CPU that `decode` was called with. -/
def Server.receivedOf (s : Server n m) (b : Fin n) : List Bytes :=
  (s.received.filter fun c => decide (c.cpu = b)).map Chunk.data

/-- Nothing is left between the splitters and the maps of the agents, and nothing was lost. -/
structure Server.Drained (s : Server n m) : Prop where
  spliters : ∀ b, (s.threads.spliters b).ended = true
  queue : s.threads.queue = []
  hand : s.network.tasks.decode.hand = none
  inFlight : s.network.inFlight = 0
  lost : s.network.lost = []
  unsent : s.network.unsent = []
  answers : ∀ page i, s.network.answersNum page i = 0

/-! ## The chunks of a stream -/

/-- The chunks that a splitter has made are those that it has sent. -/
theorem Spliter.data_chunks (i : Fin n) (sp : Spliter) :
    (sp.chunks i).map Chunk.data = sp.sent := by
  unfold Spliter.chunks
  apply List.ext_getElem?
  intro k
  simp [Function.comp_def]

/-- The buffers that come later only add chunks. -/
theorem spliterRun_isPrefix {a a' a'' : Bytes} {ds es chunks all : List Bytes}
    (hrun : spliterRun split a ds = some (chunks, a'))
    (hall : spliterRun split a (ds ++ es) = some (all, a'')) : chunks <+: all := by
  induction ds generalizing a chunks all with
  | nil =>
    rw [spliterRun, Option.some.injEq, Prod.mk.injEq] at hrun
    rw [← hrun.1]
    exact List.nil_prefix
  | cons d ds ih =>
    simp only [List.cons_append, spliterRun, Option.bind_eq_bind, Option.bind_eq_some_iff]
      at hrun hall
    obtain ⟨⟨sent, a₁⟩, hrecv, ⟨later, a₂⟩, hrest, heq⟩ := hrun
    obtain ⟨⟨sent', a₁'⟩, hrecv', ⟨later', a₂'⟩, hrest', heq'⟩ := hall
    obtain ⟨rfl, rfl⟩ := Prod.mk.inj (Option.some.inj (hrecv.symm.trans hrecv'))
    obtain ⟨rfl, rfl⟩ := Prod.mk.inj (Option.some.inj heq)
    obtain ⟨rfl, rfl⟩ := Prod.mk.inj (Option.some.inj heq')
    exact (List.prefix_append_right_inj sent).mpr (ih hrest hrest')

/-- INTERNAL: a splitter has sent the first of its chunks. -/
theorem SpliterOk.sent_isPrefix {sp : Spliter} (h : SpliterOk split sp) {chunks : List Bytes}
    (hchunks : createSpliterThread split sp.fed = some chunks) : sp.sent <+: chunks := by
  obtain ⟨taken, hfed, hrun⟩ := h.run
  obtain ⟨⟨all, a⟩, hall, rfl⟩ := Option.map_eq_some_iff.mp hchunks
  rw [hfed] at hall
  exact (List.prefix_append _ _).trans (spliterRun_isPrefix hrun hall)

/-- INTERNAL: **the chunks of a CPU come to `decode` in order.**
SRC: server.rs:77-127 -/
theorem receivedOf_isPrefix [NeZero L] (hsplit : SplitOffsets split) {s : Setup n L (Server n m)}
    (hs : (serverProgram n m L outLen split).Reachable s) (b : Fin n) :
    s.processor.receivedOf b <+: s.processor.threads.chunksOf split b := by
  have hpipe := pipelineMachine_inv
    ((serverProgram_mapsTo_pipeline n m L outLen split).reachable hs)
  have hchunks := (serverProgram_joined hs).ordered b
  have hsent := (hpipe.spliters b).sent_isPrefix
    (s.processor.threads.chunksOf_spec hsplit b).1
  refine List.IsPrefix.trans ?_ hsent
  rw [← Spliter.data_chunks b, ← hchunks, Server.receivedOf]
  refine List.IsPrefix.map _ (List.IsPrefix.filter _ ?_)
  exact List.prefix_append _ _

/-- INTERNAL: **`decode` was called with the chunks of the streams**, once the splitters have ended
and the channel is empty.
SRC: server.rs:77-153 -/
theorem data_received [NeZero L] {s : Setup n L (Server n m)}
    (hs : (serverProgram n m L outLen split).Reachable s)
    (hended : ∀ b, (s.processor.threads.spliters b).ended = true)
    (hqueue : s.processor.threads.queue = []) :
    (↑(s.processor.received.map Chunk.data) : Multiset Bytes) =
      ∑ b, ↑(s.processor.threads.chunksOf split b) := by
  have hpipe := pipelineMachine_inv
    ((serverProgram_mapsTo_pipeline n m L outLen split).reachable hs)
  have hconserved := hpipe.conserved
  have hload : ∑ j, ((s.processor.threads.front s.processor.received).workers j).load = 0 :=
    Finset.sum_eq_zero fun _ _ => rfl
  have hchannel : (s.processor.threads.front s.processor.received).queue =
      s.processor.received := by
    simp only [Pipeline.front, hqueue, List.append_nil]
  rw [hload, hchannel, add_zero] at hconserved
  have hdata := congrArg (Multiset.mapAddMonoidHom Chunk.data) hconserved
  rw [map_sum] at hdata
  refine hdata.symm.trans (Finset.sum_congr rfl fun b _ => ?_)
  have hsent : s.processor.threads.chunksOf split b = (s.processor.threads.spliters b).sent :=
    hpipe.chunksOf_eq_sent (b := b) (hended b)
  rw [hsent, ← Spliter.data_chunks b]
  rfl

/-! ## The counts -/

/-- The counter of a sum is the sum of the counters, as far as it fits. -/
theorem Tally.num_sum (ts : List Tally) (page : Usize) (i : Fin 4096) :
    ts.sum.num page i = (ts.map fun t => t.num page i).sum % 2 ^ 64 := by
  induction ts with
  | nil => rfl
  | cons t ts ih =>
    rw [List.sum_cons, List.map_cons, List.sum_cons, Tally.num, Tally.cnt_add, UInt64.toNat_add]
    change (t.num page i + ts.sum.num page i) % 2 ^ 64 = _
    rw [ih, Nat.add_mod_mod]

/-- INTERNAL: **each chunk of the streams was decoded once**, when nothing was lost on the way.
SRC: server.rs:77-153, client_pool.rs:68-86 -/
theorem decoded_drained [NeZero L] {s : Setup n L (Server n m)}
    (hs : (serverProgram n m L outLen split).Reachable s) (hd : s.processor.Drained) :
    (↑(s.processor.network.decoded.map Prod.fst) : Multiset Bytes) =
      ∑ b, ↑(s.processor.threads.chunksOf split b) := by
  have hnet := networkMachine_inv ((serverProgram_mapsTo_network n m L outLen split).reachable hs)
  have hchunks := hnet.chunks
  rw [(serverProgram_joined hs).given, hd.hand, hd.inFlight, hd.lost] at hchunks
  simp only [Option.toList_none, Multiset.coe_nil, zero_add, add_zero] at hchunks
  rw [← hchunks, data_received hs hd.spliters hd.queue]

/-- INTERNAL: **what was decoded is what the agents hold**, when nothing is on its way, because
nobody calls `get_result`.
SRC: server.rs:86-88, client_pool.rs:88-119 -/
theorem heldNum_drained [NeZero L] {s : Setup n L (Server n m)}
    (hs : (serverProgram n m L outLen split).Reachable s) (hd : s.processor.Drained)
    {page : Usize} {i : Fin 4096} (hlt : s.processor.network.decodedNum page i < 2 ^ 64) :
    s.processor.network.tasks.pool.heldNum page i = s.processor.network.decodedNum page i := by
  have hnet := networkMachine_inv ((serverProgram_mapsTo_network n m L outLen split).reachable hs)
  have hjoined := serverProgram_joined hs
  have hcounts := hnet.counts page i
  have hpool := hnet.pool.conserved page i (by omega)
  have hcall : s.processor.network.tasks.pool.callNum page i = 0 := by
    rw [Pool.callNum, hjoined.call]
  have hreturned : s.processor.network.tasks.pool.returnedNum page i = 0 := by
    rw [Pool.returnedNum, hjoined.returned]
    rfl
  have hunsent : s.processor.network.unsentNum page i = 0 := by
    rw [Network.unsentNum, hd.unsent]
    rfl
  rw [hcounts, hd.answers page i, hunsent, ← hpool, hcall, hreturned]
  omega

/-- INTERNAL: what the decodes of the chunks have counted, when each chunk yields what it does with
`yields`. -/
theorem decodedNum_of_yields {s : Server n m}
    (hdecoded : (↑(s.network.decoded.map Prod.fst) : Multiset Bytes) =
      ∑ b, ↑(s.threads.chunksOf split b))
    (hyields : ∀ d ∈ s.network.decoded, d.2 = yields d.1) (page : Usize) (i : Fin 4096) :
    s.network.decodedNum page i % 2 ^ 64 = (hist (s.threads.ips split yields)).num page i := by
  have hflat : (↑(s.network.decoded.map Prod.fst) : Multiset Bytes) =
      ↑((List.finRange n).flatMap (s.threads.chunksOf split)) := by
    rw [hdecoded, Fin.sum_univ_def, List.flatMap, ← Multiset.coe_join, Multiset.join,
      Multiset.sum_coe, List.map_map]
    rfl
  have hperm := (Multiset.coe_eq_coe.mp hflat).map fun d => (hist (yields d)).num page i
  have hnum : s.network.decodedNum page i =
      ((s.network.decoded.map Prod.fst).map fun d => (hist (yields d)).num page i).sum := by
    rw [List.map_map]
    refine congrArg List.sum (List.map_congr_left fun d hmem => ?_)
    rw [hyields d hmem]
    rfl
  have hips : hist (s.threads.ips split yields) =
      (((List.finRange n).flatMap (s.threads.chunksOf split)).map
        fun d => hist (yields d)).sum := by
    rw [Pipeline.ips, ← List.flatMap_assoc, List.flatMap, hist_flatten, List.map_map]
    rfl
  rw [hnum, hperm.sum_eq, hips, Tally.num_sum, List.map_map]
  rfl

/-- MAIN: **what the agents of `server` hold is what was decoded of its streams.**  Whatever the
driver, the threads, the tasks and the clients do: what comes out of a ring is a prefix of what was
written there, and its splitter makes chunks of it, buffer by buffer; they are its pieces between
the sync points where `split` cuts a stream at its own.  `decode` is called with the first of these
chunks, in their order, and each of them is in the hand of `decode`, on its way, decoded or lost,
and in one of these places once.  When the splitters have ended, nothing is left on the way, nothing
was lost and every answer was sent, each chunk of the streams was decoded once, and the agents hold,
as long as no counter overflows, the counts of these decodes.
SRC: server.rs:77-153, 249-283, 344-437, pt_ctrl/mod.rs:284-354, client_pool.rs:38-86,
client_agent.rs:77-207, client_proc.rs:31-175 -/
theorem server_conserves [NeZero L] (hsplit : SplitOffsets split) {s : Setup n L (Server n m)}
    (hs : (serverProgram n m L outLen split).Reachable s) :
    (∀ b, s.capture.delivered b <+: s.capture.written b ∧
      (s.processor.threads.spliters b).fed.flatten = s.capture.delivered b ∧
      createSpliterThread split (s.processor.threads.spliters b).fed =
        some (s.processor.threads.chunksOf split b) ∧
      s.processor.receivedOf b <+: s.processor.threads.chunksOf split b ∧
      (SplitSpec split → s.processor.threads.chunksOf split b =
        segments (s.capture.delivered b) (split (s.capture.delivered b)))) ∧
    (↑(s.processor.received.map Chunk.data) : Multiset Bytes) =
      ↑s.processor.network.tasks.decode.hand.toList + s.processor.network.inFlight +
        ↑(s.processor.network.decoded.map Prod.fst) + ↑s.processor.network.lost ∧
    (s.processor.Drained →
      (↑(s.processor.network.decoded.map Prod.fst) : Multiset Bytes) =
        ∑ b, ↑(s.processor.threads.chunksOf split b) ∧
      ∀ page i, s.processor.network.decodedNum page i < 2 ^ 64 →
        s.processor.network.tasks.pool.heldNum page i =
          s.processor.network.decodedNum page i) := by
  have hnet := networkMachine_inv ((serverProgram_mapsTo_network n m L outLen split).reachable hs)
  have hjoined := serverProgram_joined hs
  have hfed := (server_keeps n m L outLen split).delivered hs
  refine ⟨fun b => ?_, ?_, ?_⟩
  · refine ⟨delivered_written hs b, hfed b, (s.processor.threads.chunksOf_spec hsplit b).1,
      receivedOf_isPrefix hsplit hs b, fun hspec => ?_⟩
    rw [Pipeline.chunksOf_eq_segments hspec]
    exact congrArg (fun d => segments d (split d)) (hfed b)
  · rw [← hjoined.given]
    exact hnet.chunks
  · exact fun hd => ⟨decoded_drained hs hd, fun page i hlt => heldNum_drained hs hd hlt⟩

/-- The first stream is two PSB+ with a TNT packet between them.  It is fetched and Ctrl-C is
pressed; the piece between the PSB+ goes to a client. -/
def oneChunkServerRun : List (ProgramOp 2 (ServerOp 2 2)) :=
  writes 0 (psbPlus ++ [0x06] ++ psbPlus) ++ List.replicate 38 .loop ++ [.beside .ctrlC] ++
    List.replicate 3 .loop ++
    ([.startServer true, .spliterRecv 0, .stop, .dropTx, .spliterSend 0, .spliterEnd 0,
      .joinSpliter, .dropTx, .spliterEnd 1, .joinSpliter, .joinSpliter, .network .accept,
      .network (.regReq 0), .poolRecv, .network (.decode .test), .network (.decode .publish),
      .network (.takeChunk 0), .network (.sendDone 0 true), .network (.client 0 .recvMsg),
      .network (.client 0 .recvMsg), .network (.client 0 (.takeCtrl 0))] :
        List (ServerOp 2 2)).map fun op => .beside op

/-- The piece is with the first worker of the client, and nothing else is on its way. -/
theorem oneChunkServerRun_spec : ∃ s ∈ (serverProgram 2 2 64 64 psbSplit).exec
      (serverProgram 2 2 64 64 psbSplit).init oneChunkServerRun,
    (s.panicked = false ∧ s.processor.exited = false ∧ s.processor.poolLoop = .serving) ∧
      (s.processor.threads.spliters 0).fed = [psbPlus ++ [0x06] ++ psbPlus] ∧
      (s.processor.threads.spliters 1).fed = [] ∧
      (∀ b, (s.processor.threads.spliters b).ended = true) ∧ s.processor.threads.queue = [] ∧
      s.processor.received = [⟨0, 0, psbPlus ++ [0x06]⟩] ∧
      (s.processor.network.decoded = [] ∧ s.processor.network.unsent = [] ∧
        s.processor.network.lost = [] ∧ s.processor.network.tasks.decode.hand = none) ∧
      s.processor.network.links.length = 1 ∧
      (∃ a ∈ s.processor.network.tasks.pool.agent 0, a.receiving = true) ∧
      ∃ l ∈ s.processor.network.links[0]?, l.conn.workers 0 = .decoding ∧
        l.holding 0 = some (psbPlus ++ [0x06]) ∧ l.conn.wireOut.isEmpty = true := by
  decide +kernel

/-- INTERNAL: the piece is answered, and what its decode has counted is with the agent. -/
theorem exists_oneChunkServed (ips : List Usize) : ∃ ops s,
    (serverProgram 2 2 64 64 psbSplit).exec (serverProgram 2 2 64 64 psbSplit).init
      (oneChunkServerRun ++ ops) = some s ∧
      (s.processor.threads.spliters 0).fed = [psbPlus ++ [0x06] ++ psbPlus] ∧
      (s.processor.threads.spliters 1).fed = [] ∧
      s.processor.network.decoded = [(psbPlus ++ [0x06], ips)] ∧ s.processor.Drained := by
  obtain ⟨s, hs, ⟨hpanicked, hexited, hloop⟩, hfed₀, hfed₁, hended, hqueue, hreceived,
    ⟨hdecoded, hunsent, hlost, hhand⟩, hone, ⟨a, ha, hrecv⟩, l, hl, hw, hchunk, hout⟩ :=
      oneChunkServerRun_spec
  obtain ⟨order, msg, pool, hanswer⟩ :=
    Network.exists_answered ips hl ha hrecv hw hchunk (List.isEmpty_iff.mp hout)
  have hexec := (Machine.exec_append _).mpr ⟨s, hs,
    serverProgram_exec_network (by simp [NetworkOp.isCall]) hpanicked hexited hloop hanswer⟩
  have hafter : ∃ ops t, (serverProgram 2 2 64 64 psbSplit).exec
      (serverProgram 2 2 64 64 psbSplit).init (oneChunkServerRun ++ ops) = some t ∧
      (t.processor.threads.spliters 0).fed = [psbPlus ++ [0x06] ++ psbPlus] ∧
      (t.processor.threads.spliters 1).fed = [] ∧
      (∀ b, (t.processor.threads.spliters b).ended = true) ∧ t.processor.threads.queue = [] ∧
      t.processor.received = s.processor.received ∧
      t.processor.network.decoded = s.processor.network.decoded ++ [(psbPlus ++ [0x06], ips)] ∧
      t.processor.network.unsent = [] ∧ t.processor.network.lost = [] ∧
      t.processor.network.tasks.decode.hand = none ∧
      t.processor.network.links = s.processor.network.links.set 0 { l with
        conn := l.conn.setWorker 0 .idle
        holding := Function.update l.holding 0 none } :=
    ⟨_, _, hexec, hfed₀, hfed₁, hended, hqueue, rfl, rfl, hunsent, hlost, hhand, rfl⟩
  obtain ⟨ops, t, ht, hfed₀', hfed₁', hended', hqueue', hreceived', hdecoded', hunsent', hlost',
    hhand', hlinks'⟩ := hafter
  rw [hdecoded, List.nil_append] at hdecoded'
  refine ⟨ops, t, ht, hfed₀', hfed₁', hdecoded', hended', hqueue', hhand', ?_, hlost', hunsent',
    fun page i => ?_⟩
  · -- the one chunk was decoded, so none is on its way
    have hchunks := (networkMachine_inv
      ((serverProgram_mapsTo_network 2 2 64 64 psbSplit).reachable ⟨_, ht⟩)).chunks
    rw [(serverProgram_joined ⟨_, ht⟩).given, hreceived', hreceived, hdecoded', hhand', hlost',
      Option.toList_none, Multiset.coe_nil, zero_add, add_zero] at hchunks
    exact add_eq_right.mp hchunks.symm
  · obtain ⟨l₁, hl₁⟩ := List.length_eq_one_iff.mp hone
    rw [Network.answersNum, hlinks', hl₁]
    simp only [List.set_cons_zero, List.map_cons, List.map_nil, List.sum_singleton,
      Link.answersNum, Conn.answers, Conn.setWorker, List.isEmpty_iff.mp hout, List.filterMap_nil,
      List.sum_nil]

/-- The piece yields two executions of one byte, and the agent holds them. -/
theorem server_conserves_oneChunk : ∃ ops s,
    (serverProgram 2 2 64 64 psbSplit).exec (serverProgram 2 2 64 64 psbSplit).init
      (oneChunkServerRun ++ ops) = some s ∧
      s.processor.network.decoded = [(psbPlus ++ [0x06], [0x401000, 0x401000])] ∧
      s.processor.network.tasks.pool.heldNum 0x401000 0 = 2 := by
  obtain ⟨ops, s, hs, -, -, hdecoded, hd⟩ := exists_oneChunkServed [0x401000, 0x401000]
  have hnum : s.processor.network.decodedNum 0x401000 0 = 2 := by
    rw [Network.decodedNum, hdecoded]
    rfl
  refine ⟨ops, s, hs, hdecoded, ?_⟩
  rw [((server_conserves psbSplit_spec.toSplitOffsets ⟨_, hs⟩).2.2 hd).2 0x401000 0
    (by rw [hnum]; decide), hnum]

end PtkGenerator

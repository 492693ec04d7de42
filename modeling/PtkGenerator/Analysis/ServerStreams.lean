import PtkGenerator.Analysis.NetworkConservation
import PtkGenerator.Analysis.OnlineRun
import PtkGenerator.Model.ServerProgram

/-!
# What the server gives to its clients

Seen from the splitters, `server` is the pipeline of `online_proc` whose workers never take a chunk
and whose channel keeps what the task has taken (`Pipeline.front`).  Seen from the clients it is
their network.  What the one side has sent is what the other side was given, so the accounts of the
two come together.
-/

set_option autoImplicit false

namespace PtkGenerator

open Cuts SumMap

variable {n m L outLen : ℕ} [NeZero L] {split : Bytes → List ℕ} {yields : Bytes → List Usize}

/-! ## The steps -/

/-- The steps of the pipeline that `server` takes as they are. -/
def PipelineOp.Front : PipelineOp n → Prop
  | .stop | .dropTx | .joinSpliter => True
  | .spliterRecv _ | .spliterSend _ | .spliterEnd _ => True
  | _ => False

/-- `main` as far as it waits for the splitters. -/
def MainPhase.front : MainPhase → MainPhase
  | .collecting => .collecting
  | .waitSpliter i => .waitSpliter i
  | _ => .waitWorker 0

/-- A worker with the same map leaves the maps as they are. -/
theorem Pipeline.data_setWorker {s : Pipeline n} {j : Fin (n - 1)} {w : Worker n}
    (h : w.data = (s.workers j).data) (j' : Fin (n - 1)) :
    ((s.setWorker j w).workers j').data = (s.workers j').data := by
  change (Function.update s.workers j w j').data = _
  by_cases hj : j' = j
  · subst hj
    rw [Function.update_self, h]
  · rw [Function.update_of_ne hj]

/-- The threads without their workers, when the chunks `received` are back in the channel. -/
def Pipeline.front (received : List (Chunk n)) (s : Pipeline n) : Pipeline n where
  spliters := s.spliters
  workers _ := ⟨none, ∅, false, []⟩
  queue := received ++ s.queue
  main := s.main.front

namespace Server

/-- The receiver is gone for a reason of its own, not for want of senders. -/
def PoolLost (s : Server n m) : Prop :=
  s.poolLoop = .failed ∨ s.network.tasks.decode.panics = true

/-- The steps, by what they change. -/
inductive Step (split : Bytes → List ℕ) (s : Server n m) : Server n m → Prop
  | threads (op threads) : op.Front →
      (pipelineMachine n split fun _ => []).step s.threads op = some threads →
      Step split s (s.withThreads threads)
  | workers (threads) : threads.spliters = s.threads.spliters →
      threads.queue = s.threads.queue → threads.main.front = s.threads.main.front →
      (threads.main = .collecting → s.threads.main = .collecting) →
      (∀ j, (threads.workers j).data = (s.threads.workers j).data) →
      Step split s (s.withThreads threads)
  | crash (i) : s.receiverAlive = false → s.crashed i = false →
      (s.threads.spliters i).outgoing ≠ [] →
      Step split s { s with crashed := Function.update s.crashed i true }
  | started (ok : Bool) : s.poolLoop = .starting →
      Step split s { s with poolLoop := if ok then .serving else .failed }
  | received (c queue network) : s.poolLoop = .serving → s.threads.queue = c :: queue →
      s.network.decode (.begin c.data) = some network →
      Step split s { s with
        threads := { s.threads with queue }, received := s.received ++ [c], network }
  | ended : s.poolLoop = .serving →
      (∀ i, (s.threads.spliters i).ended = true ∨ s.crashed i = true) →
      Step split s { s with poolLoop := .ended }
  | network (op network) : op.isCall = false →
      (networkMachine m).step s.network op = some network → Step split s { s with network }
  | ctrlC : Step split s { s with gStop := true }
  | crashedJoin (i) : s.crashed i = true → Step split s { s with exited := true }
  | ret : s.threads.main = .completed → Step split s { s with exited := true }

end Server

namespace Server

/-- A send of a splitter is a step of the threads, or the splitter panics. -/
theorem spliterSend_step {s t : Server n m} {i : Fin n} (h : s.spliterSend i = some t) :
    s.Step split t := by
  obtain ⟨hcrashed, h⟩ := Option.ite_none_left_eq_some.mp h
  split at h
  · obtain ⟨threads, hthreads, rfl⟩ := Option.map_eq_some_iff.mp h
    exact .threads (.spliterSend i) threads trivial hthreads
  · next halive =>
    obtain ⟨hout, h⟩ := Option.ite_none_left_eq_some.mp h
    obtain rfl := Option.some.inj h
    exact .crash i (Bool.eq_false_iff.mpr halive) (Bool.eq_false_iff.mpr hcrashed) hout

/-- A join of a splitter is a step of `main`, which panics behind a splitter that has. -/
theorem joinSpliter_step {s t : Server n m} (h : s.joinSpliter = some t) : s.Step split t := by
  unfold joinSpliter at h
  split at h
  · next hjoins =>
    obtain rfl := Option.some.inj h
    unfold joinsCrashed at hjoins
    split at hjoins
    · split at hjoins
      · next hi =>
        exact .crashedJoin ⟨_, hi⟩ (Bool.and_eq_true_iff.mp hjoins).1
      · cases hjoins
    · cases hjoins
  · obtain ⟨threads, hthreads, rfl⟩ := Option.map_eq_some_iff.mp h
    exact .threads .joinSpliter threads trivial hthreads

/-- A join of a worker is a step of `main`. -/
theorem joinWorker_step {s : Server n m} {threads : Pipeline n}
    (h : s.threads.joinWorker = some threads) : s.Step split (s.withThreads threads) := by
  obtain ⟨j, hm, ⟨hj, -, rfl⟩ | ⟨hj, rfl⟩⟩ := Pipeline.joinWorker_cases h
  · refine .workers _ rfl rfl ?_ nofun fun _ => rfl
    rw [hm]
    rfl
  · refine .workers _ rfl rfl ?_ nofun fun _ => rfl
    rw [hm]
    rfl

/-- The task of the pool takes a chunk from the channel and calls `decode`. -/
theorem poolRecv_step {s t : Server n m} (h : s.poolRecv = some t) : s.Step split t := by
  unfold poolRecv at h
  split at h
  · next c queue hloop hqueue =>
    obtain ⟨network, hnetwork, rfl⟩ := Option.map_eq_some_iff.mp h
    exact .received c queue network hloop hqueue hnetwork
  · cases h

end Server

omit [NeZero L] in
/-- INTERNAL: a step beside the capture is one of these. -/
theorem serverBeside_step {s : Setup n L (Server n m)} {op : ServerOp n m} {p : Server n m}
    (h : serverBeside split s op = some p) : s.processor.Step split p := by
  obtain ⟨-, h⟩ := Option.ite_none_left_eq_some.mp h
  cases op with
  | ctrlC =>
    obtain rfl := Option.some.inj h
    exact .ctrlC
  | stop =>
    obtain ⟨-, h⟩ := Option.ite_none_right_eq_some.mp h
    obtain ⟨threads, hthreads, rfl⟩ := Option.map_eq_some_iff.mp h
    exact .threads .stop threads trivial hthreads
  | dropTx =>
    obtain ⟨threads, hthreads, rfl⟩ := Option.map_eq_some_iff.mp h
    exact .threads .dropTx threads trivial hthreads
  | joinSpliter => exact Server.joinSpliter_step h
  | joinWorker =>
    obtain ⟨threads, hthreads, rfl⟩ := Option.map_eq_some_iff.mp h
    exact Server.joinWorker_step hthreads
  | ret =>
    obtain ⟨hdone, h⟩ := Option.ite_none_right_eq_some.mp h
    obtain rfl := Option.some.inj h
    exact .ret hdone
  | spliterRecv i =>
    obtain ⟨-, h⟩ := Option.ite_none_left_eq_some.mp h
    obtain ⟨threads, hthreads, rfl⟩ := Option.map_eq_some_iff.mp h
    exact .threads (.spliterRecv i) threads trivial hthreads
  | spliterSend i => exact Server.spliterSend_step h
  | spliterEnd i =>
    obtain ⟨-, h⟩ := Option.ite_none_left_eq_some.mp h
    obtain ⟨threads, hthreads, rfl⟩ := Option.map_eq_some_iff.mp h
    exact .threads (.spliterEnd i) threads trivial hthreads
  | workerEnd j =>
    obtain ⟨-, h⟩ := Option.ite_none_right_eq_some.mp h
    obtain rfl := Option.some.inj h
    exact .workers _ rfl rfl rfl id (Pipeline.data_setWorker rfl)
  | startServer ok =>
    obtain ⟨hloop, h⟩ := Option.ite_none_right_eq_some.mp h
    obtain rfl := Option.some.inj h
    exact .started ok hloop
  | poolRecv => exact Server.poolRecv_step h
  | poolEnd =>
    obtain ⟨⟨hloop, -, -, hall⟩, h⟩ := Option.ite_none_right_eq_some.mp h
    obtain rfl := Option.some.inj h
    exact .ended hloop hall
  | network op =>
    obtain ⟨⟨-, hop⟩, h⟩ := Option.ite_none_right_eq_some.mp h
    obtain ⟨network, hnetwork, rfl⟩ := Option.map_eq_some_iff.mp h
    exact .network op network hop hnetwork

/-! ## The splitters -/

namespace Pipeline

omit [NeZero L]

/-- The splitters are fed whether chunks are back in the channel or not. -/
theorem front_processor {s t : Pipeline n} (received : List (Chunk n)) {i : Fin n} {d : Bytes}
    (h : s.processor i d = some t) :
    (s.front received).processor i d = some (t.front received) := by
  obtain ⟨hm, hcases⟩ := processor_cases h
  have hfront : (s.front received).main = .collecting := by
    simp only [front, hm, MainPhase.front]
  rw [processor, if_pos hfront]
  rcases hcases with ⟨hd, rfl⟩ | ⟨rfl, rfl⟩
  · rw [if_pos hd]
    rfl
  · rw [if_neg (by simp)]

/-- `main` drops a sender whether chunks are back in the channel or not. -/
theorem front_dropTx {s t : Pipeline n} (received : List (Chunk n)) (h : s.dropTx = some t) :
    (s.front received).dropTx = some (t.front received) := by
  obtain ⟨k, hk, hm, halive, rfl⟩ := dropTx_cases h
  have hfront : (s.front received).main = .waitSpliter k := by
    simp only [front, hm, MainPhase.front]
  simp only [dropTx, hfront, dif_pos hk]
  exact if_pos halive

/-- `main` joins a splitter whether chunks are back in the channel or not. -/
theorem front_joinSpliter {s t : Pipeline n} (received : List (Chunk n))
    (h : s.joinSpliter = some t) :
    (s.front received).joinSpliter = some (t.front received) := by
  obtain ⟨k, hm, hcases⟩ := joinSpliter_cases h
  have hfront : (s.front received).main = .waitSpliter k := by
    simp only [front, hm, MainPhase.front]
  rcases hcases with ⟨hk, hended, rfl⟩ | ⟨hk, rfl⟩
  · simp only [joinSpliter, hfront, dif_pos hk]
    exact if_pos hended
  · simp only [joinSpliter, hfront, dif_neg (not_lt.mpr hk)]
    rfl

/-- A splitter takes a buffer whether chunks are back in the channel or not. -/
theorem front_spliterRecv {s t : Pipeline n} (received : List (Chunk n)) {i : Fin n}
    (h : s.spliterRecv split i = some t) :
    (s.front received).spliterRecv split i = some (t.front received) := by
  obtain ⟨d, rx, chunks, assemedData, hrunning, hout, hrx, hrecv, rfl⟩ := spliterRecv_cases h
  have hnot : ¬(((s.front received).spliters i).ended = true ∨
      ((s.front received).spliters i).outgoing ≠ []) := not_or.mpr ⟨hrunning, not_not.mpr hout⟩
  have hrxf : ((s.front received).spliters i).rx = d :: rx := hrx
  have hrecvf : PtkGenerator.spliterRecv split ((s.front received).spliters i).assemedData d =
      some (chunks, assemedData) := hrecv
  simp only [spliterRecv, if_neg hnot, hrxf, hrecvf]
  rfl

/-- A splitter sends its chunk behind those that are back in the channel. -/
theorem front_spliterSend {s t : Pipeline n} (received : List (Chunk n)) {i : Fin n}
    (h : s.spliterSend i = some t) :
    (s.front received).spliterSend i = some (t.front received) := by
  obtain ⟨c, outgoing, hout, rfl⟩ := spliterSend_cases h
  have houtf : ((s.front received).spliters i).outgoing = c :: outgoing := hout
  simp only [spliterSend, houtf]
  simp only [front, setSpliter, List.append_assoc]

/-- A splitter ends whether chunks are back in the channel or not. -/
theorem front_spliterEnd {s t : Pipeline n} (received : List (Chunk n)) {i : Fin n}
    (h : s.spliterEnd i = some t) :
    (s.front received).spliterEnd i = some (t.front received) := by
  obtain ⟨hready, rfl⟩ := spliterEnd_cases h
  exact if_pos hready

/-- A step of the splitters is one of the pipeline whose channel keeps everything. -/
theorem front_step {s t : Pipeline n} {op : PipelineOp n} (received : List (Chunk n))
    (hop : op.Front) (h : (pipelineMachine n split yields).step s op = some t) :
    (pipelineMachine n split yields).step (s.front received) op = some (t.front received) := by
  cases op with
  | stop =>
    obtain ⟨hm, rfl⟩ := stop_cases h
    have hfront : (s.front received).main = .collecting := by
      simp only [front, hm, MainPhase.front]
    exact if_pos hfront
  | dropTx => exact front_dropTx received h
  | joinSpliter => exact front_joinSpliter received h
  | spliterRecv i => exact front_spliterRecv received h
  | spliterSend i => exact front_spliterSend received h
  | spliterEnd i => exact front_spliterEnd received h
  | processor i d => exact hop.elim
  | joinWorker => exact hop.elim
  | workerRecv j => exact hop.elim
  | workerDecode j => exact hop.elim
  | workerEnd j => exact hop.elim

end Pipeline

omit [NeZero L] in
/-- The processor gives the buffer to the splitter of its CPU. -/
theorem serverProcessor_eq_some {s t : Server n m} {i : ℕ} {buff : Bytes} {size : ℕ}
    {answer : Bool} (h : serverProcessor n m s i buff size = some (t, answer)) :
    ∃ (hi : i < n) (threads : Pipeline n),
      s.threads.processor ⟨i, hi⟩ (buff.take size) = some threads ∧
        t = s.withThreads threads ∧ answer = !s.gStop := by
  unfold serverProcessor at h
  split at h
  · next hi =>
    obtain ⟨-, h⟩ := Option.ite_none_right_eq_some.mp h
    obtain ⟨-, h⟩ := Option.ite_none_left_eq_some.mp h
    obtain ⟨threads, hthreads, heq⟩ := Option.map_eq_some_iff.mp h
    obtain ⟨rfl, rfl⟩ := Prod.mk.inj heq
    exact ⟨hi, threads, hthreads, rfl, rfl⟩
  · cases h

/-- What a step of the program makes of the threads and tasks: nothing, a call of the processor, or
a step of theirs. -/
theorem serverProgram_step {s t : Setup n L (Server n m)} {op : ProgramOp n (ServerOp n m)}
    (h : (serverProgram n m L outLen split).step s op = some t) :
    t.processor = s.processor ∨
      (∃ i d threads, s.processor.threads.processor i d = some threads ∧
        t.processor = s.processor.withThreads threads) ∨
      s.processor.Step split t.processor := by
  cases op with
  | write b x =>
    obtain ⟨c, -, rfl⟩ := Option.map_eq_some_iff.mp h
    exact .inl rfl
  | loop =>
    obtain ⟨-, hnext⟩ := Option.ite_none_right_eq_some.mp h
    obtain rfl := Option.some.inj hnext
    obtain hsame | hpanic | ⟨c, -, hnext⟩ | ⟨r, p, answer, c, -, hp, -, hnext⟩ :=
      Setup.next_cases (serverProcessor n m) s
    · rw [hsame]
      exact .inl rfl
    · rw [hpanic]
      exact .inl rfl
    · rw [hnext]
      exact .inl rfl
    · obtain ⟨hi, threads, hthreads, rfl, -⟩ := serverProcessor_eq_some hp
      rw [hnext]
      exact .inr (.inl ⟨_, _, threads, hthreads, rfl⟩)
  | beside op =>
    obtain ⟨p, hp, rfl⟩ := Option.map_eq_some_iff.mp h
    exact .inr (.inr (serverBeside_step hp))

/-- INTERNAL: **the splitters of the server are those of the pipeline.**
SRC: server.rs:98-153, 249-266 -/
theorem serverProgram_mapsTo_pipeline (n m L outLen : ℕ) [NeZero L] (split : Bytes → List ℕ) :
    (serverProgram n m L outLen split).MapsTo (pipelineMachine n split fun _ => [])
      fun s => s.processor.threads.front s.processor.received where
  init := rfl
  step := by
    intro s op t _ h
    obtain hsame | ⟨i, d, threads, hthreads, hproc⟩ | hstep := serverProgram_step h
    · rw [hsame]
      exact .inl rfl
    · rw [hproc]
      exact .inr ⟨.processor i d, Pipeline.front_processor _ hthreads⟩
    · generalize t.processor = p at hstep
      cases hstep with
      | threads op threads hop hthreads =>
        exact .inr ⟨op, Pipeline.front_step _ hop hthreads⟩
      | workers threads hspliters hqueue hmain =>
        refine .inl ?_
        simp only [Pipeline.front, Server.withThreads, hspliters, hqueue, hmain]
      | received c queue network hloop hqueue =>
        refine .inl ?_
        simp only [Pipeline.front, hqueue, List.append_assoc, List.singleton_append]
      | _ => exact .inl rfl

/-- INTERNAL: **the clients of the server are the network.**
SRC: server.rs:77-96 -/
theorem serverProgram_mapsTo_network (n m L outLen : ℕ) [NeZero L] (split : Bytes → List ℕ) :
    (serverProgram n m L outLen split).MapsTo (networkMachine m)
      fun s => s.processor.network where
  init := rfl
  step := by
    intro s op t _ h
    obtain hsame | ⟨i, d, threads, -, hproc⟩ | hstep := serverProgram_step h
    · rw [hsame]
      exact .inl rfl
    · rw [hproc]
      exact .inl rfl
    · generalize t.processor = p at hstep
      cases hstep with
      | received c queue network hloop hqueue hnetwork =>
        exact .inr ⟨.decode (.begin c.data), hnetwork⟩
      | network op network hop hnetwork => exact .inr ⟨op, hnetwork⟩
      | _ => exact .inl rfl

/-- A run of the clients beside `main`.
SRC: server.rs:77-96, client_pool.rs:41-66 -/
theorem serverProgram_exec_network {ops : List (NetworkOp m)}
    (hops : ∀ op ∈ ops, op.isCall = false) {s : Setup n L (Server n m)} {network : Network m}
    (hpanicked : s.panicked = false) (hexited : s.processor.exited = false)
    (hloop : s.processor.poolLoop = .serving)
    (h : (networkMachine m).exec s.processor.network ops = some network) :
    (serverProgram n m L outLen split).exec s (ops.map fun op => .beside (.network op)) =
      some { s with processor := { s.processor with network } } := by
  induction ops generalizing s with
  | nil =>
    obtain rfl := Option.some.inj h
    rfl
  | cons op ops ih =>
    obtain ⟨hop, hrest⟩ := List.forall_mem_cons.mp hops
    obtain ⟨network₁, hstep, hexec⟩ := (Machine.exec_cons_eq_some _).mp h
    have hlives : ¬(s.panicked = true ∨ s.processor.exited = true) := by
      rw [hpanicked, hexited]
      simp
    refine (Machine.exec_cons_eq_some _).mpr
      ⟨{ s with processor := { s.processor with network := network₁ } }, ?_,
        ih hrest hpanicked hexited hloop hexec⟩
    simp only [serverProgram, captureProgram, serverBeside, if_neg hlives, Server.networkStep,
      hloop, hop, true_or, and_self, if_true, hstep, Option.map_some]

/-- INTERNAL: the buffers of a splitter are what came out of the ring.
SRC: server.rs:139-153 -/
theorem server_keeps (n m L outLen : ℕ) [NeZero L] (split : Bytes → List ℕ) :
    Keeps (serverProgram n m L outLen split) (serverProcessor n m) (serverBeside split)
      fun s b => (s.threads.spliters b).fed.flatten where
  init _ := rfl
  call := by
    intro s _ i buff size t answer h b
    obtain ⟨hi, threads, hp, rfl, -⟩ := serverProcessor_eq_some h
    exact fed_processor hp b
  beside := by
    intro s op t h b
    cases serverBeside_step h with
    | threads op threads hop hthreads =>
      refine congrArg List.flatten (fed_step (fun i d e => ?_) hthreads b)
      rw [e] at hop
      exact hop
    | workers threads hspliters =>
      simp only [Server.withThreads, hspliters]
    | _ => rfl

/-! ## The order of the chunks -/

/-- The chunks of a splitter are in the channel in the order in which it has sent them. -/
def Pipeline.Ordered (s : Pipeline n) : Prop :=
  ∀ i, s.queue.filter (fun c => decide (c.cpu = i)) = (s.spliters i).chunks i

omit [NeZero L]

/-- A splitter that has sent the same may take the place of another. -/
theorem Pipeline.Ordered.setSpliter {s : Pipeline n} (h : s.Ordered) {i : Fin n} {sp : Spliter}
    (hsent : sp.sent = (s.spliters i).sent) : (s.setSpliter i sp).Ordered := by
  intro j
  have hchunks : (Function.update s.spliters i sp j).chunks j = (s.spliters j).chunks j := by
    by_cases hj : j = i
    · subst hj
      simp only [Spliter.chunks, Function.update_self, hsent]
    · rw [Function.update_of_ne hj]
  exact (h j).trans hchunks.symm

/-- Without a worker that receives, the channel stays in order. -/
theorem Pipeline.Ordered.step {s t : Pipeline n} (h : s.Ordered) {op : PipelineOp n}
    (hworker : ∀ j, op ≠ .workerRecv j)
    (ht : (pipelineMachine n split yields).step s op = some t) : t.Ordered := by
  cases Pipeline.step_cases ht with
  | fed i d => exact h.setSpliter rfl
  | dropTx i hi => exact h.setSpliter rfl
  | spliterRecv i => exact h.setSpliter rfl
  | spliterEnd i => exact h.setSpliter rfl
  | workerRecv j => exact absurd rfl (hworker j)
  | spliterSend i c outgoing hout =>
    intro j
    by_cases hj : j = i
    · subst hj
      have hself : ((⟨j, (s.spliters j).sent.length, c⟩ : Chunk n).cpu = j) := rfl
      simp only [Pipeline.setSpliter, Function.update_self, List.filter_append, h j, Spliter.chunks,
        List.mapIdx_append, List.mapIdx_cons, List.mapIdx_nil, Nat.zero_add, List.filter_cons,
        List.filter_nil, decide_true, if_true]
    · have hne : ¬i = j := fun e => hj e.symm
      simp only [Pipeline.setSpliter, Function.update_of_ne hj, List.filter_append, h j,
        List.filter_cons, List.filter_nil, decide_eq_false hne, Bool.false_eq_true, if_false,
        List.append_nil]
  | _ => exact h

/-! ## The account -/

/-- What a step of the network without a call leaves as it is. -/
structure Network.Kept (s t : Network m) : Prop where
  given : t.given = s.given
  call : t.tasks.pool.call = s.tasks.pool.call
  returned : t.tasks.pool.returned = s.tasks.pool.returned
  panics : s.tasks.decode.panics = true → t.tasks.decode.panics = true

/-- `decode` leaves the agents alone and goes on only where it has not panicked. -/
theorem decodeStep_kept {s t : PoolTasks} {op : DecodeOp} (h : s.decodeStep op = some t) :
    t.pool = s.pool ∧ s.decode.panics = false := by
  cases op with
  | begin data =>
    obtain ⟨hidle, -, rfl⟩ := PoolTasks.begin_cases h
    exact ⟨rfl, by rw [hidle]; rfl⟩
  | test =>
    obtain ⟨data, idx, htesting, rfl⟩ := PoolTasks.testStep_cases h
    refine ⟨?_, by rw [htesting]; rfl⟩
    rcases PoolTasks.test_cases s data idx with ⟨-, heq⟩ | ⟨a, q, -, -, -, heq⟩ | ⟨-, heq⟩
    all_goals rw [heq]
  | publish =>
    have hpool : ∀ data idx, s.publishTo data idx = some t → t.pool = s.pool := by
      intro data idx hp
      rcases PoolTasks.publishTo_cases hp with ⟨a, q, -, -, -, rfl⟩ | ⟨a, q, -, -, -, -, rfl⟩ |
        ⟨-, rfl⟩
      all_goals rfl
    rcases PoolTasks.publish_cases h with ⟨data, idx, hfound, hp⟩ | ⟨data, hexhausted, hp⟩
    · exact ⟨hpool data idx hp, by rw [hfound]; rfl⟩
    · exact ⟨hpool data 0 hp, by rw [hexhausted]; rfl⟩

/-- INTERNAL: only a call of the owner gives a chunk or fetches a result. -/
theorem Network.kept_of_step {s t : Network m} {op : NetworkOp m} (hop : op.isCall = false)
    (h : (networkMachine m).step s op = some t) : s.Kept t := by
  cases op with
  | accept =>
    obtain ⟨tasks, htasks, rfl⟩ := Option.map_eq_some_iff.mp h
    obtain ⟨-, pool, hpool, rfl⟩ := PoolTasks.accept_cases htasks
    obtain ⟨-, -, rfl⟩ := Pool.accept_cases hpool
    exact ⟨rfl, rfl, rfl, id⟩
  | decode op =>
    obtain ⟨tasks, htasks, rfl⟩ := Option.map_eq_some_iff.mp h
    obtain ⟨hpool, hnot⟩ := decodeStep_kept htasks
    refine ⟨?_, congrArg Pool.call hpool, congrArg Pool.returned hpool, fun hp => ?_⟩
    · cases op with
      | begin data => cases hop
      | test => rfl
      | publish => rfl
    · rw [hnot] at hp
      cases hp
  | getResult op => cases hop
  | closeConnection idx =>
    obtain ⟨tasks, htasks, rfl⟩ := Option.map_eq_some_iff.mp h
    obtain ⟨q, -, rfl⟩ := PoolTasks.closeConnection_cases htasks
    exact ⟨rfl, rfl, rfl, id⟩
  | takeChunk idx =>
    obtain ⟨q, l, chunk, rxProcData, -, -, -, -, rfl⟩ := Network.takeChunk_cases h
    exact ⟨rfl, rfl, rfl, id⟩
  | sendDone idx ok =>
    obtain ⟨q, l, chunk, -, -, -, -, ⟨-, rfl⟩ | ⟨-, rfl⟩⟩ := Network.sendDone_cases h
    · exact ⟨rfl, rfl, rfl, id⟩
    · exact ⟨rfl, rfl, rfl, id⟩
  | endRecv idx =>
    obtain ⟨pool, hpool, rfl⟩ := Option.map_eq_some_iff.mp h
    obtain ⟨a, -, rfl⟩ := Pool.endRecv_cases hpool
    exact ⟨rfl, rfl, rfl, id⟩
  | regReq idx =>
    obtain ⟨l, reg, wireOut, pool, conn, -, -, hpool, -, rfl⟩ := Network.regReq_cases h
    obtain ⟨a, -, rfl⟩ := Pool.regReq_cases hpool
    exact ⟨rfl, rfl, rfl, id⟩
  | dataRsp idx msg =>
    obtain ⟨l, wireOut, pool, conn, -, -, hpool, -, rfl⟩ := Network.dataRsp_cases h
    obtain ⟨a, rstData, -, -, -, rfl⟩ := Pool.dataRsp_cases hpool
    exact ⟨rfl, rfl, rfl, id⟩
  | memReq idx data =>
    obtain ⟨l, c, wireOut, conn, -, -, -, rfl⟩ := Network.memReq_cases h
    exact ⟨rfl, rfl, rfl, id⟩
  | client idx op =>
    obtain ⟨l, l', out, -, -, rfl⟩ := Network.client_cases h
    exact ⟨rfl, rfl, rfl, id⟩

/-- What the two sides of the channel have of it: the chunks in the order of each splitter, and the
calls of `decode`. -/
structure Server.Joined (s : Server n m) : Prop where
  ordered : (s.threads.front s.received).Ordered
  given : s.network.given = s.received.map Chunk.data
  call : s.network.tasks.pool.call = none
  returned : s.network.tasks.pool.returned = []

/-- Every step keeps the channel and the network joined. -/
theorem Server.Joined.step {s t : Server n m} (h : s.Joined) (ht : s.Step split t) : t.Joined := by
  cases ht with
  | threads op threads hop hthreads =>
    refine ⟨h.ordered.step (fun j e => ?_) (Pipeline.front_step _ hop hthreads), h.given,
      h.call, h.returned⟩
    rw [e] at hop
    exact hop
  | workers threads hspliters hqueue hmain =>
    refine ⟨?_, h.given, h.call, h.returned⟩
    have hsame : threads.front s.received = s.threads.front s.received := by
      simp only [Pipeline.front, hspliters, hqueue, hmain]
    exact hsame ▸ h.ordered
  | received c queue network hloop hqueue hnetwork =>
    obtain ⟨tasks, htasks, rfl⟩ := Option.map_eq_some_iff.mp hnetwork
    obtain ⟨hpool, -⟩ := decodeStep_kept htasks
    refine ⟨?_, ?_, (congrArg Pool.call hpool).trans h.call,
      (congrArg Pool.returned hpool).trans h.returned⟩
    · have hsame : Pipeline.front (s.received ++ [c]) { s.threads with queue } =
          s.threads.front s.received := by
        simp only [Pipeline.front, hqueue, List.append_assoc, List.singleton_append]
      exact hsame ▸ h.ordered
    · rw [List.map_append, List.map_singleton, ← h.given]
  | network op network hop hnetwork =>
    have hkept := Network.kept_of_step hop hnetwork
    exact ⟨h.ordered, hkept.given.trans h.given, hkept.call.trans h.call,
      hkept.returned.trans h.returned⟩
  | _ => exact ⟨h.ordered, h.given, h.call, h.returned⟩

/-- INTERNAL: **what the splitters have sent is what `decode` was given.**
SRC: server.rs:77-127 -/
theorem serverProgram_joined [NeZero L] {s : Setup n L (Server n m)}
    (hs : (serverProgram n m L outLen split).Reachable s) : s.processor.Joined := by
  refine Machine.invariant _ (P := fun s : Setup n L (Server n m) => s.processor.Joined)
    ⟨fun _ => rfl, rfl, rfl, rfl⟩ (fun s op t h ht => ?_) hs
  obtain hsame | ⟨i, d, threads, hthreads, hproc⟩ | hstep := serverProgram_step ht
  · exact hsame ▸ h
  · rw [hproc]
    refine ⟨?_, h.given, h.call, h.returned⟩
    have hfront : (pipelineMachine n split fun _ => []).step
        (s.processor.threads.front s.processor.received) (.processor i d) =
          some (threads.front s.processor.received) := Pipeline.front_processor _ hthreads
    exact h.ordered.step (by simp) hfront
  · exact h.step hstep

end PtkGenerator

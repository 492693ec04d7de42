import PtkGenerator.Analysis.OnlineEnds
import PtkGenerator.Analysis.ServerPanics

/-!
# `server` ends after Ctrl-C

`main` waits for its splitters and for workers that do nothing, and for nobody else.  A splitter
never waits to send: the channel has room, and without a receiver the send panics, which `main`
learns when it joins.  So whatever the clients do and the task of the pool does not do, `main` comes
to its end after Ctrl-C, by its return or by a panic; what is still with the pool is then left
there.
-/

set_option autoImplicit false

namespace PtkGenerator

open Families

variable {n m L outLen : ℕ} {split : Bytes → List ℕ}

/-- The steps of `main` and of the threads: neither the handler of Ctrl-C nor the tasks of the pool
and the clients. -/
def ServerOp.own : ServerOp n m → Bool
  | .ctrlC => false
  | .startServer _ => false
  | .poolRecv => false
  | .poolEnd => false
  | .network _ => false
  | _ => true

/-- A step of `main` or of one of its threads. -/
def ProgramOp.ownOfServer : ProgramOp n (ServerOp n m) → Bool
  | .write _ _ => false
  | .loop => true
  | .beside op => op.own

/-! ## The measure -/

/-- What the threads may still do, also those that can panic, and `main` behind its joins. -/
def Server.work (s : Server n m) : ℕ :=
  s.threads.work + ∑ i, (!s.crashed i).toNat + (!s.exited).toNat

/-- What `main` and the threads may still do after Ctrl-C. -/
def Setup.serverWork (outLen : ℕ) (s : Setup n L (Server n m)) : ℕ :=
  s.capture.work outLen + s.processor.work + (!s.panicked).toNat

namespace Server

/-- The work of the server changes with that of its threads. -/
theorem work_withThreads (s : Server n m) (threads : Pipeline n) :
    (s.withThreads threads).work + s.threads.work = s.work + threads.work := by
  simp only [work, withThreads]
  omega

/-- Threads with less to do leave the server less. -/
theorem work_lt_of_threads {s : Server n m} {threads : Pipeline n}
    (h : threads.work < s.threads.work) : (s.withThreads threads).work < s.work := by
  have hwith := s.work_withThreads threads
  omega

/-- The end of `main` leaves less. -/
theorem work_exit {s : Server n m} (h : s.exited = false) :
    ({ s with exited := true } : Server n m).work < s.work := by
  simp only [work, h, Bool.not_true, Bool.not_false, Bool.toNat_true, Bool.toNat_false]
  omega

/-- A splitter that panics leaves less. -/
theorem work_crash {s : Server n m} {i : Fin n} (h : s.crashed i = false) :
    ({ s with crashed := Function.update s.crashed i true } : Server n m).work < s.work := by
  have hsum := sum_update_swap (fun _ (c : Bool) => (!c).toNat) s.crashed i true
  simp only [work, h, Bool.not_true, Bool.not_false, Bool.toNat_true, Bool.toNat_false] at hsum ⊢
  omega

/-- A step of the threads or of `main`, as long as `main` is not over. -/
theorem work_own (hsplit : SplitOffsets split) {s : Setup n L (Server n m)} {op : ServerOp n m}
    {p : Server n m} (hne : s.processor.threads.NoEmptyChunk) (hop : op.own = true)
    (h : serverBeside split s op = some p) : p.work < s.processor.work := by
  obtain ⟨hover, h⟩ := Option.ite_none_left_eq_some.mp h
  rw [not_or, Bool.not_eq_true, Bool.not_eq_true] at hover
  have hthreads : ∀ (o : PipelineOp n) {threads : Pipeline n}, (∀ i d, o ≠ .processor i d) →
      (pipelineMachine n split fun _ => []).step s.processor.threads o = some threads →
        (s.processor.withThreads threads).work < s.processor.work :=
    fun _ _ ho hstep => work_lt_of_threads (Pipeline.work_lt hsplit hne ho hstep)
  cases op with
  | stop =>
    obtain ⟨-, h⟩ := Option.ite_none_right_eq_some.mp h
    obtain ⟨threads, hstep, rfl⟩ := Option.map_eq_some_iff.mp h
    exact hthreads .stop (by simp) hstep
  | dropTx =>
    obtain ⟨threads, hstep, rfl⟩ := Option.map_eq_some_iff.mp h
    exact hthreads .dropTx (by simp) hstep
  | joinSpliter =>
    simp only [joinSpliter] at h
    split at h
    · obtain rfl := Option.some.inj h
      exact work_exit hover.2
    · obtain ⟨threads, hstep, rfl⟩ := Option.map_eq_some_iff.mp h
      exact hthreads .joinSpliter (by simp) hstep
  | joinWorker =>
    obtain ⟨threads, hstep, rfl⟩ := Option.map_eq_some_iff.mp h
    exact hthreads .joinWorker (by simp) hstep
  | ret =>
    obtain ⟨-, h⟩ := Option.ite_none_right_eq_some.mp h
    obtain rfl := Option.some.inj h
    exact work_exit hover.2
  | spliterRecv i =>
    obtain ⟨-, h⟩ := Option.ite_none_left_eq_some.mp h
    obtain ⟨threads, hstep, rfl⟩ := Option.map_eq_some_iff.mp h
    exact hthreads (.spliterRecv i) (by simp) hstep
  | spliterSend i =>
    obtain ⟨hcrashed, h⟩ := Option.ite_none_left_eq_some.mp h
    split at h
    · obtain ⟨threads, hstep, rfl⟩ := Option.map_eq_some_iff.mp h
      exact hthreads (.spliterSend i) (by simp) hstep
    · obtain ⟨-, h⟩ := Option.ite_none_left_eq_some.mp h
      obtain rfl := Option.some.inj h
      exact work_crash (Bool.eq_false_iff.mpr hcrashed)
  | spliterEnd i =>
    obtain ⟨-, h⟩ := Option.ite_none_left_eq_some.mp h
    obtain ⟨threads, hstep, rfl⟩ := Option.map_eq_some_iff.mp h
    exact hthreads (.spliterEnd i) (by simp) hstep
  | workerEnd j =>
    obtain ⟨hend, h⟩ := Option.ite_none_right_eq_some.mp h
    obtain rfl := Option.some.inj h
    refine work_lt_of_threads (Nat.lt_of_succ_le (Pipeline.work_setWorker (k := 1) ?_).le)
    simp only [Worker.work, hend, if_true, Bool.false_eq_true, if_false]
    omega
  | ctrlC => cases hop
  | startServer ok => cases hop
  | poolRecv => cases hop
  | poolEnd => cases hop
  | network op => cases hop

/-- What the tasks of the pool and the clients do leaves the threads what they have to do, or takes
a chunk out of the channel. -/
theorem work_other {s : Setup n L (Server n m)} {op : ServerOp n m} {p : Server n m}
    (hop : op.own = false) (h : serverBeside split s op = some p) :
    p.work ≤ s.processor.work := by
  obtain ⟨-, h⟩ := Option.ite_none_left_eq_some.mp h
  cases op with
  | ctrlC =>
    obtain rfl := Option.some.inj h
    exact le_rfl
  | startServer ok =>
    obtain ⟨-, h⟩ := Option.ite_none_right_eq_some.mp h
    obtain rfl := Option.some.inj h
    exact le_rfl
  | poolRecv =>
    simp only [poolRecv] at h
    split at h
    · next c queue hloop hqueue =>
      obtain ⟨network, -, rfl⟩ := Option.map_eq_some_iff.mp h
      simp only [work, Pipeline.work, hqueue, List.length_cons]
      omega
    · cases h
  | poolEnd =>
    obtain ⟨-, h⟩ := Option.ite_none_right_eq_some.mp h
    obtain rfl := Option.some.inj h
    exact le_rfl
  | network op =>
    obtain ⟨-, h⟩ := Option.ite_none_right_eq_some.mp h
    obtain ⟨network, -, rfl⟩ := Option.map_eq_some_iff.mp h
    exact le_rfl
  | _ => cases hop

end Server

/-! ## `main` is never stuck -/

namespace Server

/-- The thread of a splitter can take a step when `main` has dropped its sender. -/
theorem exists_spliter_step (hsplit : SplitOffsets split) {s : Setup n L (Server n m)}
    (hlives : ¬(s.panicked = true ∨ s.processor.exited = true)) {i : Fin n}
    (hcrashed : s.processor.crashed i = false)
    (halive : (s.processor.threads.spliters i).txAlive = false)
    (hend : (s.processor.threads.spliters i).ended = false) :
    ∃ op : ServerOp n m, op.own = true ∧ (serverBeside split s op).isSome = true := by
  obtain ⟨o, ho, hstep⟩ : ∃ o : PipelineOp n,
      (o = .spliterRecv i ∨ o = .spliterSend i ∨ o = .spliterEnd i) ∧
        ((pipelineMachine n split fun _ => []).step s.processor.threads o).isSome :=
    Pipeline.exists_step_spliter hsplit halive hend
  rcases ho with rfl | rfl | rfl
  · refine ⟨.spliterRecv i, rfl, ?_⟩
    simp only [serverBeside, if_neg hlives, hcrashed, Bool.false_eq_true, if_false,
      Option.isSome_map]
    exact hstep
  · refine ⟨.spliterSend i, rfl, ?_⟩
    simp only [serverBeside, if_neg hlives, spliterSend, hcrashed, Bool.false_eq_true, if_false]
    split
    · rw [Option.isSome_map]
      exact hstep
    · split
      · next hnil =>
        simp only [pipelineMachine, Pipeline.spliterSend, hnil] at hstep
        cases hstep
      · rfl
  · refine ⟨.spliterEnd i, rfl, ?_⟩
    simp only [serverBeside, if_neg hlives, hcrashed, Bool.false_eq_true, if_false,
      Option.isSome_map]
    exact hstep

/-- `main` behind the capture joins, or the thread that it waits for can take a step. -/
theorem exists_main_step (hsplit : SplitOffsets split) {s : Setup n L (Server n m)}
    (hlives : ¬(s.panicked = true ∨ s.processor.exited = true))
    (hret : s.capture.phase = .returned) :
    ∃ op : ServerOp n m, op.own = true ∧ (serverBeside split s op).isSome = true := by
  cases hm : s.processor.threads.main with
  | collecting =>
    refine ⟨.stop, rfl, ?_⟩
    simp only [serverBeside, if_neg hlives, if_pos hret, Pipeline.stop, if_pos hm]
    rfl
  | completed =>
    refine ⟨.ret, rfl, ?_⟩
    simp only [serverBeside, if_neg hlives, if_pos hm]
    rfl
  | waitSpliter i =>
    by_cases hi : i < n
    · cases halive : (s.processor.threads.spliters ⟨i, hi⟩).txAlive with
      | true =>
        refine ⟨.dropTx, rfl, ?_⟩
        simp only [serverBeside, if_neg hlives, Pipeline.dropTx, hm, dif_pos hi, halive, if_true]
        rfl
      | false =>
        cases hcrashed : s.processor.crashed ⟨i, hi⟩ with
        | true =>
          refine ⟨.joinSpliter, rfl, ?_⟩
          simp only [serverBeside, if_neg hlives, joinSpliter, joinsCrashed, hm, dif_pos hi,
            hcrashed, halive, Bool.not_false, Bool.and_self, if_true]
          rfl
        | false =>
          cases hend : (s.processor.threads.spliters ⟨i, hi⟩).ended with
          | false => exact exists_spliter_step hsplit hlives hcrashed halive hend
          | true =>
            refine ⟨.joinSpliter, rfl, ?_⟩
            simp only [serverBeside, if_neg hlives, joinSpliter, joinsCrashed, hm, dif_pos hi,
              hcrashed, Bool.false_and, Bool.false_eq_true, if_false, Option.isSome_map,
              Pipeline.joinSpliter]
            rw [if_pos ⟨halive, hend⟩]
            rfl
    · refine ⟨.joinSpliter, rfl, ?_⟩
      simp only [serverBeside, if_neg hlives, joinSpliter, joinsCrashed, hm, dif_neg hi,
        Bool.false_eq_true, if_false, Option.isSome_map, Pipeline.joinSpliter]
      rfl
  | waitWorker j =>
    by_cases hj : j < n - 1
    · cases hend : (s.processor.threads.workers ⟨j, hj⟩).ended with
      | false =>
        refine ⟨.workerEnd ⟨j, hj⟩, rfl, ?_⟩
        simp only [serverBeside, if_neg hlives, workerEnd, if_pos hend]
        rfl
      | true =>
        refine ⟨.joinWorker, rfl, ?_⟩
        simp only [serverBeside, if_neg hlives, Option.isSome_map, Pipeline.joinWorker, hm,
          dif_pos hj, if_pos hend]
        rfl
    · refine ⟨.joinWorker, rfl, ?_⟩
      simp only [serverBeside, if_neg hlives, Option.isSome_map, Pipeline.joinWorker, hm,
        dif_neg hj]
      rfl

end Server

/-! ## The steps of the program -/

variable [NeZero L]

/-- Nothing takes Ctrl-C back. -/
theorem serverProgram_gStop {s t : Setup n L (Server n m)} {op : ProgramOp n (ServerOp n m)}
    (hstop : s.processor.gStop = true)
    (hstep : (serverProgram n m L outLen split).step s op = some t) :
    t.processor.gStop = true := by
  obtain hsame | ⟨i, d, threads, -, hproc⟩ | hbeside := serverProgram_step hstep
  · rw [hsame]
    exact hstop
  · rw [hproc]
    exact hstop
  · generalize t.processor = p at hbeside
    cases hbeside with
    | ctrlC => rfl
    | _ => exact hstop

/-- The channel of the threads holds no empty chunk. -/
theorem serverProgram_noEmptyChunk (hsplit : SplitOffsets split) {s : Setup n L (Server n m)}
    (hs : (serverProgram n m L outLen split).Reachable s) : s.processor.threads.NoEmptyChunk :=
  show (s.processor.threads.front s.processor.received).NoEmptyChunk from
    Pipeline.noEmptyChunk hsplit
      ((serverProgram_mapsTo_pipeline n m L outLen split).reachable hs)

/-- INTERNAL: **a step of the loop brings the end nearer**, also when it feeds a splitter, or
panics because the splitter did.
SRC: server.rs:139-153, pt_ctrl/mod.rs:284-308, 334-352 -/
theorem serverWork_loop (hmax : n ≤ maxCpuNum) (hn : 0 < n) {s t : Setup n L (Server n m)}
    (hs : (serverProgram n m L outLen split).Reachable s) (hstop : s.processor.gStop = true)
    (hstep : (serverProgram n m L outLen split).step s .loop = some t) :
    t.serverWork outLen < s.serverWork outLen := by
  obtain ⟨⟨-, hrunning⟩, hnext⟩ := Option.ite_none_right_eq_some.mp hstep
  obtain rfl := Option.some.inj hnext
  rw [Setup.running, Bool.and_eq_true, decide_eq_true_eq, Bool.not_eq_true'] at hrunning
  have hok := serverProgram_ok hn hmax hs
  obtain ⟨hinv, hlen⟩ := captureProgram_inv hs
  cases hphase : s.capture.phase with
  | fetching k =>
    obtain ⟨c, hc⟩ := Capture.iterate_isSome hphase hok.i_lt
    have hlt := Capture.work_iterate hinv hc
    rw [hlen] at hlt
    rw [Setup.next_of_iterate hphase (hok.i_lt.trans_le hmax) hc]
    exact Nat.add_lt_add_right (Nat.add_lt_add_right hlt _) _
  | handing r =>
    cases hp : serverProcessor n m s.processor s.capture.i s.capture.tmpBuff r with
    | none =>
      simp only [Setup.next, hphase, Setup.call, hp, Setup.serverWork, hrunning.1, Bool.not_true,
        Bool.not_false, Bool.toNat_true, Bool.toNat_false]
      omega
    | some result =>
      obtain ⟨p, answer⟩ := result
      obtain ⟨hi, threads, hthreads, rfl, hanswer⟩ := serverProcessor_eq_some hp
      obtain ⟨c, hc⟩ := Capture.process_isSome hphase hok.i_lt answer
      rw [Setup.next_of_process hphase hp hc]
      rw [hanswer, hstop, Bool.not_true] at hc
      have hlt : c.work outLen + (4 * outLen + 1) < s.capture.work outLen :=
        Capture.work_process (captureProgram_flagsDown hs) hc
      have hfed := Pipeline.work_processor (show (pipelineMachine n split fun _ => []).step _
        (.processor _ _) = some threads from hthreads)
      have htake : (s.capture.tmpBuff.take r).length ≤ outLen := by
        rw [List.length_take, hlen]
        exact Nat.min_le_right _ _
      have hwith := s.processor.work_withThreads threads
      simp only [Setup.serverWork]
      omega
  | returned => exact absurd hphase hrunning.2

/-- What the others do adds no work. -/
theorem serverWork_other {s t : Setup n L (Server n m)} {op : ProgramOp n (ServerOp n m)}
    (hop : op.ownOfServer = false)
    (hstep : (serverProgram n m L outLen split).step s op = some t) :
    t.serverWork outLen ≤ s.serverWork outLen := by
  cases op with
  | write b x =>
    obtain ⟨c, hc, rfl⟩ := Option.map_eq_some_iff.mp hstep
    rw [Setup.serverWork, Capture.work_write hc]
    exact le_rfl
  | loop => cases hop
  | beside op =>
    obtain ⟨p, hp, rfl⟩ := Option.map_eq_some_iff.mp hstep
    exact Nat.add_le_add_right (Nat.add_le_add_left (Server.work_other hop hp) _) _

/-- INTERNAL: **each step of `main` and of the threads brings the end nearer.**
SRC: server.rs:38-56, 98-153, 249-283, pt_ctrl/mod.rs:284-308, 334-352 -/
theorem serverWork_own (hsplit : SplitOffsets split) (hn : 0 < n) (hmax : n ≤ maxCpuNum)
    {s t : Setup n L (Server n m)} (hs : (serverProgram n m L outLen split).Reachable s)
    (hstop : s.processor.gStop = true) {op : ProgramOp n (ServerOp n m)}
    (hop : op.ownOfServer = true)
    (hstep : (serverProgram n m L outLen split).step s op = some t) :
    t.serverWork outLen < s.serverWork outLen := by
  cases op with
  | write b x => cases hop
  | loop => exact serverWork_loop hmax hn hs hstop hstep
  | beside op =>
    obtain ⟨p, hp, rfl⟩ := Option.map_eq_some_iff.mp hstep
    have hlt := Server.work_own hsplit (serverProgram_noEmptyChunk hsplit hs) hop hp
    exact Nat.add_lt_add_right (Nat.add_lt_add_left hlt _) _

/-- INTERNAL: **`main` is over, or it or a thread can take a step.**
SRC: server.rs:249-283, 344-437 -/
theorem exists_server_step (hsplit : SplitOffsets split) {s : Setup n L (Server n m)}
    (hpanicked : s.panicked = false) (hover : s.processor.exited = false) :
    ∃ op, ProgramOp.ownOfServer op = true ∧
      ((serverProgram n m L outLen split).step s op).isSome := by
  have hlives : ¬(s.panicked = true ∨ s.processor.exited = true) := by
    rw [hpanicked, hover]
    simp
  by_cases hret : s.capture.phase = .returned
  · obtain ⟨op, hop, hstep⟩ := Server.exists_main_step hsplit hlives hret
    refine ⟨.beside op, hop, ?_⟩
    simp only [serverProgram, captureProgram, Option.isSome_map]
    exact hstep
  · refine ⟨.loop, rfl, ?_⟩
    have hrunning : s.running = true := by
      rw [Setup.running, hpanicked, Bool.not_false, Bool.true_and, decide_eq_true_eq]
      exact hret
    simp only [serverProgram, captureProgram]
    rw [if_pos ⟨trivial, hrunning⟩]
    rfl

/-- MAIN: **`server` ends after Ctrl-C, whatever its clients do.**  With no more CPUs than the
answer of the driver has room for: from any state in which Ctrl-C was pressed, `main` and the
threads take no more than so many steps together, in every run, however the driver, the task of the
pool and the clients go on or do not; and until `main` is over, by its return or by a panic, one of
them can take a step.
SRC: server.rs:38-153, 249-283, 344-437, pt_ctrl/mod.rs:284-354 -/
theorem server_ends_after_ctrlC (hsplit : SplitOffsets split) (hn : 0 < n) (hmax : n ≤ maxCpuNum)
    {s : Setup n L (Server n m)} (hs : (serverProgram n m L outLen split).Reachable s)
    (hstop : s.processor.gStop = true) {ops : List (ProgramOp n (ServerOp n m))}
    {t : Setup n L (Server n m)} (ht : (serverProgram n m L outLen split).exec s ops = some t) :
    ops.countP ProgramOp.ownOfServer ≤ s.serverWork outLen ∧
      (t.panicked = false → t.processor.exited = false →
        ∃ op, ProgramOp.ownOfServer op = true ∧
          ((serverProgram n m L outLen split).step t op).isSome) := by
  refine ⟨?_, exists_server_step hsplit⟩
  refine (Nat.le_add_right _ (t.serverWork outLen)).trans ?_
  refine Machine.countP_add_le _ (I := fun s : Setup n L (Server n m) =>
    (serverProgram n m L outLen split).Reachable s ∧ s.processor.gStop = true)
    ?_ ?_ ?_ ⟨hs, hstop⟩ ht
  · rintro s op t ⟨hs, hstop⟩ hstep
    exact ⟨hs.step _ hstep, serverProgram_gStop hstop hstep⟩
  · rintro s op t ⟨hs, hstop⟩ hop hstep
    exact serverWork_own hsplit hn hmax hs hstop hop hstep
  · rintro s op t - hop hstep
    exact serverWork_other hop hstep

/-- Ctrl-C with a piece of the stream in the splitter, and no client ever connects. -/
def ctrlCFirstServer : List (ProgramOp 2 (ServerOp 2 2)) :=
  writes 0 (psbPlus ++ [0x06] ++ psbPlus) ++ List.replicate 39 .loop ++
    ([.spliterRecv 0, .ctrlC] : List (ServerOp 2 2)).map fun op => .beside op

/-- Ctrl-C is pressed with one chunk in the splitter; `main` and the threads take 1133 steps at
most. -/
theorem server_ends_after_ctrlC_oneChunk :
    ∃ s, (serverProgram 2 2 64 64 psbSplit).exec (serverProgram 2 2 64 64 psbSplit).init
        ctrlCFirstServer = some s ∧
      (s.processor.threads.spliters 0).outgoing = [psbPlus ++ [0x06]] ∧
      ∀ ops t, (serverProgram 2 2 64 64 psbSplit).exec s ops = some t →
        ops.countP ProgramOp.ownOfServer ≤ 1133 := by
  have hrun : ∃ s ∈ (serverProgram 2 2 64 64 psbSplit).exec (serverProgram 2 2 64 64 psbSplit).init
      ctrlCFirstServer, s.processor.gStop = true ∧
        (s.processor.threads.spliters 0).outgoing = [psbPlus ++ [0x06]] ∧
        s.serverWork 64 = 1133 := by decide +kernel
  obtain ⟨s, hs, hstop, houtgoing, hwork⟩ := hrun
  refine ⟨s, hs, houtgoing, fun ops t ht => ?_⟩
  have h := (server_ends_after_ctrlC psbSplit_spec.toSplitOffsets (by decide) (by decide)
    ⟨_, hs⟩ hstop ht).1
  rwa [hwork] at h

end PtkGenerator

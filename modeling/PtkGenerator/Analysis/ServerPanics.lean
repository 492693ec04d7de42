import PtkGenerator.Analysis.ServerStreams

/-!
# The panics of the server

The `unwrap` of a send panics when the receiver is gone, and the task of the pool has the only one
of the channel.  It lets go of it when the splitters have ended, or when it is lost: it has found no
address to listen on, or `decode` has panicked.  So a splitter panics only after that, and `main`
only after a splitter; and a lost pool is given no more chunks.
-/

set_option autoImplicit false

namespace PtkGenerator

variable {n m L outLen : ℕ} {split : Bytes → List ℕ}

namespace Server

/-- What holds of the threads of the server, whatever `main` does. -/
structure Sound (s : Server n m) : Prop where
  crashed : ∀ i, s.crashed i = true → s.PoolLost
  exited : s.exited = true → s.threads.main = .completed ∨ s.PoolLost
  ended : s.poolLoop = .ended → ∀ i, (s.threads.spliters i).ended = true ∨ s.crashed i = true

/-- A lost pool stays lost, and is given no chunk. -/
theorem PoolLost.step {s t : Server n m} (h : s.PoolLost) (ht : s.Step split t) :
    t.PoolLost ∧ t.received = s.received := by
  cases ht with
  | started ok hloop =>
    refine ⟨?_, rfl⟩
    rcases h with hfailed | hpanics
    · cases hfailed.symm.trans hloop
    · exact .inr hpanics
  | received c queue network hloop hqueue hnetwork =>
    obtain ⟨tasks, htasks, -⟩ := Option.map_eq_some_iff.mp hnetwork
    rcases h with hfailed | hpanics
    · cases hfailed.symm.trans hloop
    · cases hpanics.symm.trans (decodeStep_kept htasks).2
  | ended hloop =>
    refine ⟨?_, rfl⟩
    rcases h with hfailed | hpanics
    · cases hfailed.symm.trans hloop
    · exact .inr hpanics
  | network op network hop hnetwork =>
    exact ⟨h.imp id (Network.kept_of_step hop hnetwork).panics, rfl⟩
  | _ => exact ⟨h, rfl⟩

end Server

/-! ## The threads -/

/-- A splitter that has ended stays so. -/
theorem Pipeline.ended_step {s t : Pipeline n} {op : PipelineOp n}
    (h : (pipelineMachine n split fun _ => []).step s op = some t) {i : Fin n}
    (hended : (s.spliters i).ended = true) : (t.spliters i).ended = true := by
  have hset : ∀ (j : Fin n) (sp : Spliter), ((s.spliters j).ended = true → sp.ended = true) →
      (Function.update s.spliters j sp i).ended = true := by
    intro j sp hsp
    by_cases hij : i = j
    · subst hij
      rw [Function.update_self]
      exact hsp hended
    · rw [Function.update_of_ne hij]
      exact hended
  cases step_cases h with
  | fed j => exact hset j _ id
  | dropTx j hj => exact hset ⟨j, hj⟩ _ id
  | spliterRecv j => exact hset j _ id
  | spliterSend j => exact hset j _ id
  | spliterEnd j => exact hset j _ fun _ => rfl
  | _ => exact hended

namespace Server

/-- INTERNAL: the steps beside the capture, while `main` is not over. -/
theorem Sound.step {s t : Server n m} (h : s.Sound) (hover : s.exited = false)
    (hout : ∀ i, (s.threads.spliters i).ended = true → (s.threads.spliters i).outgoing = [])
    (ht : s.Step split t) : t.Sound := by
  have hvacuous : ∀ b : Bool, b = false → ∀ q : Prop, b = true → q := by
    intro b hb q hb'
    rw [hb] at hb'
    cases hb'
  have hlost : s.PoolLost → t.PoolLost := fun hl => (hl.step ht).1
  cases ht with
  | threads op threads hop hthreads =>
    refine ⟨fun i hi => hlost (h.crashed i hi), hvacuous _ hover _, fun hloop i => ?_⟩
    exact (h.ended hloop i).imp (Pipeline.ended_step hthreads) id
  | workers threads hspliters hqueue hmain =>
    refine ⟨fun i hi => hlost (h.crashed i hi), hvacuous _ hover _, fun hloop i => ?_⟩
    rw [withThreads, hspliters]
    exact h.ended hloop i
  | crash i halive hcrashed houtgoing =>
    have hgone : s.PoolLost := by
      unfold receiverAlive at halive
      split at halive
      · cases halive
      · exact .inr (by simpa using halive)
      · next hloop =>
        rcases h.ended hloop i with hended | hc
        · exact absurd (hout i hended) houtgoing
        · cases hcrashed.symm.trans hc
      · next hloop => exact .inl hloop
    refine ⟨fun _ _ => hgone, hvacuous _ hover _, fun hloop j => ?_⟩
    by_cases hj : j = i
    · subst hj
      exact .inr (Function.update_self ..)
    · exact (h.ended hloop j).imp id fun hc => (Function.update_of_ne hj ..).trans hc
  | started ok hloop =>
    refine ⟨fun i hi => hlost (h.crashed i hi), hvacuous _ hover _, fun he => ?_⟩
    cases ok <;> cases he
  | received c queue network hloop =>
    exact ⟨fun i hi => hlost (h.crashed i hi), hvacuous _ hover _, h.ended⟩
  | ended hloop hall =>
    exact ⟨fun i hi => hlost (h.crashed i hi), hvacuous _ hover _, fun _ => hall⟩
  | network op network =>
    exact ⟨fun i hi => hlost (h.crashed i hi), hvacuous _ hover _, h.ended⟩
  | ctrlC => exact ⟨h.crashed, hvacuous _ hover _, h.ended⟩
  | crashedJoin i hi => exact ⟨h.crashed, fun _ => .inr (h.crashed i hi), h.ended⟩
  | ret hdone => exact ⟨h.crashed, fun _ => .inl hdone, h.ended⟩

end Server

/-! ## `main` -/

/-- `main` leaves the loop over the rings only when the capture has returned. -/
theorem serverBeside_main {s : Setup n L (Server n m)} {op : ServerOp n m} {p : Server n m}
    (h : serverBeside split s op = some p) (hm : s.processor.threads.main = .collecting)
    (hne : p.threads.main ≠ .collecting) : s.capture.phase = .returned := by
  have hmain : ∀ (o : PipelineOp n) threads, o ≠ .stop →
      (pipelineMachine n split fun _ => []).step s.processor.threads o = some threads →
      p = s.processor.withThreads threads → s.capture.phase = .returned := by
    rintro o threads ho hstep rfl
    exact absurd (main_step hm ho hstep) hne
  obtain ⟨-, h⟩ := Option.ite_none_left_eq_some.mp h
  cases op with
  | stop => exact (Option.ite_none_right_eq_some.mp h).1
  | dropTx =>
    obtain ⟨threads, hthreads, rfl⟩ := Option.map_eq_some_iff.mp h
    exact hmain .dropTx threads (by simp) hthreads rfl
  | joinSpliter =>
    simp only [Server.joinSpliter] at h
    split at h
    · obtain rfl := Option.some.inj h
      exact absurd hm hne
    · obtain ⟨threads, hthreads, rfl⟩ := Option.map_eq_some_iff.mp h
      exact hmain .joinSpliter threads (by simp) hthreads rfl
  | joinWorker =>
    obtain ⟨threads, hthreads, rfl⟩ := Option.map_eq_some_iff.mp h
    exact hmain .joinWorker threads (by simp) hthreads rfl
  | spliterRecv i =>
    obtain ⟨-, h⟩ := Option.ite_none_left_eq_some.mp h
    obtain ⟨threads, hthreads, rfl⟩ := Option.map_eq_some_iff.mp h
    exact hmain (.spliterRecv i) threads (by simp) hthreads rfl
  | spliterEnd i =>
    obtain ⟨-, h⟩ := Option.ite_none_left_eq_some.mp h
    obtain ⟨threads, hthreads, rfl⟩ := Option.map_eq_some_iff.mp h
    exact hmain (.spliterEnd i) threads (by simp) hthreads rfl
  | spliterSend i =>
    obtain ⟨-, h⟩ := Option.ite_none_left_eq_some.mp h
    split at h
    · obtain ⟨threads, hthreads, rfl⟩ := Option.map_eq_some_iff.mp h
      exact hmain (.spliterSend i) threads (by simp) hthreads rfl
    · obtain ⟨-, h⟩ := Option.ite_none_left_eq_some.mp h
      obtain rfl := Option.some.inj h
      exact absurd hm hne
  | poolRecv =>
    simp only [Server.poolRecv] at h
    split at h
    · obtain ⟨network, -, rfl⟩ := Option.map_eq_some_iff.mp h
      exact absurd hm hne
    · cases h
  | network op =>
    obtain ⟨-, h⟩ := Option.ite_none_right_eq_some.mp h
    obtain ⟨network, -, rfl⟩ := Option.map_eq_some_iff.mp h
    exact absurd hm hne
  | ctrlC =>
    obtain rfl := Option.some.inj h
    exact absurd hm hne
  | _ =>
    obtain ⟨-, h⟩ := Option.ite_none_right_eq_some.mp h
    obtain rfl := Option.some.inj h
    exact absurd hm hne

/-- `main` is in the loop or behind it, and panics for a splitter that did. -/
structure ServerOk (s : Setup n L (Server n m)) : Prop where
  sound : s.processor.Sound
  panicked : s.panicked = true → s.processor.PoolLost
  i_lt : s.capture.i < n
  main : s.processor.threads.main ≠ .collecting → s.capture.phase = .returned

/-- The processor panics only for a splitter that did. -/
theorem ServerOk.lost_of_panic [NeZero L] {s : Setup n L (Server n m)} (hok : ServerOk s)
    (hinv : s.capture.Inv) {r : ℕ} (hphase : s.capture.phase = .handing r)
    (hp : serverProcessor n m s.processor s.capture.i s.capture.tmpBuff r = none) :
    s.processor.PoolLost := by
  have hmain : s.processor.threads.main = .collecting := by
    by_contra hne
    cases hphase.symm.trans (hok.main hne)
  have hr : r ≤ s.capture.tmpBuff.length := by
    have hle := hinv.copied_le
    rwa [hphase, Phase.copied] at hle
  by_contra hlost
  have hcrashed : ¬(0 < r ∧ s.processor.crashed ⟨s.capture.i, hok.i_lt⟩ = true) :=
    fun hc => hlost (hok.sound.crashed _ hc.2)
  rw [serverProcessor, dif_pos hok.i_lt, if_pos hr, if_neg hcrashed, Option.map_eq_none_iff,
    Pipeline.processor, if_pos hmain] at hp
  split at hp
  · cases hp
  · cases hp

/-- What is fed to the splitters changes nothing about who has panicked. -/
theorem Server.Sound.processor {s : Server n m} (h : s.Sound) {i : Fin n} {d : Bytes}
    {threads : Pipeline n} (ht : s.threads.processor i d = some threads) :
    (s.withThreads threads).Sound := by
  have hstep : (pipelineMachine n (fun _ => []) fun _ => []).step s.threads (.processor i d) =
      some threads := ht
  refine ⟨h.crashed, fun hover => ?_, fun hloop j => ?_⟩
  · rcases h.exited hover with hdone | hlost
    · obtain ⟨hm, -⟩ := Option.ite_none_right_eq_some.mp ht
      cases hm.symm.trans hdone
    · exact .inr hlost
  · exact (h.ended hloop j).imp (Pipeline.ended_step hstep) id

/-- The loop of the capture goes on with sound threads. -/
theorem ServerOk.loop [NeZero L] (hmax : n ≤ maxCpuNum) {s : Setup n L (Server n m)}
    (hok : ServerOk s) (hinv : s.capture.Inv) (hne : s.capture.phase ≠ .returned) :
    ServerOk (s.next (serverProcessor n m)) := by
  have hmain : s.processor.threads.main = .collecting := by
    by_contra hm
    exact hne (hok.main hm)
  cases hphase : s.capture.phase with
  | fetching k =>
    obtain ⟨c, hc⟩ := Capture.iterate_isSome hphase hok.i_lt
    rw [Setup.next_of_iterate hphase (hok.i_lt.trans_le hmax) hc]
    refine ⟨hok.sound, hok.panicked, ?_, fun hm => absurd hmain hm⟩
    obtain ⟨k, hi, -, ⟨-, -, rfl⟩ | ⟨-, rfl⟩⟩ := Capture.iterate_cases hc
    · exact hok.i_lt
    · exact hok.i_lt
  | handing r =>
    cases hp : serverProcessor n m s.processor s.capture.i s.capture.tmpBuff r with
    | none =>
      simp only [Setup.next, hphase, Setup.call, hp]
      exact ⟨hok.sound, fun _ => hok.lost_of_panic hinv hphase hp, hok.i_lt,
        fun hm => absurd hmain hm⟩
    | some result =>
      obtain ⟨t, answer⟩ := result
      obtain ⟨hi, threads, hthreads, rfl, -⟩ := serverProcessor_eq_some hp
      obtain ⟨c, hc⟩ := Capture.process_isSome hphase hok.i_lt answer
      have hstep : (pipelineMachine n (fun _ => []) fun _ => []).step s.processor.threads
          (.processor ⟨s.capture.i, hi⟩ (s.capture.tmpBuff.take r)) = some threads := hthreads
      have hcollecting : threads.main = .collecting := main_step hmain (by simp) hstep
      rw [Setup.next_of_process hphase hp hc]
      exact ⟨hok.sound.processor hthreads, hok.panicked, Capture.process_i_lt hc,
        fun hm => absurd hcollecting hm⟩
  | returned => exact absurd hphase hne

/-- INTERNAL: **every run of the server is in order.**
SRC: server.rs:77-153, 249-283, 344-437 -/
theorem serverProgram_ok [NeZero L] (hn : 0 < n) (hmax : n ≤ maxCpuNum)
    {s : Setup n L (Server n m)} (hs : (serverProgram n m L outLen split).Reachable s) :
    ServerOk s := by
  refine Machine.invariant_of_reachable _ (P := ServerOk) ⟨⟨?_, ?_, ?_⟩, ?_, hn, ?_⟩ ?_ hs
  · exact fun i hi => by cases hi
  · exact fun hover => by cases hover
  · exact fun hloop => by cases hloop
  · exact fun hpanicked => by cases hpanicked
  · exact fun hm => absurd rfl hm
  intro s op t hs hok hstep
  cases op with
  | write b x =>
    obtain ⟨c, hc, rfl⟩ := Option.map_eq_some_iff.mp hstep
    obtain ⟨-, rfl⟩ := Capture.write_cases hc
    exact ⟨hok.sound, hok.panicked, hok.i_lt, hok.main⟩
  | loop =>
    obtain ⟨⟨-, hrunning⟩, hnext⟩ := Option.ite_none_right_eq_some.mp hstep
    obtain rfl := Option.some.inj hnext
    rw [Setup.running, Bool.and_eq_true, decide_eq_true_eq] at hrunning
    exact hok.loop hmax (captureProgram_inv hs).1 hrunning.2
  | beside op =>
    obtain ⟨p, hp, rfl⟩ := Option.map_eq_some_iff.mp hstep
    have hpipe := pipelineMachine_inv
      ((serverProgram_mapsTo_pipeline n m L outLen split).reachable hs)
    have hguard := (Option.ite_none_left_eq_some.mp hp).1
    rw [not_or, Bool.not_eq_true, Bool.not_eq_true] at hguard
    refine ⟨hok.sound.step hguard.2 (fun i hi => ((hpipe.spliters i).ended hi).2.2)
      (serverBeside_step hp), fun hpanicked => ?_, hok.i_lt, fun hne => ?_⟩
    · cases hguard.1.symm.trans hpanicked
    · by_cases hm : s.processor.threads.main = .collecting
      · exact (serverBeside_main hp hm hne : s.capture.phase = .returned)
      · exact hok.main hm

/-- A lost pool is given no chunk in any run. -/
theorem received_of_lost [NeZero L] {s t : Setup n L (Server n m)}
    {ops : List (ProgramOp n (ServerOp n m))} (hlost : s.processor.PoolLost)
    (ht : (serverProgram n m L outLen split).exec s ops = some t) :
    t.processor.PoolLost ∧ t.processor.received = s.processor.received := by
  refine Machine.exec_induct _ (C := fun _ _ => True)
    (P := fun u : Setup n L (Server n m) =>
      u.processor.PoolLost ∧ u.processor.received = s.processor.received)
    (fun u op u' hu _ hstep => ?_) ⟨hlost, rfl⟩
    (Machine.meets_of_forall _ (fun _ _ => trivial) _ _) ht
  obtain hsame | ⟨i, d, threads, -, hproc⟩ | hstep := serverProgram_step hstep
  · exact hsame ▸ hu
  · rw [hproc]
    exact hu
  · obtain ⟨hlost', hreceived⟩ := hu.1.step hstep
    exact ⟨hlost', hreceived.trans hu.2⟩

/-- MAIN: **the server panics only without its pool.**  With no more CPUs than there are buffers
for, `main` and the splitters go on as long as the task of the pool has neither failed to start nor
panicked in `decode`: no slice is out of range, no send and no join meets a thread that has
panicked, and `main` is over when it has waited for all threads.  Once the pool is lost, no chunk
gets to a client in any run.
SRC: server.rs:77-153, 249-283, 344-437, client_pool.rs:68-86, client_agent.rs:205-207 -/
theorem server_panics_without_pool [NeZero L] (hsplit : SplitOffsets split) (hn : 0 < n)
    (hmax : n ≤ maxCpuNum) {s : Setup n L (Server n m)}
    (hs : (serverProgram n m L outLen split).Reachable s) :
    (¬ s.processor.PoolLost → s.panicked = false ∧ (∀ i, s.processor.crashed i = false ∧
        createSpliterThread split (s.processor.threads.spliters i).fed =
          some (s.processor.threads.chunksOf split i)) ∧
      (s.processor.exited = true → s.processor.threads.main = .completed)) ∧
    (s.processor.PoolLost → ∀ ops t, (serverProgram n m L outLen split).exec s ops = some t →
      t.processor.received = s.processor.received) := by
  have hok := serverProgram_ok hn hmax hs
  refine ⟨fun hkept => ⟨?_, fun i => ⟨?_, ?_⟩, fun hover => ?_⟩, fun hlost ops t ht => ?_⟩
  · exact Bool.eq_false_iff.mpr fun h => hkept (hok.panicked h)
  · exact Bool.eq_false_iff.mpr fun h => hkept (hok.sound.crashed i h)
  · exact (s.processor.threads.chunksOf_spec hsplit i).1
  · exact (hok.sound.exited hover).resolve_right hkept
  · exact (received_of_lost hlost ht).2

/-- No address is found to listen on.  The first splitter panics at its first chunk, and `main` at
the next buffer for it. -/
def noAddressRun : List (ProgramOp 2 (ServerOp 2 2)) :=
  writes 0 (psbPlus ++ [0x06] ++ psbPlus) ++ List.replicate 39 .loop ++
    ([.startServer false, .spliterRecv 0, .spliterSend 0] : List (ServerOp 2 2)).map
      (fun op => .beside op) ++ [.write 0 0x06] ++ List.replicate 5 .loop

/-- The server has no address to listen on: its first chunk makes `main` panic, and none goes out.
-/
theorem server_panics_without_pool_noAddress : ∃ s,
    (serverProgram 2 2 64 64 psbSplit).exec (serverProgram 2 2 64 64 psbSplit).init
      noAddressRun = some s ∧ s.panicked = true ∧ ∀ ops t,
        (serverProgram 2 2 64 64 psbSplit).exec s ops = some t → t.processor.received = [] := by
  have hrun : ∃ s ∈ (serverProgram 2 2 64 64 psbSplit).exec
      (serverProgram 2 2 64 64 psbSplit).init noAddressRun,
      s.panicked = true ∧ s.processor.poolLoop = .failed ∧ s.processor.received = [] := by
    decide +kernel
  obtain ⟨s, hs, hpanicked, hfailed, hnone⟩ := hrun
  refine ⟨s, hs, hpanicked, fun ops t ht => ?_⟩
  rw [← hnone]
  exact (server_panics_without_pool psbSplit_spec.toSplitOffsets (by decide) (by decide)
    ⟨noAddressRun, hs⟩).2 (.inl hfailed) ops t ht

end PtkGenerator

import PtkGenerator.Model.PoolTasks

/-!
# A stopped pool

`stop` takes the clients out of their slots and aborts their tasks.  When the accept loop has ended
by then, nothing brings a client back.  So the calls that the owner still makes find empty slots
only: `decode` ends without a client, and `get_result` collects nothing.  The aborted send tasks may
still take chunks out of their queues, until each of them awaits.
-/

set_option autoImplicit false

namespace PtkGenerator

namespace PoolTasks

variable {s t : PoolTasks}

/-- No slot has a client and no loop lets one in.  A call of `get_result` has collected nothing and
looks at no slot for long. -/
structure Stopped (s : PoolTasks) : Prop where
  accepting : s.pool.accepting = false
  clients : ∀ c ∈ s.pool.clients, c = none
  decode : s.decode ≠ .panicked
  call : ∀ c, s.pool.call = some c → c.rst = ∅ ∧ c.disConnected = [] ∧
    (c.phase = .testing ∨ c.phase = .removing [])

/-- What a stopped pool keeps: its slots are as many as before, nothing is put on a queue, and what
`get_result` returns is empty. -/
structure Inert (s t : PoolTasks) : Prop where
  slots : t.pool.clients.length = s.pool.clients.length
  queues : ∀ idx, t.queue idx <:+ s.queue idx
  returned : ∃ k, t.pool.returned = s.pool.returned ++ List.replicate k ∅

/-- Without a step nothing changes. -/
theorem Inert.refl (s : PoolTasks) : s.Inert s :=
  ⟨rfl, fun _ => List.suffix_rfl, 0, (List.append_nil _).symm⟩

/-- One inert step after the other is inert. -/
theorem Inert.trans {u : PoolTasks} (h : s.Inert t) (h' : t.Inert u) : s.Inert u := by
  obtain ⟨k, hk⟩ := h.returned
  obtain ⟨k', hk'⟩ := h'.returned
  refine ⟨h'.slots.trans h.slots, fun idx => (h'.queues idx).trans (h.queues idx), k + k', ?_⟩
  rw [hk', hk, List.append_assoc, List.replicate_append_replicate]

/-- A stopped pool has no agent in any slot. -/
theorem Stopped.agent (h : s.Stopped) (idx : ℕ) : s.pool.agent idx = none := by
  unfold Pool.agent
  cases hc : s.pool.clients[idx]? with
  | none => rfl
  | some c =>
    rw [h.clients c (List.mem_of_getElem? hc)]
    rfl

/-- INTERNAL: `stop` leaves a stopped pool when the accept loop has ended. -/
theorem stopped_of_disconnect (haccepting : s.pool.accepting = false)
    (h : s.stopStep .disconnect = some t) : t.Stopped := by
  obtain ⟨⟨howned, -⟩, h⟩ := Option.ite_none_right_eq_some.mp h
  obtain rfl := Option.some.inj h
  have hidle : s.decode = .idle ∧ s.pool.call = none := by
    unfold owned at howned
    split at howned
    · next hidle => exact ⟨hidle, by simpa using howned⟩
    · cases howned
  refine ⟨haccepting, ?_, ?_, ?_⟩
  · intro c hc
    obtain ⟨_, -, rfl⟩ := List.mem_map.mp hc
    rfl
  · rw [hidle.1]
    exact nofun
  · intro c hc
    cases hidle.2.symm.trans hc

/-! ## The steps -/

/-- Nothing that a stopped pool keeps has changed, but for steps of `get_result` or `decode`. -/
theorem Inert.of_eq (hclients : t.pool.clients = s.pool.clients) (hsides : t.sides = s.sides)
    (hreturned : t.pool.returned = s.pool.returned) : s.Inert t := by
  refine ⟨by rw [hclients], fun idx => ?_, 0, hreturned.trans (List.append_nil _).symm⟩
  rw [queue, queue, hsides]

/-- A step of `get_result` keeps the pool stopped. -/
theorem Stopped.getResult (h : s.Stopped) {op : CallOp} {pool : Pool}
    (ht : s.pool.getResult op = some pool) :
    Stopped { s with pool } ∧ s.Inert { s with pool } := by
  rcases Pool.getResult_cases ht with ⟨-, rfl⟩ | ⟨c, hc, hcases⟩
  · refine ⟨⟨h.accepting, h.clients, h.decode, ?_⟩, .of_eq rfl rfl rfl⟩
    intro c hc
    obtain rfl := Option.some.inj hc
    exact ⟨rfl, rfl, .inl rfl⟩
  · obtain ⟨hrst, hdis, hphase⟩ := h.call c hc
    rcases hcases with ⟨-, rfl⟩ | ⟨order, -, hfetch⟩ | ⟨-, hcheck⟩ | ⟨idx, rest, hrem, -⟩ | ⟨-, rfl⟩
    · -- the slot is empty, or the loop has come to its end
      unfold Pool.callHasResult
      rw [h.agent c.idx]
      split
      · refine ⟨⟨h.accepting, h.clients, h.decode, ?_⟩, .of_eq rfl rfl rfl⟩
        intro c' hc'
        obtain rfl := Option.some.inj hc'
        exact ⟨hrst, hdis, hphase⟩
      · refine ⟨⟨h.accepting, h.clients, h.decode, ?_⟩, .of_eq rfl rfl rfl⟩
        intro c' hc'
        obtain rfl := Option.some.inj hc'
        exact ⟨hrst, hdis, .inr (by rw [hdis])⟩
    · simp only [Pool.callFetchResult, h.agent c.idx] at hfetch
      cases hfetch
    · simp only [Pool.callIsDisconnected, h.agent c.idx] at hcheck
      cases hcheck
    · rcases hphase with htesting | hempty
      · cases hrem.symm.trans htesting
      · cases hrem.symm.trans hempty
    · refine ⟨⟨h.accepting, h.clients, h.decode, fun c' hc' => by cases hc'⟩,
        ⟨rfl, fun _ => List.suffix_rfl, 1, ?_⟩⟩
      rw [hrst]
      rfl

/-- A step of `decode` keeps the pool stopped. -/
theorem Stopped.decodeStep (h : s.Stopped) {op : DecodeOp} (ht : s.decodeStep op = some t) :
    t.Stopped ∧ s.Inert t := by
  have hset : ∀ decode : DecodeCall, decode ≠ .panicked →
      Stopped { s with decode } ∧ s.Inert { s with decode } := fun decode hne =>
    ⟨⟨h.accepting, h.clients, hne, h.call⟩, .of_eq rfl rfl rfl⟩
  cases op with
  | begin data =>
    obtain ⟨-, -, rfl⟩ := begin_cases ht
    exact hset _ (by simp)
  | test =>
    obtain ⟨data, idx, -, rfl⟩ := testStep_cases ht
    rcases test_cases s data idx with ⟨-, heq⟩ | ⟨a, q, ha, -⟩ | ⟨-, heq⟩
    · rw [heq]
      exact hset _ (by simp)
    · cases ha.symm.trans (h.agent idx)
    · rw [heq]
      exact hset _ (by simp)
  | publish =>
    have hpublish : ∀ data idx, s.publishTo data idx = some t → t.Stopped ∧ s.Inert t := by
      intro data idx hp
      rcases publishTo_cases hp with ⟨a, q, ha, -⟩ | ⟨a, q, ha, -⟩ | ⟨-, rfl⟩
      · cases ha.symm.trans (h.agent idx)
      · cases ha.symm.trans (h.agent idx)
      · exact hset _ (by simp)
    rcases publish_cases ht with ⟨data, idx, -, hp⟩ | ⟨data, -, hp⟩
    · exact hpublish data idx hp
    · exact hpublish data 0 hp

/-- A step of `stop` keeps the pool stopped. -/
theorem Stopped.stopStep (h : s.Stopped) {op : StopOp} (ht : s.stopStep op = some t) :
    t.Stopped ∧ s.Inert t := by
  obtain ⟨-, ⟨-, rfl⟩ | ⟨-, -, rfl⟩ | ⟨rfl, -, rfl⟩⟩ := stopStep_cases ht
  · exact ⟨⟨h.accepting, h.clients, h.decode, h.call⟩, .of_eq rfl rfl rfl⟩
  · exact ⟨⟨h.accepting, h.clients, h.decode, h.call⟩, .of_eq rfl rfl rfl⟩
  · refine ⟨stopped_of_disconnect h.accepting ht, ?_, fun _ => List.suffix_rfl,
      (Inert.refl s).returned⟩
    exact List.length_map _

/-- A step of a send task, or of the client at the other end. -/
theorem Stopped.set (h : s.Stopped) {idx : ℕ} {q : SendSide} (hq : s.sides[idx]? = some q)
    (q' : SendSide) (hrx : q'.rxProcData <:+ q.rxProcData) :
    Stopped { s with sides := s.sides.set idx q' } ∧
      s.Inert { s with sides := s.sides.set idx q' } :=
  ⟨⟨h.accepting, h.clients, h.decode, h.call⟩,
    ⟨rfl, queue_set hq q' hrx, (Inert.refl s).returned⟩⟩

/-- INTERNAL: **a stopped pool stays stopped.** -/
theorem Stopped.step (h : s.Stopped) {op : PoolTaskOp}
    (ht : poolTasksMachine.step s op = some t) : t.Stopped ∧ s.Inert t := by
  cases op with
  | pool op =>
    rcases poolStep_cases ht with ⟨-, haccept⟩ | ⟨-, -, hwait⟩ | ⟨c, pool, -, -, hcall, rfl⟩ |
      ⟨idx, a, b, merged, -, ha, -⟩
    · obtain ⟨-, pool, hpool, -⟩ := accept_cases haccept
      cases h.accepting.symm.trans (Pool.accept_cases hpool).1
    · unfold waitStop at hwait
      split at hwait
      · next idx rest rst dis hcall =>
        rcases (h.call _ hcall).2.2 with htesting | hempty
        · cases htesting
        · cases hempty
      · cases hwait
    · exact h.getResult hcall
    · cases ha.symm.trans (h.agent idx)
  | closeConnection idx =>
    obtain ⟨q, hq, rfl⟩ := closeConnection_cases ht
    exact h.set hq { q with isOpen := false } List.suffix_rfl
  | takeChunk idx =>
    obtain ⟨q, chunk, rxProcData, hq, -, hrx, rfl⟩ := takeChunk_cases ht
    refine h.set hq { q with rxProcData, sendTask := .sending } ?_
    rw [hrx]
    exact List.suffix_cons chunk rxProcData
  | sendDone idx ok =>
    obtain ⟨q, hq, -, rfl⟩ := sendDone_cases ht
    exact h.set hq { q with sendTask := if ok then .recv else .ended } List.suffix_rfl
  | decode op => exact h.decodeStep ht
  | stop op => exact h.stopStep ht
  | dropAccept =>
    obtain ⟨-, rfl⟩ := dropAccept_cases ht
    exact ⟨⟨rfl, h.clients, h.decode, h.call⟩, .of_eq rfl rfl rfl⟩
  | dropSend idx =>
    obtain ⟨q, hq, rfl⟩ := dropSend_cases ht
    exact h.set hq { q with sendTask := .ended } List.suffix_rfl

end PoolTasks

/-- MAIN: **`stop` is for good.**  When the accept loop has ended by the last step of `stop`, the
pool stays without a client in every run behind it: none is let in, no chunk is put on a queue,
though an aborted send task may still take one out, `decode` does not panic, and what `get_result`
returns is empty.
SRC: client_pool.rs:28-37, 68-119, client_agent.rs:83-87 -/
theorem stop_is_final {s t u : PoolTasks} {ops : List PoolTaskOp}
    (haccept : s.pool.accepting = false)
    (hstop : poolTasksMachine.step s (.stop .disconnect) = some t)
    (hrun : poolTasksMachine.exec t ops = some u) : u.Stopped ∧ t.Inert u := by
  refine Machine.exec_induct _ (C := fun _ _ => True)
    (P := fun u => u.Stopped ∧ t.Inert u) (fun u op v hu _ hstep => ?_)
    ⟨PoolTasks.stopped_of_disconnect haccept hstop, PoolTasks.Inert.refl t⟩
    (Machine.meets_of_forall _ (fun _ _ => trivial) _ _) hrun
  obtain ⟨hstopped, hinert⟩ := hu.1.step hstep
  exact ⟨hstopped, hu.2.trans hinert⟩

/-- A client gets two chunks, and the accept loop is aborted and ends. -/
def beforeDisconnect : List PoolTaskOp :=
  [.pool .accept, .pool (.regReq 0), .decode (.begin [1]), .decode .test, .decode .publish,
    .decode (.begin [2]), .decode .test, .decode .publish, .stop .storeFlag, .stop .abort,
    .dropAccept]

/-- Behind `stop` the send task still takes a chunk before it ends, and the chunk that is published
then comes to no queue. -/
theorem stop_is_final_twoChunks : ∃ s t u,
    poolTasksMachine.exec poolTasksMachine.init beforeDisconnect = some s ∧
    poolTasksMachine.step s (.stop .disconnect) = some t ∧
    poolTasksMachine.exec t [.takeChunk 0, .dropSend 0, .decode (.begin [3]), .decode .test,
      .decode .test, .decode .publish] = some u ∧ u.Stopped ∧ u.queue 0 = [[2]] ∧
    u.queue 0 <:+ t.queue 0 := by
  have hbehind : ∃ s t u,
      poolTasksMachine.exec poolTasksMachine.init beforeDisconnect = some s ∧
      poolTasksMachine.step s (.stop .disconnect) = some t ∧
      poolTasksMachine.exec t [.takeChunk 0, .dropSend 0, .decode (.begin [3]), .decode .test,
        .decode .test, .decode .publish] = some u ∧ s.pool.accepting = false ∧
      u.queue 0 = [[2]] :=
    ⟨_, _, _, rfl, rfl, rfl, rfl, rfl⟩
  obtain ⟨s, t, u, hs, ht, hu, haccept, hqueue⟩ := hbehind
  obtain ⟨hstopped, hinert⟩ := stop_is_final haccept ht hu
  exact ⟨s, t, u, hs, ht, hu, hstopped, hqueue, hinert.queues 0⟩

end PtkGenerator

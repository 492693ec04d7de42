import PtkGenerator.Library.Families
import PtkGenerator.Model.ClientPool

/-!
# What becomes of the counts in the pool

No step of the pool loses a count or makes one: a message adds to the map of an agent what it adds
to the record, and `fetch_result` moves a map into the variables of the call that fetches it.
`Inv.conserved` is that account, over any interleaving, in natural numbers as long as no counter
overflows.  No agent is ever removed, because no state becomes `DisConnect`.

What the account does not say is that counts come out.  `has_result` is true of an empty map, so a
call that no message falls into fetches exactly the maps that have nothing in them: it returns the
empty map and leaves every map as it was (`quietCall_of_exec`).
-/

set_option autoImplicit false

namespace PtkGenerator

open Families SumMap

/-! ## Counting -/

/-- The counter of a tally as a number. -/
def Tally.num (t : Tally) (page : Usize) (i : Fin 4096) : ℕ := (t.cnt page i).toNat

/-- The empty tally counts zero. -/
theorem Tally.num_zero (page : Usize) (i : Fin 4096) : (0 : Tally).num page i = 0 := rfl

/-- INTERNAL: counters add up as numbers as long as they do not overflow. -/
theorem Tally.num_add {s t : Tally} {page : Usize} {i : Fin 4096}
    (h : s.num page i + t.num page i < 2 ^ 64) :
    (s + t).num page i = s.num page i + t.num page i := by
  unfold Tally.num at *
  rw [Tally.cnt_add, UInt64.toNat_add, Nat.mod_eq_of_lt h]

/-- The counter in a slot of the list of clients. -/
def slotNum (page : Usize) (i : Fin 4096) : Option Agent → ℕ
  | none => 0
  | some a => a.rstData.read.num page i

namespace Pool

/-- The counts the agents hold. -/
def heldNum (s : Pool) (page : Usize) (i : Fin 4096) : ℕ :=
  (s.clients.map (slotNum page i)).sum

/-- The counts of all messages merged so far. -/
def mergedNum (s : Pool) (page : Usize) (i : Fin 4096) : ℕ :=
  (s.merged.map fun data => data.read.num page i).sum

/-- The counts of all maps returned so far. -/
def returnedNum (s : Pool) (page : Usize) (i : Fin 4096) : ℕ :=
  (s.returned.map fun r => r.read.num page i).sum

/-- The counts a running call of `get_result` has fetched. -/
def callNum (s : Pool) (page : Usize) (i : Fin 4096) : ℕ :=
  match s.call with
  | none => 0
  | some c => c.rst.read.num page i

/-- What holds of the pool, its records and the call together. -/
structure Inv (s : Pool) : Prop where
  conserved : ∀ page i, s.mergedNum page i < 2 ^ 64 →
    s.returnedNum page i + s.callNum page i + s.heldNum page i = s.mergedNum page i
  connected : ∀ a, some a ∈ s.clients → a.state ≠ .disConnect
  call : ∀ c, s.call = some c → c.disConnected = [] ∧
    ∀ rest, c.phase = .removing rest → rest = []

/-- An agent in place of another exchanges its counts for those of the other. -/
theorem heldNum_setAgent {s : Pool} {idx : ℕ} {a b : Agent} (h : s.agent idx = some a)
    (page : Usize) (i : Fin 4096) :
    (s.setAgent idx b).heldNum page i + a.rstData.read.num page i =
      s.heldNum page i + b.rstData.read.num page i :=
  sum_map_set (getElem?_of_agent h) (slotNum page i)

/-- An agent holds no more than all agents do. -/
theorem num_le_heldNum {s : Pool} {idx : ℕ} {a : Agent} (h : s.agent idx = some a)
    (page : Usize) (i : Fin 4096) : a.rstData.read.num page i ≤ s.heldNum page i := by
  have := sum_map_set (b := none) (getElem?_of_agent h) (slotNum page i)
  unfold heldNum
  simp only [slotNum] at this
  omega

/-- An agent with the same map may take the place of another, if it is not disconnected. -/
theorem Inv.setAgent {s : Pool} (h : s.Inv) {idx : ℕ} {a b : Agent} (ha : s.agent idx = some a)
    (hdata : b.rstData = a.rstData) (hstate : b.state ≠ .disConnect) :
    (s.setAgent idx b).Inv := by
  refine ⟨fun page i hlt => ?_, ?_, h.call⟩
  · have hheld := heldNum_setAgent (b := b) ha page i
    rw [hdata] at hheld
    have := h.conserved page i hlt
    change s.returnedNum page i + s.callNum page i + _ = s.mergedNum page i
    omega
  · intro x hx
    rcases List.mem_or_eq_of_mem_set hx with hx | hx
    · exact h.connected x hx
    · obtain rfl := Option.some.inj hx
      exact hstate

/-- A new client holds nothing and is not disconnected. -/
theorem Inv.accept {s t : Pool} {limit : ℕ} (h : s.Inv) (ht : s.accept limit = some t) : t.Inv := by
  obtain ⟨-, -, rfl⟩ := accept_cases ht
  refine ⟨fun page i hlt => ?_, ?_, h.call⟩
  · have hnew : ((s.clients ++ [some Agent.new]).map (slotNum page i)).sum =
        s.heldNum page i := by
      simp [heldNum, slotNum, Agent.new, Tally.num_zero]
    have := h.conserved page i hlt
    change s.returnedNum page i + s.callNum page i + _ = s.mergedNum page i
    unfold heldNum
    dsimp only
    rw [hnew]
    exact this
  · intro x hx
    rcases List.mem_append.mp hx with hx | hx
    · exact h.connected x hx
    · obtain rfl := Option.some.inj (List.mem_singleton.mp hx)
      exact fun e => ClientState.noConfusion e

/-- A registered agent is not disconnected. -/
theorem Inv.regReq {s t : Pool} {idx : ℕ} (h : s.Inv) (ht : s.regReq idx = some t) : t.Inv := by
  obtain ⟨a, ha, rfl⟩ := regReq_cases ht
  exact h.setAgent ha rfl (fun e => ClientState.noConfusion e)

/-- The end of a receive loop changes neither the map nor the state. -/
theorem Inv.endRecv {s t : Pool} {idx : ℕ} (h : s.Inv) (ht : s.endRecv idx = some t) : t.Inv := by
  obtain ⟨a, ha, rfl⟩ := endRecv_cases ht
  exact h.setAgent ha rfl (h.connected a (mem_of_agent ha))

/-- INTERNAL: **a message** adds to the agent what it adds to the record.
SRC: client_agent.rs:139-155 -/
theorem Inv.dataRsp {s t : Pool} {idx : ℕ} {msg : DataRspMsg} (h : s.Inv)
    (ht : s.dataRsp idx msg = some t) : t.Inv := by
  obtain ⟨a, rstData, ha, -, hread, rfl⟩ := dataRsp_cases ht
  refine ⟨fun page i hlt => ?_, ?_, h.call⟩
  · have hmerged : mergedNum { s.setAgent idx { a with rstData } with
        merged := s.merged ++ [msg.data] } page i =
        s.mergedNum page i + msg.data.read.num page i := by
      simp [mergedNum]
    rw [hmerged] at hlt ⊢
    have hold := h.conserved page i (by omega)
    have hle := num_le_heldNum ha page i
    have hheld := heldNum_setAgent (b := { a with rstData }) ha page i
    have hnum : rstData.read.num page i =
        a.rstData.read.num page i + msg.data.read.num page i := by
      rw [hread, Tally.num_add (by omega)]
    change s.returnedNum page i + s.callNum page i +
      (s.setAgent idx { a with rstData }).heldNum page i = _
    dsimp only at hheld
    omega
  · intro x hx
    rcases List.mem_or_eq_of_mem_set hx with hx | hx
    · exact h.connected x hx
    · obtain rfl := Option.some.inj hx
      exact h.connected a (mem_of_agent ha)

/-! ## `get_result` -/

/-- A call of `get_result` may go on with what it has collected. -/
theorem Inv.setCall {s : Pool} (h : s.Inv) {c c' : GetResult} (hc : s.call = some c)
    (hrst : c'.rst = c.rst)
    (hdis : c'.disConnected = [] ∧ ∀ rest, c'.phase = .removing rest → rest = []) :
    ({ s with call := some c' } : Pool).Inv := by
  refine ⟨fun page i hlt => ?_, h.connected, ?_⟩
  · have := h.conserved page i hlt
    have hnum : callNum { s with call := some c' } page i = s.callNum page i := by
      unfold callNum
      rw [hc]
      dsimp only
      rw [hrst]
    change s.returnedNum page i + _ + s.heldNum page i = s.mergedNum page i
    omega
  · intro x hx
    obtain rfl := Option.some.inj hx
    exact hdis

/-- `has_result` sends the call to the map of the agent or past it. -/
theorem Inv.callHasResult {s : Pool} (h : s.Inv) {c : GetResult} (hc : s.call = some c)
    (hp : c.phase = .testing) : (s.callHasResult c).Inv := by
  have hdis := (h.call c hc).1
  obtain ⟨c', heq, hrst, hdis', -, hrem⟩ := callHasResult_eq (s := s) hp
  rw [heq]
  refine h.setCall hc hrst ⟨hdis'.trans hdis, fun rest hr => ?_⟩
  rw [hrem rest hr, hdis]

/-- INTERNAL: **a fetch** moves the map of an agent into the call.
SRC: client_pool.rs:96-106 -/
theorem Inv.callFetchResult {s t : Pool} (h : s.Inv) {c : GetResult} (hc : s.call = some c)
    {order : List (Σ _ : Usize, InsPage)} (ht : s.callFetchResult c order = some t) : t.Inv := by
  obtain ⟨a, ha, ho, rfl⟩ := callFetchResult_cases ht
  refine ⟨fun page i hlt => ?_, ?_, ?_⟩
  · change s.mergedNum page i < 2 ^ 64 at hlt
    have hold := h.conserved page i hlt
    have hle := num_le_heldNum ha page i
    have hheld := heldNum_setAgent (b := { a with rstData := ∅ }) ha page i
    dsimp only at hheld
    rw [PageMap.read_empty, Tally.num_zero] at hheld
    have hcall : s.callNum page i = c.rst.read.num page i := by
      unfold callNum
      rw [hc]
    have hnum : (c.rst.merge order).read.num page i =
        c.rst.read.num page i + a.rstData.read.num page i := by
      rw [PageMap.read_merge ho, Tally.num_add (by omega)]
    change s.returnedNum page i + (c.rst.merge order).read.num page i +
      (s.setAgent c.idx { a with rstData := ∅ }).heldNum page i = s.mergedNum page i
    omega
  · intro x hx
    rcases List.mem_or_eq_of_mem_set hx with hx | hx
    · exact h.connected x hx
    · obtain rfl := Option.some.inj hx
      exact h.connected a (mem_of_agent ha)
  · intro x hx
    obtain rfl := Option.some.inj hx
    exact ⟨(h.call c hc).1, fun _ e => CallPhase.noConfusion e⟩

/-- No agent is found disconnected. -/
theorem Inv.callIsDisconnected_eq {s t : Pool} (h : s.Inv) {c : GetResult} (hc : s.call = some c)
    (ht : s.callIsDisconnected c = some t) :
    t = { s with call := some ⟨c.idx + 1, .testing, c.rst, []⟩ } := by
  obtain ⟨a, ha, rfl⟩ := callIsDisconnected_cases ht
  simp only [if_neg (h.connected a (mem_of_agent ha)), (h.call c hc).1]

/-- A step of `get_result` keeps the account. -/
theorem Inv.getResult {s t : Pool} {op : CallOp} (h : s.Inv) (ht : s.getResult op = some t) :
    t.Inv := by
  rcases getResult_cases ht with ⟨hnone, rfl⟩ | ⟨c, hc, hcases⟩
  · refine ⟨fun page i hlt => ?_, h.connected, ?_⟩
    · have hold := h.conserved page i hlt
      have hcall : s.callNum page i = 0 := by
        unfold callNum
        rw [hnone]
      rw [hcall] at hold
      exact hold
    · intro x hx
      obtain rfl := Option.some.inj hx
      exact ⟨rfl, fun _ e => CallPhase.noConfusion e⟩
  · rcases hcases with ⟨hp, rfl⟩ | ⟨order, -, ht⟩ | ⟨-, ht⟩ | ⟨idx, rest, hp, -⟩ | ⟨-, rfl⟩
    · exact h.callHasResult hc hp
    · exact h.callFetchResult hc ht
    · rw [h.callIsDisconnected_eq hc ht]
      exact h.setCall hc rfl ⟨rfl, fun _ e => CallPhase.noConfusion e⟩
    · cases (h.call c hc).2 _ hp
    · refine ⟨fun page i hlt => ?_, h.connected, fun x hx => by cases hx⟩
      have hold := h.conserved page i hlt
      have hcall : s.callNum page i = c.rst.read.num page i := by
        unfold callNum
        rw [hc]
      have hret : returnedNum { s with call := none, returned := s.returned ++ [c.rst] } page i =
          s.returnedNum page i + c.rst.read.num page i := by
        simp [returnedNum]
      rw [hret]
      change s.returnedNum page i + _ + 0 + s.heldNum page i = s.mergedNum page i
      omega

end Pool

/-- Every step keeps the account. -/
theorem Pool.Inv.step {limit : ℕ} {s t : Pool} {op : PoolOp} (h : s.Inv)
    (ht : (poolMachine limit).step s op = some t) : t.Inv := by
  cases op with
  | accept => exact h.accept ht
  | regReq idx => exact h.regReq ht
  | dataRsp idx msg => exact h.dataRsp ht
  | endRecv idx => exact h.endRecv ht
  | getResult op => exact h.getResult ht

/-- INTERNAL: **every run keeps the account.**
SRC: client_pool.rs:38-66, 88-119; client_agent.rs:111-163 -/
theorem poolMachine_inv {limit : ℕ} {s : Pool} (hs : (poolMachine limit).Reachable s) : s.Inv := by
  refine Machine.invariant _ (P := Pool.Inv) ?_ (fun _ _ _ h ht => h.step ht) hs
  exact ⟨fun _ _ _ => rfl, fun a ha => (by cases ha), fun c hc => (by cases hc)⟩

/-! ## A call that no message falls into -/

/-- Any step but a `DataRsp` message. -/
def PoolOp.Quiet : PoolOp → Prop
  | .dataRsp _ _ => False
  | _ => True

/-- The maps of the agents, slot by slot. -/
def Pool.maps (s : Pool) : List (Option PageMap) := s.clients.map (Option.map Agent.rstData)

/-- What happens without a message: the agents keep their maps, new ones have an empty map, and
nothing but the empty map is fetched or returned. -/
structure QuietCall (s t : Pool) : Prop where
  maps : ∃ k, t.maps = s.maps ++ List.replicate k (some ∅)
  rst : ∀ c, t.call = some c → c.rst = ∅
  fetching : ∀ c, t.call = some c → c.phase = .fetching → ∀ m, t.maps[c.idx]? = some (some m) →
    m = ∅
  returned : ∃ k, t.returned = s.returned ++ List.replicate k ∅

/-- The map of an agent is in its slot. -/
theorem Pool.maps_of_agent {s : Pool} {idx : ℕ} {a : Agent} (h : s.agent idx = some a) :
    s.maps[idx]? = some (some a.rstData) := by
  unfold maps
  rw [List.getElem?_map, getElem?_of_agent h]
  rfl

/-- A map in a slot is that of an agent. -/
theorem Pool.agent_of_maps {s : Pool} {idx : ℕ} {m : PageMap}
    (h : s.maps[idx]? = some (some m)) : ∃ a, s.agent idx = some a ∧ a.rstData = m := by
  unfold maps at h
  rw [List.getElem?_map, Option.map_eq_some_iff] at h
  obtain ⟨slot, hslot, h⟩ := h
  obtain ⟨a, rfl, rfl⟩ := Option.map_eq_some_iff.mp h
  refine ⟨a, ?_, rfl⟩
  unfold agent
  rw [hslot]
  rfl

/-- An agent with the same map leaves the maps as they are. -/
theorem Pool.maps_setAgent {s : Pool} {idx : ℕ} {a b : Agent} (h : s.agent idx = some a)
    (hdata : b.rstData = a.rstData) : (s.setAgent idx b).maps = s.maps := by
  have hmap : (s.setAgent idx b).maps = s.maps.set idx (some a.rstData) := by
    unfold maps setAgent
    rw [List.map_set, Option.map_some, hdata]
  obtain ⟨hlt, hget⟩ := List.getElem?_eq_some_iff.mp (maps_of_agent h)
  rw [hmap, ← hget, List.set_getElem_self]

/-- The only order of the empty map is the empty list. -/
theorem eq_nil_of_order_empty {order : List (Σ _ : Usize, InsPage)}
    (h : Order (∅ : PageMap) order) : order = [] :=
  (Multiset.coe_eq_zero order).mp h

namespace QuietCall

/-- INTERNAL: a step outside of the call that leaves the maps alone. -/
theorem of_maps_eq {s t u : Pool} (h : QuietCall s t) (hmaps : u.maps = t.maps)
    (hcall : u.call = t.call) (hreturned : u.returned = t.returned) : QuietCall s u := by
  refine ⟨?_, ?_, ?_, ?_⟩
  · rw [hmaps]
    exact h.maps
  · rw [hcall]
    exact h.rst
  · rw [hcall, hmaps]
    exact h.fetching
  · rw [hreturned]
    exact h.returned

/-- A call is quiet beside a new client. -/
theorem accept {s t u : Pool} {limit : ℕ} (h : QuietCall s t) (hu : t.accept limit = some u) :
    QuietCall s u := by
  obtain ⟨-, hnone, rfl⟩ := Pool.accept_cases hu
  obtain ⟨k, hk⟩ := h.maps
  refine ⟨⟨k + 1, ?_⟩, h.rst, fun c hc => ?_, h.returned⟩
  · change (t.clients ++ [some Agent.new]).map (Option.map Agent.rstData) = _
    rw [List.map_append, List.replicate_succ', ← List.append_assoc, ← hk]
    rfl
  · rw [show _ = t.call from rfl, hnone] at hc
    cases hc

/-- A call is quiet beside a registration. -/
theorem regReq {s t u : Pool} {idx : ℕ} (h : QuietCall s t) (hu : t.regReq idx = some u) :
    QuietCall s u := by
  obtain ⟨a, ha, rfl⟩ := Pool.regReq_cases hu
  exact h.of_maps_eq (Pool.maps_setAgent ha rfl) rfl rfl

/-- A call is quiet beside the end of a receive loop. -/
theorem endRecv {s t u : Pool} {idx : ℕ} (h : QuietCall s t) (hu : t.endRecv idx = some u) :
    QuietCall s u := by
  obtain ⟨a, ha, rfl⟩ := Pool.endRecv_cases hu
  exact h.of_maps_eq (Pool.maps_setAgent ha rfl) rfl rfl

/-- INTERNAL: **a step of `get_result`** fetches from the empty maps only.
SRC: client_pool.rs:95-97, client_agent.rs:186-189 -/
theorem getResult {s t u : Pool} {op : CallOp} (h : QuietCall s t) (ht : t.Inv)
    (hu : t.getResult op = some u) : QuietCall s u := by
  rcases Pool.getResult_cases hu with ⟨-, rfl⟩ | ⟨c, hc, hcases⟩
  · refine ⟨h.maps, ?_, ?_, h.returned⟩
    · intro x hx
      rw [← Option.some.inj hx]
    · intro x hx hp
      rw [← Option.some.inj hx] at hp
      cases hp
  · have hrst := h.rst c hc
    rcases hcases with ⟨hp, rfl⟩ | ⟨order, hp, hf⟩ | ⟨-, hd⟩ | ⟨idx, rest, hp, -⟩ | ⟨-, rfl⟩
    · obtain ⟨c', heq, hrst', -, hfetch, -⟩ := Pool.callHasResult_eq (s := t) hp
      rw [heq]
      refine ⟨h.maps, ?_, ?_, h.returned⟩
      · intro x hx
        rw [← Option.some.inj hx, hrst', hrst]
      · intro x hx hpx m hm
        rw [← Option.some.inj hx] at hpx hm
        obtain ⟨a, ha, rfl⟩ := Pool.agent_of_maps hm
        exact hfetch hpx a ha
    · -- the map that is fetched is empty, so the agent keeps it
      obtain ⟨a, ha, ho, rfl⟩ := Pool.callFetchResult_cases hf
      have hempty : a.rstData = ∅ := h.fetching c hc hp _ (Pool.maps_of_agent ha)
      rw [hempty] at ho
      refine ⟨?_, ?_, ?_, h.returned⟩
      · obtain ⟨k, hk⟩ := h.maps
        exact ⟨k, (Pool.maps_setAgent ha hempty.symm).trans hk⟩
      · intro x hx
        rw [← Option.some.inj hx, eq_nil_of_order_empty ho, hrst]
        rfl
      · intro x hx hpx
        rw [← Option.some.inj hx] at hpx
        cases hpx
    · rw [ht.callIsDisconnected_eq hc hd]
      refine ⟨h.maps, ?_, ?_, h.returned⟩
      · intro x hx
        rw [← Option.some.inj hx, hrst]
      · intro x hx hpx
        rw [← Option.some.inj hx] at hpx
        cases hpx
    · cases (ht.call c hc).2 _ hp
    · obtain ⟨k, hk⟩ := h.returned
      refine ⟨h.maps, fun x hx => (by cases hx), fun x hx => (by cases hx), k + 1, ?_⟩
      rw [hk, hrst, List.replicate_succ', List.append_assoc]

/-- A call stays quiet without a message. -/
theorem step {limit : ℕ} {s t u : Pool} {op : PoolOp} (h : QuietCall s t) (ht : t.Inv)
    (hop : op.Quiet) (hu : (poolMachine limit).step t op = some u) : QuietCall s u := by
  cases op with
  | accept => exact h.accept hu
  | regReq idx => exact h.regReq hu
  | dataRsp idx msg => exact absurd hop id
  | endRecv idx => exact h.endRecv hu
  | getResult op => exact h.getResult ht hu

end QuietCall

/-- INTERNAL: **a run without a message** changes no map, and what it returns is empty.
SRC: client_pool.rs:88-119 -/
theorem quietCall_of_exec {limit : ℕ} {s t : Pool} (hs : (poolMachine limit).Reachable s)
    (hcall : s.call = none) {ops : List PoolOp} (hops : ∀ op ∈ ops, op.Quiet)
    (h : (poolMachine limit).exec s ops = some t) : QuietCall s t := by
  have hrun : QuietCall s t ∧ t.Inv := by
    refine Machine.exec_induct (poolMachine limit) (C := fun _ op => op.Quiet)
      (P := fun t => QuietCall s t ∧ t.Inv) ?_ ?_
      (Machine.meets_of_forall_mem _ (fun _ => hops) _) h
    · rintro t op u ⟨hq, hinv⟩ hop hstep
      exact ⟨hq.step hinv hop hstep, Pool.Inv.step hinv hstep⟩
    · refine ⟨⟨⟨0, (List.append_nil _).symm⟩, ?_, ?_, 0, (List.append_nil _).symm⟩,
        poolMachine_inv hs⟩
      · intro c hc
        rw [hcall] at hc
        cases hc
      · intro c hc
        rw [hcall] at hc
        cases hc
  exact hrun.1

/-! ## A call comes to its end -/

/-- The call has come to the client with the number `idx`. -/
def AtClient (s t : Pool) (idx : ℕ) : Prop :=
  ∃ c, t.call = some c ∧ c.phase = .testing ∧ c.idx = idx ∧
    t.clients.length = s.clients.length ∧ t.returned = s.returned

/-- A client that is not disconnected is passed by. -/
theorem step_isDisconnected (limit : ℕ) {s : Pool} (h : s.Inv) {c : GetResult} {a : Agent}
    (hc : s.call = some c) (hp : c.phase = .checking) (ha : s.agent c.idx = some a) :
    ∃ t, (poolMachine limit).step s (.getResult .isDisconnected) = some t ∧
      AtClient s t (c.idx + 1) := by
  refine ⟨{ s with call := some ⟨c.idx + 1, .testing, c.rst, []⟩ }, ?_,
    _, rfl, rfl, rfl, rfl, rfl⟩
  simp only [poolMachine, Pool.getResult, hc, hp, Pool.callIsDisconnected, ha,
    if_neg (h.connected a (Pool.mem_of_agent ha)), (h.call c hc).1]

/-- A call goes from each client to the next. -/
theorem exists_round {limit : ℕ} {s : Pool} (h : s.Inv) {idx : ℕ} (hat : AtClient s s idx)
    (hidx : idx < s.clients.length) : ∃ (ops : List CallOp) (t : Pool),
      (poolMachine limit).exec s (ops.map .getResult) = some t ∧ AtClient s t (idx + 1) := by
  obtain ⟨c, hc, hp, rfl, -, -⟩ := hat
  have htest : (poolMachine limit).step s (.getResult .hasResult) = some (s.callHasResult c) := by
    simp only [poolMachine, Pool.getResult, hc, hp]
  cases ha : s.agent c.idx with
  | none =>
    refine ⟨[.hasResult], _, (Machine.exec_cons_eq_some _).mpr ⟨_, htest, rfl⟩, ?_⟩
    simp only [Pool.callHasResult, if_pos hidx, ha]
    exact ⟨_, rfl, hp, rfl, rfl, rfl⟩
  | some a =>
    by_cases hres : hasResult a.rstData = true
    · -- the map is fetched in some order of iteration
      obtain ⟨order, ho⟩ := order_of_entries a.rstData
      have hnext : s.callHasResult c = { s with call := some { c with phase := .fetching } } := by
        simp only [Pool.callHasResult, if_pos hidx, ha, if_pos hres]
      set u : Pool := { s.setAgent c.idx { a with rstData := ∅ } with
        call := some { c with phase := .checking, rst := c.rst.merge order } } with hu
      have hfetch : (poolMachine limit).step (s.callHasResult c) (.getResult (.fetchResult order)) =
          some u := by
        have ha' : ({ s with call := some { c with phase := .fetching } } : Pool).agent c.idx =
            some a := ha
        rw [hnext]
        simp only [poolMachine, Pool.getResult, Pool.callFetchResult, ha']
        exact if_pos ho
      have hagent : u.agent c.idx = some { a with rstData := ∅ } := by
        obtain ⟨hlt, -⟩ := List.getElem?_eq_some_iff.mp (Pool.getElem?_of_agent ha)
        simp only [hu, Pool.agent, Pool.setAgent, List.getElem?_set_self hlt]
        rfl
      have hu_inv : u.Inv := (h.callHasResult hc hp).getResult hfetch
      obtain ⟨t, hstep, c', hc', hp', hi', hlen, hret⟩ :=
        step_isDisconnected limit hu_inv rfl rfl hagent
      refine ⟨[.hasResult, .fetchResult order, .isDisconnected], t, ?_, c', hc', hp', hi', ?_, hret⟩
      · exact (Machine.exec_cons_eq_some _).mpr ⟨_, htest, (Machine.exec_cons_eq_some _).mpr
          ⟨_, hfetch, (Machine.exec_cons_eq_some _).mpr ⟨_, hstep, rfl⟩⟩⟩
      · rw [hlen]
        exact List.length_set
    · have hnext : s.callHasResult c = { s with call := some { c with phase := .checking } } := by
        simp only [Pool.callHasResult, if_pos hidx, ha, if_neg hres]
      obtain ⟨t, hstep, hat⟩ := step_isDisconnected limit (h.callHasResult hc hp)
        (s := s.callHasResult c) (c := { c with phase := .checking }) (a := a) (by rw [hnext]) rfl
        (by rw [hnext]; exact ha)
      refine ⟨[.hasResult, .isDisconnected], t, ?_, ?_⟩
      · exact (Machine.exec_cons_eq_some _).mpr ⟨_, htest,
          (Machine.exec_cons_eq_some _).mpr ⟨_, hstep, rfl⟩⟩
      · rw [hnext] at hat
        exact hat

/-- INTERNAL: **the loop over the clients ends**, by induction on the number of clients that are
left, and the call returns what it has.
SRC: client_pool.rs:91-119 -/
theorem exists_end {limit : ℕ} {s : Pool} (hs : (poolMachine limit).Reachable s) {idx : ℕ}
    (hat : AtClient s s idx) : ∃ (ops : List CallOp) (t : Pool) (r : PageMap),
      (poolMachine limit).exec s (ops.map .getResult) = some t ∧ t.call = none ∧
        t.returned = s.returned ++ [r] := by
  induction hn : s.clients.length - idx generalizing s idx with
  | zero =>
    obtain ⟨c, hc, hp, rfl, -, -⟩ := hat
    have hdis := ((poolMachine_inv hs).call c hc).1
    refine ⟨[.hasResult, .ret], _, c.rst, (Machine.exec_cons_eq_some _).mpr
      ⟨{ s with call := some { c with phase := .removing [] } }, ?_, rfl⟩, rfl, rfl⟩
    simp only [poolMachine, Pool.getResult, hc, hp, Pool.callHasResult, hdis]
    rw [if_neg (by omega)]
  | succ n ih =>
    obtain ⟨ops₁, u, hrun₁, c, hc, hp, hi, hlen, hret⟩ :=
      exists_round (poolMachine_inv hs) hat (by omega)
    have hat' : AtClient u u (idx + 1) := ⟨c, hc, hp, hi, rfl, rfl⟩
    obtain ⟨ops₂, t, r, hrun₂, hcall, hreturned⟩ := ih (hs.exec _ hrun₁) hat' (by omega)
    refine ⟨ops₁ ++ ops₂, t, r, ?_, hcall, by rw [hreturned, hret]⟩
    rw [List.map_append]
    exact (Machine.exec_append _).mpr ⟨u, hrun₁, hrun₂⟩

/-- The steps `ops` are a call of `get_result` that no message falls into, with other steps of the
tasks in between: no call was running, none is, and this one has returned `r`. -/
structure CallWithoutMessage (limit : ℕ) (s : Pool) (ops : List PoolOp) (t : Pool) (r : PageMap) :
    Prop where
  quiet : ∀ op ∈ ops, op.Quiet
  run : (poolMachine limit).exec s ops = some t
  before : s.call = none
  behind : t.call = none
  returned : t.returned = s.returned ++ [r]

/-- INTERNAL: a call may be made whenever none is running, and without a message it ends. -/
theorem exists_call {limit : ℕ} {s : Pool} (hs : (poolMachine limit).Reachable s)
    (hcall : s.call = none) : ∃ ops t r, CallWithoutMessage limit s ops t r := by
  set u : Pool := { s with call := some ⟨0, .testing, ∅, []⟩ } with hu
  have hbegin : (poolMachine limit).step s (.getResult .begin) = some u := by
    simp only [poolMachine, Pool.getResult, hcall, hu]
  have hrun : (poolMachine limit).exec s [.getResult .begin] = some u :=
    (Machine.exec_cons_eq_some _).mpr ⟨u, hbegin, rfl⟩
  have hat : AtClient u u 0 := ⟨_, rfl, rfl, rfl, rfl, rfl⟩
  obtain ⟨ops, t, r, hops, hnone, hr⟩ := exists_end (hs.exec _ hrun) hat
  refine ⟨(CallOp.begin :: ops).map .getResult, t, r, ?_,
    (Machine.exec_cons_eq_some _).mpr ⟨u, hbegin, hops⟩, hcall, hnone, hr⟩
  intro op hop
  obtain ⟨op', -, rfl⟩ := List.mem_map.mp hop
  trivial

/-- A call without a message returns an empty map. -/
theorem CallWithoutMessage.eq_empty {limit : ℕ} {s t : Pool} {ops : List PoolOp} {r : PageMap}
    (h : CallWithoutMessage limit s ops t r) (hs : (poolMachine limit).Reachable s) : r = ∅ := by
  obtain ⟨k, hk⟩ := (quietCall_of_exec hs h.before h.quiet h.run).returned
  have heq : [r] = List.replicate k ∅ := List.append_cancel_left (h.returned.symm.trans hk)
  have hmem : r ∈ List.replicate k (∅ : PageMap) := by
    rw [← heq]
    exact List.mem_singleton_self r
  exact List.eq_of_mem_replicate hmem

/-- The maps of all agents in the pool are empty. -/
def Pool.Drained (s : Pool) : Prop := ∀ a, some a ∈ s.clients → a.rstData = ∅

/-- The pool is drained when each map is empty. -/
theorem Pool.drained_iff (s : Pool) : s.Drained ↔ ∀ m, some m ∈ s.maps → m = ∅ := by
  unfold Drained maps
  constructor
  · intro h m hm
    obtain ⟨slot, hslot, e⟩ := List.mem_map.mp hm
    obtain ⟨a, rfl, rfl⟩ := Option.map_eq_some_iff.mp e
    exact h a hslot
  · intro h a ha
    exact h a.rstData (List.mem_map.mpr ⟨some a, ha, rfl⟩)

/-- A quiet call neither drains the pool nor fills it. -/
theorem QuietCall.drained_iff {s t : Pool} (h : QuietCall s t) : t.Drained ↔ s.Drained := by
  obtain ⟨k, hk⟩ := h.maps
  rw [Pool.drained_iff, Pool.drained_iff, hk]
  constructor
  · exact fun ht m hm => ht m (List.mem_append_left _ hm)
  · intro hs m hm
    rcases List.mem_append.mp hm with hm | hm
    · exact hs m hm
    · exact Option.some.inj (List.eq_of_mem_replicate hm)

/-- A drained pool holds nothing. -/
theorem Pool.Drained.heldNum {s : Pool} (h : s.Drained) (page : Usize) (i : Fin 4096) :
    s.heldNum page i = 0 := by
  refine List.sum_eq_zero fun n hn => ?_
  obtain ⟨c, hc, rfl⟩ := List.mem_map.mp hn
  cases c with
  | none => rfl
  | some a =>
    change a.rstData.read.num page i = 0
    rw [h a hc, PageMap.read_empty, Tally.num_zero]

/-- The call has returned the counts the agents held, and has left their maps empty. -/
def Collects (s t : Pool) (r : PageMap) : Prop :=
  (∀ page i, r.read.num page i = s.heldNum page i) ∧ t.Drained

/-- MAIN: **the pool conserves the counts, and hands out none of them.**  Over every interleaving
the maps returned, the one being collected and the ones held add up to the messages merged.  A
call that no message falls into ends; it returns what the agents hold and leaves their maps empty
exactly when there was nothing in the maps, as `has_result` says whether a map is empty.
SRC: client_pool.rs:88-119, client_agent.rs:139-155, 186-196 -/
theorem pool_conserves_and_collects_iff {limit : ℕ} {s : Pool}
    (hs : (poolMachine limit).Reachable s) :
    (∀ page i, s.mergedNum page i < 2 ^ 64 →
      s.returnedNum page i + s.callNum page i + s.heldNum page i = s.mergedNum page i) ∧
    (s.call = none → ∃ ops t r, CallWithoutMessage limit s ops t r) ∧
    ∀ ops t r, CallWithoutMessage limit s ops t r → (Collects s t r ↔ s.Drained) := by
  refine ⟨(poolMachine_inv hs).conserved, exists_call hs, fun ops t r h => ?_⟩
  have hquiet := quietCall_of_exec hs h.before h.quiet h.run
  constructor
  · rintro ⟨-, hempty⟩
    exact hquiet.drained_iff.mp hempty
  · intro hempty
    refine ⟨fun page i => ?_, hquiet.drained_iff.mpr hempty⟩
    rw [h.eq_empty hs, PageMap.read_empty, Tally.num_zero, hempty.heldNum]

/-- A message with one execution of the first byte of a page. -/
def oneCount : SparseMap := Finmap.singleton 0 (Finmap.singleton 0 ⟨1⟩)

/-- Its only offset is 0. -/
theorem oneCount_inPage : oneCount.InPage := by
  intro page x hx i hi
  unfold oneCount at hx
  have hpage : page = 0 := by
    by_contra hne
    rw [Finmap.lookup_eq_none.mpr (fun h => hne ((Finmap.mem_singleton _ _ _).mp h))] at hx
    cases hx
  subst hpage
  rw [Finmap.lookup_singleton_eq] at hx
  obtain rfl := Option.some.inj hx
  rw [(Finmap.mem_singleton _ _ _).mp hi]
  decide

/-- It counts one execution there. -/
theorem oneCount_num : oneCount.read.num 0 0 = 1 := by
  rfl

/-- A pool with two clients, the first of which has sent the message. -/
theorem exists_oneCountHeld : ∃ s : Pool, (poolMachine 32).Reachable s ∧ s.call = none ∧
    s.clients.length = 2 ∧ s.merged = [oneCount] ∧ s.heldNum 0 0 = 1 := by
  obtain ⟨visit, hv⟩ := exists_visits oneCount
  let msg : DataRspMsg := ⟨oneCount, oneCount_inPage, visit, hv⟩
  obtain ⟨rstData, hdone, hread⟩ := dataRsp_visits hv oneCount_inPage ∅
  let s : Pool :=
    ⟨[some ⟨.connected, true, rstData⟩, some Agent.new], true, none, [oneCount], []⟩
  have hrun : (poolMachine 32).exec (poolMachine 32).init [.accept, .accept, .dataRsp 0 msg] =
      some s := by
    refine (Machine.exec_cons_eq_some _).mpr
      ⟨⟨[some Agent.new], true, none, [], []⟩, rfl, (Machine.exec_cons_eq_some _).mpr
        ⟨⟨[some Agent.new, some Agent.new], true, none, [], []⟩, rfl,
          (Machine.exec_cons_eq_some _).mpr ⟨s, ?_, rfl⟩⟩⟩
    simp only [poolMachine, Pool.dataRsp, Pool.agent, Agent.new, List.getElem?_cons_zero,
      Option.join_some, if_true, msg, hdone]
    rfl
  have hheld : s.heldNum 0 0 = rstData.read.num 0 0 := rfl
  refine ⟨s, ⟨_, hrun⟩, rfl, rfl, rfl, ?_⟩
  rw [hheld, hread, PageMap.read_empty, zero_add, oneCount_num]

/-- With one message merged the account has the one count, the next call ends, and it leaves the
count where it is. -/
theorem pool_conserves_and_collects_oneCount : ∃ s : Pool, s.clients.length = 2 ∧
    s.merged = [oneCount] ∧ s.returnedNum 0 0 + s.callNum 0 0 + s.heldNum 0 0 = 1 ∧
    ∃ ops t r, CallWithoutMessage 32 s ops t r ∧ ¬ Collects s t r := by
  obtain ⟨s, hs, hcall, hlen, hmerged, hheld⟩ := exists_oneCountHeld
  obtain ⟨hconserved, hends, hiff⟩ := pool_conserves_and_collects_iff hs
  have hnum : s.mergedNum 0 0 = 1 := by
    rw [Pool.mergedNum, hmerged]
    rfl
  obtain ⟨ops, t, r, h⟩ := hends hcall
  refine ⟨s, hlen, hmerged, ?_, ops, t, r, h, fun hcollects => ?_⟩
  · rw [hconserved 0 0 (by rw [hnum]; decide), hnum]
  · have hdrained := (hiff ops t r h).mp hcollects
    rw [hdrained.heldNum] at hheld
    cases hheld

/-- A pool that has merged one message returns the empty map: the count stays where it is.
SRC: client_pool.rs:95, client_agent.rs:186-189 -/
theorem getResult_leaves_counts : ¬ ∀ s : Pool, (poolMachine 32).Reachable s →
    ∀ ops t r, CallWithoutMessage 32 s ops t r → Collects s t r := by
  intro hall
  obtain ⟨s, hs, hcall, -, -, hheld⟩ := exists_oneCountHeld
  obtain ⟨ops, t, r, h⟩ := exists_call hs hcall
  have hnum := (hall s hs ops t r h).1 0 0
  rw [h.eq_empty hs, PageMap.read_empty, Tally.num_zero, hheld] at hnum
  cases hnum

end PtkGenerator

import PtkGenerator.Analysis.NetworkConservation
import PtkGenerator.Analysis.NetworkLeft

/-!
# The clients decode all that the server gives them

As long as connections stay open, sends succeed, no chunk is empty and no registration takes the
place of a waiting call, no chunk is lost, and there is always a step to take until every chunk is
decoded and every count is in the map of an agent.  What can be taken is bounded by `Network.left`,
so the network comes to that point, and there the account of `NetworkConservation` says what the
agents hold.
-/

set_option autoImplicit false

namespace PtkGenerator

open Families SumMap

variable {n : ℕ}

/-! ## A client at work -/

namespace Conn

/-- Only taking a message makes a worker busy. -/
theorem idle_step {s t : Conn n} {op : ConnOp n} (hop : ∀ w, op ≠ .takeCtrl w)
    (h : (connMachine n).step s op = some t) {v : Fin n} (hv : s.workers v = .idle) :
    t.workers v = .idle := by
  rcases workers_step h with hsame | ⟨w, p, hworkers, ⟨htake, -⟩ | ⟨hw, -⟩⟩
  · exact hsame ▸ hv
  · exact absurd htake (hop w)
  · have hvw : v ≠ w := by
      rintro rfl
      exact hw hv
    rwa [hworkers, Function.update_of_ne hvw]

/-- Only the answer to a chunk is an answer. -/
theorem answers_step {s t : Conn n} {op : ConnOp n} (hop : ∀ w data, op ≠ .sendDataRsp w data)
    (h : (connMachine n).step s op = some t) : t.answers ⊆ s.answers := by
  cases op with
  | takeCtrl w => exact (chunks_takeCtrl h).2.1 ▸ List.Subset.refl _
  | readMem w addr len => exact (keeps_readMem h).answers ▸ List.Subset.refl _
  | recv w => exact (keeps_recv h).answers ▸ List.Subset.refl _
  | retReadMem w => exact (keeps_retReadMem h).answers ▸ List.Subset.refl _
  | sendDataRsp w data => exact absurd rfl (hop w data)
  | dropDataRsp w => exact (chunks_dropDataRsp h).2.1 ▸ List.Subset.refl _
  | register => exact (keeps_register h).answers ▸ List.Subset.refl _
  | sendMemReq => exact (keeps_sendMemReq h).answers ▸ List.Subset.refl _
  | recvMsg => exact (keeps_recvMsg h).answers ▸ List.Subset.refl _
  | serverReply data =>
    obtain ⟨p, -, -, -, hanswers⟩ := chunks_serverReply h
    exact hanswers ▸ List.subset_append_right _ _
  | serverSend ctrl =>
    obtain rfl := Option.some.inj h
    cases ctrl <;> exact List.Subset.refl _

end Conn

/-- What holds of a client while nobody disturbs it: no chunk on its way is empty, a worker that is
busy has a chunk, and what it answers lies in a page. -/
structure Link.Live (l : Link n) : Prop where
  inv : l.conn.Inv
  reachable : (connMachine n).Reachable l.conn
  chunks : [] ∉ l.conn.chunks
  ended : ∀ w, l.conn.workers w ≠ .ended
  holding : ∀ w, l.conn.workers w ≠ .idle → (l.holding w).isSome
  inPage : ∀ data ∈ l.conn.answers, data.InPage

namespace Link

/-- A step of the connection that is neither the beginning nor the end of a chunk. -/
theorem Live.conn_step {l : Link n} (h : l.Live) (op : ConnOp n) {conn : Conn n}
    (htake : ∀ w, op ≠ .takeCtrl w) (hsend : ∀ w data, op ≠ .sendDataRsp w data)
    (hempty : op ≠ .serverSend (.proc []))
    (hover : l.conn.NoOverwrite op) (hc : (connMachine n).step l.conn op = some conn) :
    Live { l with conn } where
  inv := h.inv.step hover hc
  reachable := h.reachable.step _ hc
  chunks := Conn.empty_not_mem_step hempty h.chunks hc
  ended := Conn.workers_ne_ended h.inv.listening h.chunks h.ended hc
  holding w hw := h.holding w fun hidle => hw (Conn.idle_step htake hc hidle)
  inPage data hdata := h.inPage data (Conn.answers_step hsend hc hdata)

/-- A new link is live. -/
theorem Live.new (n : ℕ) : (Link.new n).Live where
  inv := .init
  reachable := ⟨[], rfl⟩
  chunks := Multiset.notMem_zero _
  ended w := show WorkerPhase.idle ≠ .ended by simp
  holding w hw := absurd rfl hw
  inPage data hdata := by cases hdata

/-- A worker takes a message: it is busy with the chunk that was in it, if there was one. -/
theorem Live.takeCtrl {l : Link n} (h : l.Live) {w : Fin n} {conn : Conn n}
    (hc : l.conn.takeCtrl w = some conn) :
    Live { l with conn, holding := Function.update l.holding w l.taken } := by
  have hstep : (connMachine n).step l.conn (.takeCtrl w) = some conn := hc
  have hended := Conn.workers_ne_ended h.inv.listening h.chunks h.ended hstep
  obtain ⟨hidle, hanswers, -, hcases⟩ := Conn.chunks_takeCtrl hc
  refine ⟨h.inv.step (noOverwrite_of_ne _ (by simp)) hstep, h.reachable.step _ hstep,
    Conn.empty_not_mem_step (by simp) h.chunks hstep, hended, fun v hv => ?_,
    fun data hdata => h.inPage data (hanswers ▸ hdata)⟩
  show (Function.update l.holding w l.taken v).isSome = true
  have hother : v ≠ w → l.conn.workers v ≠ .idle →
      (Function.update l.holding w l.taken v).isSome = true := by
    intro hvw hbusy
    rw [Function.update_of_ne hvw]
    exact h.holding v hbusy
  rcases hcases with ⟨ctrl, -, -, hworkers⟩ | ⟨data, ctrl, hctrl, -, hworkers⟩ | ⟨-, -, hworkers⟩
  · have hbusy : l.conn.workers v ≠ .idle := hworkers ▸ hv
    exact hother (by rintro rfl; exact hbusy hidle) hbusy
  · by_cases hvw : v = w
    · rw [hvw, Function.update_self, taken, hctrl]
      rfl
    · refine hother hvw fun hbusy => hv ?_
      show conn.workers v = .idle
      rw [hworkers, Function.update_of_ne hvw, hbusy]
  · refine absurd ?_ (hended w)
    show conn.workers w = .ended
    rw [hworkers, Function.update_self]

/-- A worker answers and lets go of its chunk. -/
theorem Live.sendDataRsp {l : Link n} (h : l.Live) {w : Fin n} {data : SparseMap} {conn : Conn n}
    (hdata : data.InPage) (hc : l.conn.sendDataRsp w data = some conn) :
    Live { l with conn, holding := Function.update l.holding w none } := by
  have hstep : (connMachine n).step l.conn (.sendDataRsp w data) = some conn := hc
  obtain ⟨-, hanswers, hworkers⟩ := Conn.chunks_sendDataRsp hc
  refine ⟨h.inv.step (noOverwrite_of_ne _ (by simp)) hstep, h.reachable.step _ hstep,
    Conn.empty_not_mem_step (by simp) h.chunks hstep,
    Conn.workers_ne_ended h.inv.listening h.chunks h.ended hstep, fun v hv => ?_, fun d hd => ?_⟩
  · show (Function.update l.holding w none v).isSome = true
    have hv' : Function.update l.conn.workers w .idle v ≠ .idle := hworkers ▸ hv
    have hvw : v ≠ w := by
      rintro rfl
      rw [Function.update_self] at hv'
      exact hv' rfl
    rw [Function.update_of_ne hvw] at hv' ⊢
    exact h.holding v hv'
  · have hd' : d ∈ l.conn.answers ++ [data] := hanswers ▸ hd
    rcases List.mem_append.mp hd' with hold | hnew
    · exact h.inPage d hold
    · rw [List.mem_singleton.mp hnew]
      exact hdata

/-- The message that a worker takes has no empty chunk. -/
theorem Live.taken_ne {l : Link n} (h : l.Live) : l.taken ≠ some [] := by
  intro htaken
  unfold taken at htaken
  split at htaken
  · next data ctrl hctrl =>
    obtain rfl := Option.some.inj htaken
    exact h.chunks (Conn.mem_chunks_of_ctrl (hctrl ▸ List.mem_cons_self))
  · cases htaken

/-- INTERNAL: **a client goes on as it should**, when no registration takes the place of a waiting
call and the answers are sent.
SRC: client_proc.rs:31-44, 56-88, 92-175 -/
theorem Live.client {l l' : Link n} (h : l.Live) {op : ClientOp n} {out : ClientOut}
    (hover : l.conn.NoOverwrite op.toConn) (hsent : ∀ w ips, op ≠ .dropDataRsp w ips)
    (hop : l.client op = some (l', out)) : l'.Live ∧ out.unsent = [] ∧ out.lost = [] := by
  have hmap : ∀ {o : ConnOp n}, (∀ w, o ≠ .takeCtrl w) → (∀ w data, o ≠ .sendDataRsp w data) →
      o ≠ .serverSend (.proc []) → l.conn.NoOverwrite o → ((connMachine n).step l.conn o).map
        (fun conn => ({ l with conn }, {})) = some (l', out) →
      l'.Live ∧ out.unsent = [] ∧ out.lost = [] := by
    intro o htake hsend hempty hover hconn
    obtain ⟨conn, hc, heq⟩ := Option.map_eq_some_iff.mp hconn
    obtain ⟨rfl, rfl⟩ := Prod.mk.inj heq
    exact ⟨h.conn_step o htake hsend hempty hover hc, rfl, rfl⟩
  cases op with
  | takeCtrl w =>
    obtain ⟨conn, hc, heq⟩ := Option.map_eq_some_iff.mp hop
    rw [if_neg h.taken_ne] at heq
    obtain ⟨rfl, rfl⟩ := Prod.mk.inj heq
    exact ⟨h.takeCtrl hc, rfl, rfl⟩
  | sendDataRsp w ips order =>
    simp only [Link.client] at hop
    split at hop
    · obtain ⟨ho, hop⟩ := Option.ite_none_right_eq_some.mp hop
      obtain ⟨conn, hc, heq⟩ := Option.map_eq_some_iff.mp hop
      obtain ⟨rfl, rfl⟩ := Prod.mk.inj heq
      exact ⟨h.sendDataRsp (ProcData.inPage ⟨order, ho, rfl⟩) hc, rfl, rfl⟩
    · cases hop
  | dropDataRsp w ips => exact absurd rfl (hsent w ips)
  | readMem w addr len =>
    exact hmap (o := .readMem w addr len) (by simp) (by simp) (by simp) hover hop
  | recv w => exact hmap (o := .recv w) (by simp) (by simp) (by simp) hover hop
  | retReadMem w => exact hmap (o := .retReadMem w) (by simp) (by simp) (by simp) hover hop
  | register => exact hmap (o := .register) (by simp) (by simp) (by simp) hover hop
  | sendMemReq => exact hmap (o := .sendMemReq) (by simp) (by simp) (by simp) hover hop
  | recvMsg => exact hmap (o := .recvMsg) (by simp) (by simp) (by simp) hover hop

/-- A reply of the server keeps a link live. -/
theorem Live.serverReply {l : Link n} (h : l.Live) {data : Bytes} {conn : Conn n}
    (hc : l.conn.serverReply data = some conn) : Live { l with conn } :=
  h.conn_step (.serverReply data) (by simp) (by simp) (by simp) (noOverwrite_of_ne _ (by simp)) hc

/-- A chunk that is sent keeps a link live. -/
theorem Live.serverSend {l : Link n} (h : l.Live) {chunk : Bytes} (hne : chunk ≠ []) :
    Live { l with conn := l.conn.serverSend (.proc chunk), sending := none } := by
  have hlive := h.conn_step (.serverSend (.proc chunk)) (by simp) (by simp) (by simp [hne])
    (noOverwrite_of_ne _ (by simp)) rfl
  exact ⟨hlive.inv, hlive.reachable, hlive.chunks, hlive.ended, hlive.holding, hlive.inPage⟩

/-- The chunk that a send task holds does not matter to the link. -/
theorem Live.setSending {l : Link n} (h : l.Live) (sending : Option Bytes) :
    Live { l with sending } :=
  ⟨h.inv, h.reachable, h.chunks, h.ended, h.holding, h.inPage⟩

end Link

/-! ## The agents -/

/-- The call of `get_result` is at a client. -/
def CallPhase.AtClient : CallPhase → Prop
  | .fetching => True
  | .checking => True
  | _ => False

/-- Every slot has an agent whose receive task runs, and a call of `get_result` is in the list. -/
structure Pool.Live (s : Pool) : Prop where
  agents : ∀ c ∈ s.clients, ∃ a, c = some a ∧ a.receiving = true
  call : ∀ c, s.call = some c → c.phase.AtClient → c.idx < s.clients.length

namespace Pool

/-- Every slot has an agent that receives. -/
theorem Live.agent {s : Pool} (h : s.Live) {idx : ℕ} (hidx : idx < s.clients.length) :
    ∃ a, s.agent idx = some a ∧ a.receiving = true := by
  obtain ⟨a, ha, hreceiving⟩ := h.agents _ (List.getElem_mem hidx)
  refine ⟨a, ?_, hreceiving⟩
  rw [Pool.agent, List.getElem?_eq_getElem hidx, ha]
  rfl

/-- An agent that receives may take the place of another. -/
theorem Live.setAgent {s : Pool} (h : s.Live) {idx : ℕ} {a b : Agent} (ha : s.agent idx = some a)
    (hb : b.receiving = a.receiving) (merged : List SparseMap) :
    Live { s.setAgent idx b with merged } := by
  refine ⟨fun c hc => ?_, fun c hc hat => ?_⟩
  · rcases List.mem_or_eq_of_mem_set hc with hold | rfl
    · exact h.agents c hold
    · obtain ⟨a', heq, hreceiving⟩ := h.agents _ (mem_of_agent ha)
      obtain rfl := Option.some.inj heq
      exact ⟨b, rfl, hb.trans hreceiving⟩
  · show c.idx < (s.clients.set idx (some b)).length
    rw [List.length_set]
    exact h.call c hc hat

/-- An accepted client receives. -/
theorem Live.accept {s t : Pool} {limit : ℕ} (h : s.Live) (ht : s.accept limit = some t) :
    t.Live := by
  obtain ⟨-, hcall, rfl⟩ := accept_cases ht
  refine ⟨fun c hc => ?_, fun c hc => ?_⟩
  · rcases List.mem_append.mp hc with hold | hnew
    · exact h.agents c hold
    · exact ⟨Agent.new, List.mem_singleton.mp hnew, rfl⟩
  · cases hcall.symm.trans hc

/-- `has_result` changes no agent. -/
theorem Live.callHasResult {s : Pool} (h : s.Live) {c : GetResult} (hp : c.phase = .testing) :
    (s.callHasResult c).Live := by
  have hset : ∀ c' : GetResult, (c'.phase.AtClient → c'.idx < s.clients.length) →
      Live { s with call := some c' } := by
    refine fun c' hc' => ⟨h.agents, fun d hd hat => ?_⟩
    obtain rfl := Option.some.inj hd
    exact hc' hat
  unfold Pool.callHasResult
  split
  · next hlt =>
    split
    · split
      · exact hset _ fun _ => hlt
      · exact hset _ fun _ => hlt
    · refine hset _ fun hat => ?_
      rw [hp] at hat
      exact hat.elim
  · exact hset _ fun hat => hat.elim

/-- No client is ever found to be disconnected, so none is taken out of its slot. -/
theorem Live.getResult {s t : Pool} {op : CallOp} (h : s.Live) (hinv : s.Inv)
    (ht : s.getResult op = some t) : t.Live := by
  rcases getResult_cases ht with ⟨-, rfl⟩ | ⟨c, hc, hcases⟩
  · refine ⟨h.agents, fun c hc hat => ?_⟩
    obtain rfl := Option.some.inj hc
    exact hat.elim
  · rcases hcases with ⟨hp, rfl⟩ | ⟨order, hp, hf⟩ | ⟨-, hd⟩ | ⟨idx, rest, hp, hw⟩ | ⟨-, rfl⟩
    · exact h.callHasResult hp
    · obtain ⟨a, ha, -, rfl⟩ := callFetchResult_cases hf
      have hset := h.setAgent (b := { a with rstData := ∅ }) ha rfl s.merged
      refine ⟨hset.agents, fun c' hc' _ => ?_⟩
      obtain rfl := Option.some.inj hc'
      show c.idx < (s.clients.set c.idx _).length
      rw [List.length_set]
      exact (List.getElem?_eq_some_iff.mp (getElem?_of_agent ha)).1
    · obtain ⟨a, -, rfl⟩ := callIsDisconnected_cases hd
      refine ⟨h.agents, fun c' hc' hat => ?_⟩
      obtain rfl := Option.some.inj hc'
      exact hat.elim
    · cases (hinv.call c hc).2 _ hp
    · exact ⟨h.agents, fun c' hc' => by cases hc'⟩

end Pool

/-! ## The network -/

/-- A call of `decode` is in the list, and has not panicked. -/
def DecodeCall.Within (len : ℕ) : DecodeCall → Prop
  | .idle => True
  | .testing _ _ => 0 < len
  | .found _ idx => idx < len
  | .exhausted _ => 0 < len
  | .panicked => False

namespace Network

/-- The step disturbs nobody: no connection is closed, no send fails, no receive task ends, `decode`
is called with a chunk that is not empty and when there is a client, every answer is sent, and no
registration takes the place of a waiting call. -/
def Undisturbed (s : Network n) : NetworkOp n → Prop
  | .closeConnection _ => False
  | .endRecv _ => False
  | .sendDone _ ok => ok = true
  | .decode (.begin data) => s.links ≠ [] ∧ data ≠ []
  | .client _ (.dropDataRsp _ _) => False
  | .client idx .register => ∀ l, s.links[idx]? = some l → l.conn.NoOverwrite .register
  | _ => True

/-- What holds of the network while nobody disturbs it. -/
structure Live (s : Network n) : Prop where
  inv : s.Inv
  length : s.tasks.pool.clients.length = s.links.length
  links : ∀ l ∈ s.links, l.Live
  pool : s.tasks.pool.Live
  tasks : ∀ q ∈ s.tasks.sides, q.sendTask ≠ .ended
  decode : s.tasks.decode.Within s.links.length
  call : s.tasks.decode ≠ .idle → s.tasks.pool.call = none
  given : [] ∉ s.given
  unsent : s.unsent = []
  lost : s.lost = []

/-- A step at one slot. -/
theorem Live.of_slot {s t : Network n} (h : s.Live) (ht : t.Inv) {idx : ℕ} {l' : Link n}
    (hlinks : t.links = s.links.set idx l') (hlive : l'.Live)
    (hsides : ∀ q ∈ t.tasks.sides, q.sendTask ≠ .ended)
    (hdecode : t.tasks.decode = s.tasks.decode) (hpool : t.tasks.pool.Live)
    (hcall : t.tasks.pool.call = s.tasks.pool.call)
    (hlength : t.tasks.pool.clients.length = s.tasks.pool.clients.length)
    (hgiven : t.given = s.given) (hunsent : t.unsent = s.unsent) (hlost : t.lost = s.lost) :
    t.Live := by
  have hlen : t.links.length = s.links.length := by rw [hlinks, List.length_set]
  refine ⟨ht, ?_, fun l hl => ?_, hpool, hsides, ?_, ?_, hgiven ▸ h.given,
    hunsent.trans h.unsent, hlost.trans h.lost⟩
  · rw [hlength, hlen, h.length]
  · rw [hlinks] at hl
    rcases List.mem_or_eq_of_mem_set hl with hold | rfl
    · exact h.links l hold
    · exact hlive
  · rw [hdecode, hlen]
    exact h.decode
  · rw [hdecode, hcall]
    exact h.call

/-- A send task that goes on keeps the others going on. -/
theorem Live.of_side {s : Network n} (h : s.Live) {idx : ℕ} {q : SendSide}
    (hq : q.sendTask ≠ .ended) : ∀ p ∈ s.tasks.sides.set idx q, p.sendTask ≠ .ended := by
  intro p hp
  rcases List.mem_or_eq_of_mem_set hp with hold | rfl
  · exact h.tasks p hold
  · exact hq

/-- An accepted client is live. -/
theorem Live.accept {s t : Network n} (h : s.Live) (ht : s.accept = some t) : t.Live := by
  have hinv := h.inv.accept ht
  obtain ⟨tasks, haccept, rfl⟩ := Option.map_eq_some_iff.mp ht
  obtain ⟨hdecode, pool, hpool, rfl⟩ := PoolTasks.accept_cases haccept
  have hidle : s.tasks.decode = .idle := by
    refine hdecode.resolve_right fun hpanicked => ?_
    have hwithin := h.decode
    rw [hpanicked] at hwithin
    exact hwithin
  have hlive := h.pool.accept hpool
  refine ⟨hinv, ?_, fun l hl => ?_, ⟨hlive.agents, hlive.call⟩, fun q hq => ?_, ?_, ?_,
    h.given, h.unsent, h.lost⟩
  · obtain ⟨-, -, rfl⟩ := Pool.accept_cases hpool
    simp only [List.length_append, List.length_singleton, h.length]
  · rcases List.mem_append.mp hl with hold | hnew
    · exact h.links l hold
    · rw [List.mem_singleton.mp hnew]
      exact .new n
  · rcases List.mem_append.mp hq with hold | hnew
    · exact h.tasks q hold
    · rw [List.mem_singleton.mp hnew]
      simp
  · show s.tasks.decode.Within _
    rw [hidle]
    trivial
  · exact fun hne => absurd hidle hne

/-- A step of `decode` that leaves the queues alone. -/
theorem Live.setDecode {s t : Network n} (h : s.Live) (ht : t.Inv) {decode : DecodeCall}
    (htasks : t.tasks = { s.tasks with decode }) (hlinks : t.links = s.links)
    (hgiven : [] ∉ t.given) (hunsent : t.unsent = s.unsent) (hlost : t.lost = s.lost)
    (hwithin : decode.Within s.links.length) (hcall : s.tasks.pool.call = none) : t.Live := by
  refine ⟨ht, ?_, ?_, ?_, ?_, ?_, ?_, hgiven, hunsent.trans h.unsent, hlost.trans h.lost⟩
  · rw [htasks, hlinks]
    exact h.length
  · rw [hlinks]
    exact h.links
  · rw [htasks]
    exact h.pool
  · rw [htasks]
    exact h.tasks
  · rw [htasks, hlinks]
    exact hwithin
  · rw [htasks]
    exact fun _ => hcall

/-- The slot that `decode` has selected. -/
theorem Live.selected {s : Network n} (h : s.Live) {idx : ℕ} (hidx : idx < s.links.length) :
    ∃ a q, s.tasks.pool.agent idx = some a ∧ s.tasks.sides[idx]? = some q ∧
      q.sendTask ≠ .ended := by
  obtain ⟨a, ha, -⟩ := h.pool.agent (h.length.symm ▸ hidx)
  have hlt : idx < s.tasks.sides.length := h.inv.length ▸ hidx
  exact ⟨a, s.tasks.sides[idx], ha, List.getElem?_eq_getElem hlt, h.tasks _ (List.getElem_mem hlt)⟩

/-- `decode` keeps the network live when it finds its client. -/
theorem Live.decode_step {s t : Network n} (h : s.Live) {op : DecodeOp}
    (hop : s.Undisturbed (.decode op)) (ht : s.decode op = some t) : t.Live := by
  have hinv := h.inv.decode ht
  obtain ⟨tasks, hstep, rfl⟩ := Option.map_eq_some_iff.mp ht
  cases op with
  | begin data =>
    obtain ⟨-, hcall, rfl⟩ := PoolTasks.begin_cases hstep
    refine h.setDecode hinv rfl rfl ?_ rfl rfl (List.length_pos_of_ne_nil hop.1) hcall
    intro hmem
    rcases List.mem_append.mp hmem with hold | hnew
    · exact h.given hold
    · exact hop.2 (List.mem_singleton.mp hnew).symm
  | test =>
    obtain ⟨data, idx, htesting, rfl⟩ := PoolTasks.testStep_cases hstep
    have hcall : s.tasks.pool.call = none := h.call (by simp [htesting])
    have hwithin := h.decode
    rw [htesting] at hwithin
    rcases PoolTasks.test_cases s.tasks data idx with ⟨-, heq⟩ | ⟨a, q, ha, -, -, heq⟩ | ⟨-, heq⟩
    · exact h.setDecode hinv heq rfl h.given rfl rfl hwithin hcall
    · refine h.setDecode hinv heq rfl h.given rfl rfl ?_ hcall
      exact h.length ▸ Pool.lt_of_agent ha
    · exact h.setDecode hinv heq rfl h.given rfl rfl hwithin hcall
  | publish =>
    obtain ⟨data, idx, hidx, hne, hpublish⟩ : ∃ data idx, idx < s.links.length ∧
        s.tasks.decode ≠ .idle ∧ s.tasks.publishTo data idx = some tasks := by
      have hwithin := h.decode
      rcases PoolTasks.publish_cases hstep with ⟨data, idx, hfound, hp⟩ | ⟨data, hexhausted, hp⟩
      · rw [hfound] at hwithin
        exact ⟨data, idx, hwithin, by simp [hfound], hp⟩
      · rw [hexhausted] at hwithin
        exact ⟨data, 0, hwithin, by simp [hexhausted], hp⟩
    obtain ⟨a, q, ha, hq, hrunning⟩ := h.selected hidx
    rcases PoolTasks.publishTo_cases hpublish with ⟨a', q', -, hq', hended, -⟩ |
      ⟨a', q', -, hq', -, -, rfl⟩ | ⟨hnone | hnone, -⟩
    · obtain rfl := Option.some.inj (hq.symm.trans hq')
      exact absurd hended hrunning
    · obtain rfl := Option.some.inj (hq.symm.trans hq')
      refine ⟨hinv, h.length, h.links, h.pool, h.of_side hrunning, trivial,
        fun _ => h.call hne, h.given, h.unsent, ?_⟩
      exact (if_neg (queues_ne_of_push hq data)).trans h.lost
    · cases ha.symm.trans hnone
    · cases hq.symm.trans hnone

/-- `get_result` keeps the network live. -/
theorem Live.getResult {s : Network n} (h : s.Live) {op : CallOp} {tasks : PoolTasks}
    (ht : s.tasks.getResult op = some tasks) : Live { s with tasks } := by
  have hinv := h.inv.getResult ht
  obtain ⟨hidle, pool, hpool, rfl⟩ := h.inv.getResult_cases ht
  refine ⟨hinv, ?_, h.links, h.pool.getResult h.inv.pool hpool, h.tasks, h.decode, ?_,
    h.given, h.unsent, h.lost⟩
  · exact (Pool.getResult_frame hpool).2.trans h.length
  · exact fun hne => absurd hidle hne

/-- A send task that takes a chunk keeps the network live. -/
theorem Live.takeChunk {s t : Network n} (h : s.Live) {idx : ℕ} (ht : s.takeChunk idx = some t) :
    t.Live := by
  have hinv := h.inv.takeChunk ht
  obtain ⟨q, l, chunk, rxProcData, -, hl, -, -, rfl⟩ := takeChunk_cases ht
  exact h.of_slot hinv rfl ((h.links l (List.mem_of_getElem? hl)).setSending _)
    (h.of_side (by simp)) rfl h.pool rfl rfl rfl rfl rfl

/-- A chunk that a send task has is not empty, because `decode` was called with it. -/
theorem Live.sending_ne {s : Network n} (h : s.Live) {l : Link n} (hl : l ∈ s.links)
    {chunk : Bytes} (hchunk : l.sending = some chunk) : chunk ≠ [] := by
  rintro rfl
  have hlink : [] ∈ l.chunks := by
    rw [Link.chunks, hchunk]
    simp
  have hflight : [] ∈ s.inFlight :=
    Multiset.mem_add.mpr (.inr (Multiset.mem_of_le
      (List.single_le_sum (fun _ _ => Multiset.zero_le _) _ (List.mem_map_of_mem hl)) hlink))
  refine h.given (Multiset.mem_coe.mp ?_)
  rw [h.inv.chunks]
  simp [hflight]

/-- A send that succeeds keeps the network live. -/
theorem Live.sendDone {s t : Network n} (h : s.Live) {idx : ℕ}
    (ht : s.sendDone idx true = some t) : t.Live := by
  have hinv := h.inv.sendDone ht
  obtain ⟨q, l, chunk, -, hl, -, hchunk, ⟨-, rfl⟩ | ⟨hfailed, -⟩⟩ := sendDone_cases ht
  · have hmem := List.mem_of_getElem? hl
    exact h.of_slot hinv rfl ((h.links l hmem).serverSend (h.sending_ne hmem hchunk))
      (h.of_side (by simp)) rfl h.pool rfl rfl rfl rfl rfl
  · cases hfailed

/-- A registration keeps the network live. -/
theorem Live.regReq {s t : Network n} (h : s.Live) {idx : ℕ} (ht : s.regReq idx = some t) :
    t.Live := by
  have hinv := h.inv.regReq ht
  obtain ⟨l, id, wireOut, pool, conn, hl, -, hpool, hconn, rfl⟩ := regReq_cases ht
  obtain ⟨a, ha, rfl⟩ := Pool.regReq_cases hpool
  have hpool' := h.pool.setAgent (b := { a with state := .activate }) ha rfl s.tasks.pool.merged
  exact h.of_slot hinv rfl ((h.links l (List.mem_of_getElem? hl)).serverReply hconn) h.tasks rfl
    hpool' rfl List.length_set rfl rfl rfl

/-- A `DataRsp` keeps the network live. -/
theorem Live.dataRsp {s t : Network n} (h : s.Live) {idx : ℕ} {msg : DataRspMsg}
    (ht : s.dataRsp idx msg = some t) : t.Live := by
  have hinv := h.inv.dataRsp ht
  obtain ⟨l, wireOut, pool, conn, hl, -, hpool, hconn, rfl⟩ := dataRsp_cases ht
  obtain ⟨a, rstData, ha, -, -, rfl⟩ := Pool.dataRsp_cases hpool
  have hpool' := h.pool.setAgent (b := { a with rstData }) ha rfl
    (s.tasks.pool.merged ++ [msg.data])
  exact h.of_slot hinv rfl ((h.links l (List.mem_of_getElem? hl)).serverReply hconn) h.tasks
    rfl hpool' rfl List.length_set rfl rfl rfl

/-- A `MemReq` keeps the network live. -/
theorem Live.memReq {s t : Network n} (h : s.Live) {idx : ℕ} {data : Bytes}
    (ht : s.memReq idx data = some t) : t.Live := by
  have hinv := h.inv.memReq ht
  obtain ⟨l, c, wireOut, conn, hl, -, hconn, rfl⟩ := memReq_cases ht
  exact h.of_slot hinv rfl ((h.links l (List.mem_of_getElem? hl)).serverReply hconn) h.tasks rfl
    h.pool rfl rfl rfl rfl rfl

/-- A step of an undisturbed client overwrites nothing. -/
theorem noOverwrite_of_undisturbed {s : Network n} {idx : ℕ} {l : Link n} {op : ClientOp n}
    (hop : s.Undisturbed (.client idx op)) (hl : s.links[idx]? = some l) :
    l.conn.NoOverwrite op.toConn := by
  cases op with
  | register => exact hop l hl
  | _ => exact noOverwrite_of_ne _ (by simp [ClientOp.toConn])

/-- An undisturbed step of a client keeps the network live. -/
theorem Live.client {s t : Network n} (h : s.Live) {idx : ℕ} {op : ClientOp n}
    (hop : s.Undisturbed (.client idx op)) (ht : s.client idx op = some t) : t.Live := by
  have hinv := h.inv.client ht
  obtain ⟨l, l', out, hl, hclient, rfl⟩ := client_cases ht
  have hsent : ∀ w ips, op ≠ .dropDataRsp w ips := by
    rintro w ips rfl
    exact hop
  obtain ⟨hlive, hunsent, hlost⟩ := (h.links l (List.mem_of_getElem? hl)).client
    (noOverwrite_of_undisturbed hop hl) hsent hclient
  refine h.of_slot hinv rfl hlive h.tasks rfl h.pool rfl rfl rfl ?_ ?_
  · exact (congrArg (s.unsent ++ ·) hunsent).trans (List.append_nil _)
  · exact (congrArg (s.lost ++ ·) hlost).trans (List.append_nil _)

/-- INTERNAL: **a step that disturbs nobody** loses no chunk and ends no task.
SRC: client_pool.rs:52-119, client_agent.rs:111-207, client_proc.rs:31-175 -/
theorem Live.step {s t : Network n} (h : s.Live) {op : NetworkOp n} (hop : s.Undisturbed op)
    (ht : (networkMachine n).step s op = some t) : t.Live := by
  cases op with
  | accept => exact h.accept ht
  | decode op => exact h.decode_step hop ht
  | getResult op =>
    obtain ⟨tasks, htasks, rfl⟩ := Option.map_eq_some_iff.mp ht
    exact h.getResult htasks
  | closeConnection idx => exact hop.elim
  | takeChunk idx => exact h.takeChunk ht
  | sendDone idx ok =>
    obtain rfl : ok = true := hop
    exact h.sendDone ht
  | endRecv idx => exact hop.elim
  | regReq idx => exact h.regReq ht
  | dataRsp idx msg => exact h.dataRsp ht
  | memReq idx data => exact h.memReq ht
  | client idx op => exact h.client hop ht

/-! ## The network is never stuck -/

/-- All is done: no call of the owner of the pool is under way, and no chunk and no message. -/
structure Drained (s : Network n) : Prop where
  decode : s.tasks.decode = .idle
  call : s.tasks.pool.call = none
  queues : ∀ q ∈ s.tasks.sides, q.rxProcData = []
  sending : ∀ l ∈ s.links, l.sending = none
  conn : ∀ l ∈ s.links, l.conn.Done

/-- Some step of what was begun can be taken that disturbs nobody. -/
def GoesOn (s : Network n) : Prop :=
  ∃ op : NetworkOp n, op.serves = true ∧ s.Undisturbed op ∧ ((networkMachine n).step s op).isSome

/-- The send task takes the next chunk, or is done with the one that it has. -/
theorem Live.goesOn_side {s : Network n} (h : s.Live) {idx : ℕ} {q : SendSide}
    (hq : s.tasks.sides[idx]? = some q) (hwork : q.sendTask = .recv → q.rxProcData ≠ []) :
    s.GoesOn := by
  obtain ⟨l, hl⟩ := h.inv.link hq
  cases htask : q.sendTask with
  | recv =>
    obtain ⟨chunk, rxProcData, hrx⟩ := List.exists_cons_of_ne_nil (hwork htask)
    refine ⟨.takeChunk idx, rfl, trivial, ?_⟩
    simp only [networkMachine, Network.takeChunk, hq, hl, PoolTasks.takeChunk, htask, hrx,
      Option.map_some, Option.isSome_some]
  | sending =>
    obtain ⟨chunk, hchunk⟩ := Option.isSome_iff_exists.mp ((h.inv.hand idx q l hq hl).mpr htask)
    refine ⟨.sendDone idx true, rfl, rfl, ?_⟩
    simp only [networkMachine, Network.sendDone, hl, hchunk, PoolTasks.sendDone, hq, htask,
      Option.map_some, Option.isSome_some]
  | ended => exact absurd htask (h.tasks q (List.mem_of_getElem? hq))

/-- `decode` publishes, or waits for a send task that has something to do. -/
theorem Live.goesOn_publish {s : Network n} (h : s.Live) (data : Bytes) {idx : ℕ}
    (hidx : idx < s.links.length)
    (hpublish : s.tasks.decodeStep .publish = s.tasks.publishTo data idx) : s.GoesOn := by
  obtain ⟨a, q, ha, hq, hrunning⟩ := h.selected hidx
  by_cases hroom : q.rxProcData.length < 1024
  · refine ⟨.decode .publish, rfl, trivial, ?_⟩
    simp only [networkMachine, Network.decode, Option.isSome_map, hpublish]
    cases htask : q.sendTask with
    | ended => exact absurd htask hrunning
    | _ => simp only [PoolTasks.publishTo, ha, hq, htask, if_pos hroom, Option.isSome_some]
  · refine h.goesOn_side hq fun _ hnil => hroom ?_
    rw [hnil]
    decide

/-- A call of `decode` goes on, or the send task of a full queue does. -/
theorem Live.goesOn_decode {s : Network n} (h : s.Live) (hne : s.tasks.decode ≠ .idle) :
    s.GoesOn := by
  have hwithin := h.decode
  cases hdecode : s.tasks.decode with
  | idle => exact absurd hdecode hne
  | testing data idx =>
    refine ⟨.decode .test, rfl, trivial, ?_⟩
    simp only [networkMachine, Network.decode, Option.isSome_map, PoolTasks.decodeStep, hdecode,
      Option.isSome_some]
  | found data idx =>
    rw [hdecode] at hwithin
    exact h.goesOn_publish data hwithin (by simp only [PoolTasks.decodeStep, hdecode])
  | exhausted data =>
    rw [hdecode] at hwithin
    exact h.goesOn_publish data hwithin (by simp only [PoolTasks.decodeStep, hdecode])
  | panicked =>
    rw [hdecode] at hwithin
    exact hwithin.elim

/-- A call of `get_result` comes to its next step. -/
theorem Live.goesOn_call {s : Network n} (h : s.Live) {c : GetResult}
    (hc : s.tasks.pool.call = some c) : s.GoesOn := by
  have hidle : s.tasks.decode = .idle := by
    by_contra hne
    cases (h.call hne).symm.trans hc
  have hstep : ∀ op : CallOp, op ≠ .begin → op ≠ .waitStop →
      (s.tasks.pool.getResult op).isSome = true → s.GoesOn := by
    intro op hbegin hwait hsome
    refine ⟨.getResult op, ?_, trivial, ?_⟩
    · cases op with
      | begin => exact absurd rfl hbegin
      | _ => rfl
    · simp only [networkMachine, Option.isSome_map]
      cases op with
      | waitStop => exact absurd rfl hwait
      | _ => simpa only [PoolTasks.getResult, hidle, Option.isSome_map] using hsome
  cases hp : c.phase with
  | testing =>
    refine hstep .hasResult (by simp) (by simp) ?_
    simp only [Pool.getResult, hc, hp, Option.isSome_some]
  | fetching =>
    obtain ⟨a, ha, -⟩ := h.pool.agent (h.pool.call c hc (by rw [hp]; trivial))
    refine hstep (.fetchResult a.rstData.entries.toList) (by simp) (by simp) ?_
    have ho : Order (PtkGenerator.fetchResult a.rstData).1 a.rstData.entries.toList :=
      Multiset.coe_toList a.rstData.entries
    simp only [Pool.getResult, hc, hp, Pool.callFetchResult, ha, if_pos ho, Option.isSome_some]
  | checking =>
    obtain ⟨a, ha, -⟩ := h.pool.agent (h.pool.call c hc (by rw [hp]; trivial))
    refine hstep .isDisconnected (by simp) (by simp) ?_
    simp only [Pool.getResult, hc, hp, Pool.callIsDisconnected, ha, Option.isSome_some]
  | removing rest =>
    obtain rfl : rest = [] := (h.inv.pool.call c hc).2 rest hp
    refine hstep .ret (by simp) (by simp) ?_
    simp only [Pool.getResult, hc, hp, Option.isSome_some]

/-- What a client can do the network can do. -/
theorem client_isSome {s : Network n} {idx : ℕ} {l : Link n} {op : ClientOp n}
    (hl : s.links[idx]? = some l) (h : (l.client op).isSome = true) :
    ((networkMachine n).step s (.client idx op)).isSome = true := by
  obtain ⟨x, hx⟩ := Option.isSome_iff_exists.mp h
  simp only [networkMachine, Network.client, hl, hx, Option.bind_eq_bind, Option.bind_some,
    Option.isSome_some]

/-- The receive task of the agent takes the message at the head of the wire. -/
theorem Live.goesOn_wireOut {s : Network n} (h : s.Live) {idx : ℕ} {l : Link n}
    (hl : s.links[idx]? = some l) (hout : l.conn.wireOut ≠ []) : s.GoesOn := by
  obtain ⟨p, wireOut, hp⟩ := List.exists_cons_of_ne_nil hout
  have hlt : idx < s.tasks.pool.clients.length :=
    h.length ▸ (List.getElem?_eq_some_iff.mp hl).1
  obtain ⟨a, ha, hreceiving⟩ := h.pool.agent hlt
  cases p with
  | regReq id =>
    refine ⟨.regReq idx, rfl, trivial, ?_⟩
    simp [networkMachine, Network.regReq, hl, hp, Pool.regReq, ha, hreceiving, Conn.serverReply]
  | dataRsp data =>
    have hpage : data.InPage := by
      refine (h.links l (List.mem_of_getElem? hl)).inPage data ?_
      rw [Conn.answers, hp]
      exact List.mem_cons_self
    obtain ⟨visit, hvisit⟩ := exists_visits data
    obtain ⟨rstData, hdone, -⟩ := dataRsp_visits hvisit hpage a.rstData
    refine ⟨.dataRsp idx ⟨data, hpage, visit, hvisit⟩, rfl, trivial, ?_⟩
    simp [networkMachine, Network.dataRsp, hl, hp, Pool.dataRsp, ha, hreceiving, hdone,
      Conn.serverReply]
  | memReq c =>
    refine ⟨.memReq idx [], rfl, trivial, ?_⟩
    simp [networkMachine, Network.memReq, hl, hp, ha, hreceiving, Conn.serverReply]

/-- A client that has something to do can do it. -/
theorem Live.goesOn_conn {s : Network n} (h : s.Live) {idx : ℕ} {l : Link n}
    (hl : s.links[idx]? = some l) (hconn : l.conn.GoesOn) : s.GoesOn := by
  have hlive := h.links l (List.mem_of_getElem? hl)
  obtain ⟨op, hserves, hover, hstep⟩ := hconn
  have hclient : ∀ o : ClientOp n, o.toConn.serves = true → l.conn.NoOverwrite o.toConn →
      (∀ w ips, o ≠ .dropDataRsp w ips) → (l.client o).isSome = true → s.GoesOn := by
    refine fun o hserves hover hsent hsome => ⟨.client idx o, hserves, ?_, client_isSome hl hsome⟩
    cases o with
    | register =>
      intro l' hl'
      obtain rfl := Option.some.inj (hl.symm.trans hl')
      exact hover
    | dropDataRsp w ips => exact absurd rfl (hsent w ips)
    | _ => trivial
  have hanswer : ∀ w, l.conn.workers w = .decoding → s.GoesOn := by
    intro w hdecoding
    obtain ⟨chunk, hchunk⟩ := Option.isSome_iff_exists.mp
      (hlive.holding w (by simp [hdecoding]))
    have ho : Order (asyncDecodeYield ∅ []) [] := rfl
    refine hclient (.sendDataRsp w [] []) rfl (noOverwrite_of_ne _ (by simp [ClientOp.toConn]))
      (by simp) ?_
    simp only [Link.client, hchunk, if_pos ho, Option.isSome_map, Conn.sendDataRsp, hdecoding,
      Option.isSome_some]
  cases op with
  | takeCtrl w =>
    exact hclient (.takeCtrl w) hserves hover (by simp) (by rwa [Link.client, Option.isSome_map])
  | readMem w addr len => cases hserves
  | recv w =>
    exact hclient (.recv w) hserves hover (by simp) (by rwa [Link.client, Option.isSome_map])
  | retReadMem w =>
    exact hclient (.retReadMem w) hserves hover (by simp) (by rwa [Link.client, Option.isSome_map])
  | sendDataRsp w data =>
    refine hanswer w ?_
    simp only [connMachine, Conn.sendDataRsp] at hstep
    split at hstep
    · next hw => exact hw
    · cases hstep
  | dropDataRsp w =>
    refine hanswer w ?_
    simp only [connMachine, Conn.dropDataRsp] at hstep
    split at hstep
    · next hw => exact hw
    · cases hstep
  | register =>
    exact hclient .register hserves hover (by simp) (by rwa [Link.client, Option.isSome_map])
  | sendMemReq =>
    exact hclient .sendMemReq hserves hover (by simp) (by rwa [Link.client, Option.isSome_map])
  | recvMsg =>
    exact hclient .recvMsg hserves hover (by simp) (by rwa [Link.client, Option.isSome_map])
  | serverReply data =>
    refine h.goesOn_wireOut hl fun hnil => ?_
    simp only [connMachine, Conn.serverReply, hnil] at hstep
    cases hstep
  | serverSend ctrl => cases hserves

/-- INTERNAL: **the network is done or goes on.**
SRC: client_pool.rs:52-119, client_agent.rs:111-207, client_proc.rs:31-175 -/
theorem Live.drained_or_goesOn {s : Network n} (h : s.Live) (hn : 0 < n) :
    s.Drained ∨ s.GoesOn := by
  by_cases hdecode : s.tasks.decode = .idle
  · cases hcall : s.tasks.pool.call with
    | some c => exact .inr (h.goesOn_call hcall)
    | none =>
      by_cases hside : ∀ q ∈ s.tasks.sides, q.sendTask = .recv ∧ q.rxProcData = []
      · by_cases hconn : ∀ l ∈ s.links, l.conn.Done
        · refine .inl ⟨hdecode, hcall, fun q hq => (hside q hq).2, fun l hl => ?_, hconn⟩
          obtain ⟨idx, hidx⟩ := List.mem_iff_getElem?.mp hl
          obtain ⟨q, hq⟩ := h.inv.side hidx
          have hhand := h.inv.hand idx q l hq hidx
          rw [(hside q (List.mem_of_getElem? hq)).1] at hhand
          cases hsending : l.sending with
          | none => rfl
          | some chunk =>
            rw [hsending] at hhand
            cases hhand.mp rfl
        · simp only [not_forall] at hconn
          obtain ⟨l, hl, hbusy⟩ := hconn
          obtain ⟨idx, hidx⟩ := List.mem_iff_getElem?.mp hl
          have hlive := h.links l hl
          refine .inr (h.goesOn_conn hidx ?_)
          exact (hlive.inv.done_or_goesOn (Conn.oneSender_of_reachable hlive.reachable) hn
            hlive.ended).resolve_left hbusy
      · simp only [not_forall] at hside
        obtain ⟨q, hq, hbusy⟩ := hside
        obtain ⟨idx, hidx⟩ := List.mem_iff_getElem?.mp hq
        exact .inr (h.goesOn_side hidx fun htask hnil => hbusy ⟨htask, hnil⟩)
  · exact .inr (h.goesOn_decode hdecode)

/-! ## When all is done -/

/-- A link that is done has no chunk on it. -/
theorem chunks_of_done {l : Link n} (hfree : l.Free) (hsending : l.sending = none)
    (hdone : l.conn.Done) : l.chunks = 0 := by
  have hholding : ∑ w, (↑(l.holding w).toList : Multiset Bytes) = 0 :=
    Finset.sum_eq_zero fun w _ => by rw [hfree w (hdone.workers w)]; rfl
  rw [Link.chunks, hholding, hsending, Conn.chunks, hdone.wireIn, hdone.ctrl]
  rfl

/-- A link that is done has no answer on it. -/
theorem answersNum_of_done {l : Link n} (hdone : l.conn.Done) (page : Usize) (i : Fin 4096) :
    l.answersNum page i = 0 := by
  rw [Link.answersNum, Conn.answers, hdone.wireOut]
  rfl

/-- In a drained network no chunk is on its way. -/
theorem Drained.inFlight {s : Network n} (h : s.Drained) (hinv : s.Inv) : s.inFlight = 0 := by
  have hqueued : s.tasks.queued = 0 := by
    refine List.sum_eq_zero fun x hx => ?_
    obtain ⟨q, hq, rfl⟩ := List.mem_map.mp hx
    rw [h.queues q hq]
    rfl
  have hlinks : (s.links.map Link.chunks).sum = 0 := by
    refine List.sum_eq_zero fun x hx => ?_
    obtain ⟨l, hl, rfl⟩ := List.mem_map.mp hx
    exact chunks_of_done (hinv.free l hl) (h.sending l hl) (h.conn l hl)
  rw [Network.inFlight, hqueued, hlinks, add_zero]

/-- In a drained network no answer is on its way. -/
theorem Drained.answersNum {s : Network n} (h : s.Drained) (page : Usize) (i : Fin 4096) :
    s.answersNum page i = 0 := by
  refine List.sum_eq_zero fun x hx => ?_
  obtain ⟨l, hl, rfl⟩ := List.mem_map.mp hx
  exact answersNum_of_done (h.conn l hl) page i

/-- INTERNAL: **when all is done, every chunk is decoded and every count is in a map.**
SRC: client_pool.rs:68-119, client_agent.rs:139-155 -/
theorem Live.account {s : Network n} (h : s.Live) (hdrained : s.Drained) :
    (↑(s.decoded.map Prod.fst) : Multiset Bytes) = ↑s.given ∧
      ∀ page i, s.decodedNum page i < 2 ^ 64 →
        s.tasks.pool.returnedNum page i + s.tasks.pool.heldNum page i = s.decodedNum page i := by
  constructor
  · have hhand : s.tasks.decode.hand = none := by rw [hdrained.decode]; rfl
    rw [h.inv.chunks, hhand, hdrained.inFlight h.inv, h.lost]
    simp only [Option.toList_none, Multiset.coe_nil, zero_add, add_zero]
  · intro page i hlt
    have hcounts := h.inv.counts page i
    have hunsent : s.unsentNum page i = 0 := by
      rw [Network.unsentNum, h.unsent]
      rfl
    rw [hdrained.answersNum page i, hunsent, add_zero, add_zero] at hcounts
    have hpool := h.inv.pool.conserved page i (hcounts ▸ hlt)
    have hcall : s.tasks.pool.callNum page i = 0 := by
      rw [Pool.callNum, hdrained.call]
    omega

/-- In the beginning the network is live. -/
theorem Live.init (n : ℕ) : (networkMachine n).init.Live where
  inv := networkMachine_inv ⟨[], rfl⟩
  length := rfl
  links l hl := by cases hl
  pool := ⟨fun _ hc => (nomatch hc), fun _ hc => (nomatch hc)⟩
  tasks q hq := by cases hq
  decode := trivial
  call _ := rfl
  given := List.not_mem_nil
  unsent := rfl
  lost := rfl

end Network

/-- MAIN: **the clients decode all that the server gives them.**  In a run that disturbs nobody,
with at least one worker in each client, all is done or a step can be taken that goes on with what
was begun and disturbs nobody either; such steps come to an end, because their number is bounded by
what is left.  When all is done, the clients have decoded every chunk that `decode` was called with,
each one once, and what they have counted is, as long as no counter overflows, what `get_result` has
returned and what the agents hold.
SRC: client_pool.rs:38-119, client_agent.rs:77-207, client_proc.rs:31-175 -/
theorem network_drains {n : ℕ} (hn : 0 < n) {ops : List (NetworkOp n)} {s : Network n}
    (hrun : (networkMachine n).exec (networkMachine n).init ops = some s)
    (hmeets : (networkMachine n).Meets Network.Undisturbed (networkMachine n).init ops) :
    (s.Drained ∨ s.GoesOn) ∧
    (∀ ops' t, (∀ op ∈ ops', op.serves = true) → (networkMachine n).exec s ops' = some t →
      ops'.length + t.left ≤ s.left) ∧
    (s.Drained → (↑(s.decoded.map Prod.fst) : Multiset Bytes) = ↑s.given ∧
      ∀ page i, s.decodedNum page i < 2 ^ 64 →
        s.tasks.pool.returnedNum page i + s.tasks.pool.heldNum page i = s.decodedNum page i) := by
  have hlive : s.Live := Machine.exec_induct _ (P := Network.Live)
    (fun _ _ _ h hop ht => h.step hop ht) (Network.Live.init n) hmeets hrun
  refine ⟨hlive.drained_or_goesOn hn, fun ops' t hserves ht => ?_, hlive.account⟩
  exact Machine.length_add_le_of_lt _ (fun _ _ _ hop h => Network.left_lt hop h) hserves ht

/-- A client connects, and `decode` is called with a chunk. -/
def oneCallRun : List (NetworkOp 2) := [.accept, .regReq 0, .decode (.begin psbPlus)]

/-- The chunk is decoded after at most so many steps. -/
theorem network_drains_oneCall : ∃ s,
    (networkMachine 2).exec (networkMachine 2).init oneCallRun = some s ∧
      s.GoesOn ∧ ∀ ops' t, (∀ op ∈ ops', op.serves = true) →
        (networkMachine 2).exec s ops' = some t → ops'.length ≤ 12 := by
  have hrun : ∃ s, (networkMachine 2).exec (networkMachine 2).init oneCallRun = some s ∧
      s.left = 12 ∧ s.tasks.decode = .testing psbPlus 0 := ⟨_, rfl, rfl, rfl⟩
  obtain ⟨s, hs, hleft, htesting⟩ := hrun
  have hmeets : (networkMachine 2).Meets Network.Undisturbed (networkMachine 2).init oneCallRun :=
    .cons _ trivial rfl (.cons _ trivial rfl
      (.cons _ ⟨List.cons_ne_nil _ _, List.cons_ne_nil _ _⟩ rfl trivial))
  obtain ⟨hnext, hbound, -⟩ := network_drains (by decide) hs hmeets
  refine ⟨s, hs, hnext.resolve_left fun hdrained => ?_, fun ops' t hserves ht => ?_⟩
  · cases hdrained.decode.symm.trans htesting
  · have := hbound ops' t hserves ht
    omega

end PtkGenerator

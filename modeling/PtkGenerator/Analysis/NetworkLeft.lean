import PtkGenerator.Analysis.ConnDrains
import PtkGenerator.Analysis.NetworkAccount

/-!
# What is left to do between the server and its clients

A chunk is tested for, published, taken out of its queue and sent, and a call of `get_result` goes
from slot to slot.  Behind that a chunk is up to the client, whose steps `Conn.left` counts.
Together they bound the steps that go on with what was begun, whatever order they come in.
-/

set_option autoImplicit false

namespace PtkGenerator

open Families

variable {n : ℕ}

/-- The step of its connection that a step of a client is. -/
def ClientOp.toConn : ClientOp n → ConnOp n
  | .takeCtrl w => .takeCtrl w
  | .readMem w addr len => .readMem w addr len
  | .recv w => .recv w
  | .retReadMem w => .retReadMem w
  | .sendDataRsp w _ order => .sendDataRsp w (sparsify order)
  | .dropDataRsp w _ => .dropDataRsp w
  | .register => .register
  | .sendMemReq => .sendMemReq
  | .recvMsg => .recvMsg

/-- The step goes on with what was begun: it begins no call, and nobody connects or goes. -/
def NetworkOp.serves : NetworkOp n → Bool
  | .accept => false
  | .decode (.begin _) => false
  | .getResult .begin => false
  | .closeConnection _ => false
  | .endRecv _ => false
  | .client _ op => op.toConn.serves
  | _ => true

/-! ## The measure -/

/-- The steps that are left to a link. -/
def Link.left (l : Link n) : ℕ := l.conn.left + 5 * l.sending.toList.length

/-- The steps that are left to the queue of a slot. -/
def SendSide.left (q : SendSide) : ℕ := 6 * q.rxProcData.length

/-- The loop of `decode` goes through `len` slots. -/
def DecodeCall.left (len : ℕ) : DecodeCall → ℕ
  | .testing _ idx => len - idx + 8
  | .found _ _ => 7
  | .exhausted _ => 7
  | .idle => 0
  | .panicked => 0

/-- The loop of `get_result` goes through `len` slots. -/
def GetResult.left (len : ℕ) (c : GetResult) : ℕ :=
  match c.phase with
  | .testing => 4 * (len - c.idx) + c.disConnected.length + 3
  | .fetching => 4 * (len - c.idx) + c.disConnected.length + 2
  | .checking => 4 * (len - c.idx) + c.disConnected.length + 1
  | .removing rest => rest.length + 1

/-- The steps that are left to a call of `get_result`. -/
def Pool.callLeft (s : Pool) : ℕ :=
  match s.call with
  | some c => c.left s.clients.length
  | none => 0

namespace Network

/-- The steps that what was begun can still take. -/
def left (s : Network n) : ℕ :=
  (s.links.map Link.left).sum + (s.tasks.sides.map SendSide.left).sum +
    s.tasks.decode.left s.tasks.pool.clients.length + s.tasks.pool.callLeft

end Network

/-! ## `get_result` -/

/-- The slot of an agent is one of the slots. -/
theorem Pool.lt_of_agent {s : Pool} {idx : ℕ} {a : Agent} (h : s.agent idx = some a) :
    idx < s.clients.length := (List.getElem?_eq_some_iff.mp (getElem?_of_agent h)).1

/-- `has_result` leaves a call less. -/
theorem Pool.callLeft_callHasResult {s : Pool} {c : GetResult} (hc : s.call = some c)
    (hp : c.phase = .testing) : (s.callHasResult c).callLeft < s.callLeft := by
  have hs : s.callLeft = 4 * (s.clients.length - c.idx) + c.disConnected.length + 3 := by
    simp only [callLeft, hc, GetResult.left, hp]
  rw [hs, callHasResult]
  split
  · next hlt =>
    split
    · split
      · simp only [callLeft, GetResult.left]
        omega
      · simp only [callLeft, GetResult.left]
        omega
    · simp only [callLeft, GetResult.left, hp]
      omega
  · simp only [callLeft, GetResult.left]
    omega

/-- Each step of a call of `get_result` is one less of it. -/
theorem Pool.callLeft_getResult {s t : Pool} {op : CallOp} (hop : op ≠ .begin)
    (h : s.getResult op = some t) : t.callLeft < s.callLeft := by
  rcases Pool.getResult_cases h with ⟨hnone, -⟩ | ⟨c, hc, hcases⟩
  · cases op with
    | begin => exact absurd rfl hop
    | _ =>
      simp only [Pool.getResult, hnone] at h
      cases h
  · have hleft : s.callLeft = c.left s.clients.length := by simp only [callLeft, hc]
    rcases hcases with ⟨hp, rfl⟩ | ⟨order, hp, hf⟩ | ⟨hp, hd⟩ | ⟨idx, rest, hp, hw⟩ | ⟨hp, rfl⟩
    · exact callLeft_callHasResult hc hp
    · obtain ⟨a, -, -, rfl⟩ := callFetchResult_cases hf
      rw [hleft]
      simp only [callLeft, GetResult.left, hp, Pool.setAgent, List.length_set]
      omega
    · obtain ⟨a, ha, rfl⟩ := callIsDisconnected_cases hd
      have hlt := lt_of_agent ha
      rw [hleft]
      simp only [callLeft, GetResult.left, hp]
      split
      · rw [List.length_append, List.length_singleton]
        omega
      · omega
    · obtain ⟨a, -, -, rfl⟩ := callWaitStop_cases hw
      rw [hleft]
      simp only [callLeft, GetResult.left, hp, List.length_cons]
      omega
    · rw [hleft]
      simp only [callLeft, GetResult.left, hp]
      omega

/-! ## The steps -/

/-- A step of a client is one of its connection. -/
theorem Link.client_conn {l l' : Link n} {op : ClientOp n} {out : ClientOut}
    (h : l.client op = some (l', out)) :
    (connMachine n).step l.conn op.toConn = some l'.conn ∧ l'.sending = l.sending := by
  have hmap : ∀ {conn : Option (Conn n)} {f : Conn n → Link n × ClientOut},
      (∀ c, (f c).1.conn = c ∧ (f c).1.sending = l.sending) → conn.map f = some (l', out) →
        conn = some l'.conn ∧ l'.sending = l.sending := by
    intro conn f hf hconn
    obtain ⟨c, rfl, heq⟩ := Option.map_eq_some_iff.mp hconn
    obtain ⟨hc, hsending⟩ := hf c
    rw [heq] at hc hsending
    exact ⟨congrArg some hc.symm, hsending⟩
  cases op with
  | takeCtrl w =>
    refine hmap (fun _ => ?_) h
    split <;> exact ⟨rfl, rfl⟩
  | sendDataRsp w ips order =>
    simp only [client] at h
    split at h
    · obtain ⟨-, h⟩ := Option.ite_none_right_eq_some.mp h
      exact hmap (fun _ => ⟨rfl, rfl⟩) h
    · cases h
  | dropDataRsp w ips =>
    simp only [client] at h
    split at h
    · exact hmap (fun _ => ⟨rfl, rfl⟩) h
    · cases h
  | _ => exact hmap (fun _ => ⟨rfl, rfl⟩) h

namespace Network

variable {s t : Network n}

/-- A step at one link, or at the queue of a slot and its link. -/
theorem left_lt_of_link {idx : ℕ} {l l' : Link n} {x y : ℕ} (hl : s.links[idx]? = some l)
    (hlinks : t.links = s.links.set idx l') (hdecode : t.tasks.decode = s.tasks.decode)
    (hcall : t.tasks.pool.call = s.tasks.pool.call)
    (hlength : t.tasks.pool.clients.length = s.tasks.pool.clients.length)
    (hsides : (t.tasks.sides.map SendSide.left).sum + x = (s.tasks.sides.map SendSide.left).sum + y)
    (hlt : l'.left + y < l.left + x) : t.left < s.left := by
  have hsum := sum_map_set (b := l') hl Link.left
  simp only [left, Pool.callLeft, hlinks, hdecode, hcall, hlength] at hsum ⊢
  omega

/-- A step of `decode` leaves less. -/
theorem left_decode {op : DecodeOp} (hop : NetworkOp.serves (.decode op : NetworkOp n) = true)
    (h : s.decode op = some t) : t.left < s.left := by
  obtain ⟨tasks, hstep, rfl⟩ := Option.map_eq_some_iff.mp h
  cases op with
  | begin data => cases hop
  | test =>
    obtain ⟨data, idx, htesting, rfl⟩ := PoolTasks.testStep_cases hstep
    rcases PoolTasks.test_cases s.tasks data idx with ⟨hlt, heq⟩ | ⟨a, q, -, -, -, heq⟩ | ⟨-, heq⟩
    · rw [heq]
      simp only [left, htesting, DecodeCall.left]
      omega
    · rw [heq]
      simp only [left, htesting, DecodeCall.left]
      omega
    · rw [heq]
      simp only [left, htesting, DecodeCall.left]
      omega
  | publish =>
    obtain ⟨data, idx, hleft, hpublish⟩ : ∃ data idx,
        s.tasks.decode.left s.tasks.pool.clients.length = 7 ∧
          s.tasks.publishTo data idx = some tasks := by
      rcases PoolTasks.publish_cases hstep with ⟨data, idx, hfound, hp⟩ | ⟨data, hexhausted, hp⟩
      · exact ⟨data, idx, by rw [hfound]; rfl, hp⟩
      · exact ⟨data, 0, by rw [hexhausted]; rfl, hp⟩
    have hs : s.left = (s.links.map Link.left).sum + (s.tasks.sides.map SendSide.left).sum + 7 +
        s.tasks.pool.callLeft := by rw [left, hleft]
    rcases PoolTasks.publishTo_cases hpublish with ⟨a, q, -, -, -, rfl⟩ |
      ⟨a, q, -, hq, -, -, rfl⟩ | ⟨-, rfl⟩
    · rw [hs]
      simp only [left, DecodeCall.left]
      omega
    · have hsum := sum_map_set (b := { q with rxProcData := q.rxProcData ++ [data] }) hq
        SendSide.left
      have hq' : SendSide.left { q with rxProcData := q.rxProcData ++ [data] } = q.left + 6 := by
        simp only [SendSide.left, List.length_append, List.length_singleton]
        omega
      rw [hs]
      simp only [left, DecodeCall.left]
      omega
    · rw [hs]
      simp only [left, DecodeCall.left]
      omega

/-- A step of a call of `get_result` leaves less. -/
theorem left_getResult {op : CallOp} {tasks : PoolTasks} (hop : op ≠ .begin)
    (h : s.tasks.getResult op = some tasks) : ({ s with tasks } : Network n).left < s.left := by
  have hpool : ∀ {pool : Pool}, s.tasks.pool.getResult op = some pool →
      pool.callLeft < s.tasks.pool.callLeft ∧
        pool.clients.length = s.tasks.pool.clients.length := fun hp =>
    ⟨Pool.callLeft_getResult hop hp, (Pool.getResult_frame hp).2⟩
  obtain ⟨-, ⟨rfl, hwait⟩ | ⟨pool, hp, rfl⟩⟩ := PoolTasks.getResult_cases h
  · obtain ⟨pool, idx, q, hp, hq, rfl⟩ := PoolTasks.waitStop_cases hwait
    obtain ⟨hlt, hlength⟩ := hpool hp
    have hsum := sum_map_set (b := { q with sendTask := .ended }) hq SendSide.left
    simp only [left, hlength]
    simp only [SendSide.left] at hsum ⊢
    omega
  · obtain ⟨hlt, hlength⟩ := hpool hp
    simp only [left, hlength]
    omega

/-- A chunk that is taken from a queue leaves less. -/
theorem left_takeChunk {idx : ℕ} (h : s.takeChunk idx = some t) : t.left < s.left := by
  obtain ⟨q, l, chunk, rxProcData, hq, hl, -, hrx, rfl⟩ := takeChunk_cases h
  refine left_lt_of_link hl rfl rfl rfl rfl
    (sum_map_set (b := { q with rxProcData, sendTask := .sending }) hq SendSide.left) ?_
  simp only [Link.left, SendSide.left, hrx, List.length_cons, Option.toList_some,
    List.length_nil]
  omega

/-- A chunk for the workers adds four steps to the connection. -/
theorem left_serverSend (c : Conn n) (chunk : Bytes) :
    (c.serverSend (.proc chunk)).left = c.left + 4 := by
  simp only [Conn.serverSend, Conn.left, List.map_append, List.sum_append, List.map_cons,
    List.map_nil, List.sum_cons, List.sum_nil, ServerPacket.left]
  omega

/-- A send that is done leaves less. -/
theorem left_sendDone {idx : ℕ} {ok : Bool} (h : s.sendDone idx ok = some t) :
    t.left < s.left := by
  obtain ⟨q, l, chunk, hq, hl, -, hchunk, ⟨rfl, rfl⟩ | ⟨rfl, rfl⟩⟩ := sendDone_cases h
  · refine left_lt_of_link hl rfl rfl rfl rfl
      (sum_map_set (b := { q with sendTask := .recv }) hq SendSide.left) ?_
    simp only [Link.left, SendSide.left, left_serverSend, hchunk, Option.toList_some,
      Option.toList_none, List.length_cons, List.length_nil]
    omega
  · refine left_lt_of_link hl rfl rfl rfl rfl
      (sum_map_set (b := { q with sendTask := .ended }) hq SendSide.left) ?_
    simp only [Link.left, SendSide.left, hchunk, Option.toList_some, Option.toList_none,
      List.length_cons, List.length_nil]
    omega

/-- The receive task takes a message. -/
theorem left_reply {idx : ℕ} {l : Link n} {conn : Conn n} {data : Bytes} (pool : Pool)
    (hl : s.links[idx]? = some l) (hconn : l.conn.serverReply data = some conn)
    (hcall : pool.call = s.tasks.pool.call)
    (hlength : pool.clients.length = s.tasks.pool.clients.length) :
    ({ s.setLink idx { l with conn } with tasks := { s.tasks with pool } } : Network n).left <
      s.left := by
  refine left_lt_of_link (x := 0) (y := 0) hl rfl rfl hcall hlength rfl ?_
  exact Nat.add_lt_add_right (Conn.left_serverReply hconn) _

/-- A registration leaves less. -/
theorem left_regReq {idx : ℕ} (h : s.regReq idx = some t) : t.left < s.left := by
  obtain ⟨l, id, wireOut, pool, conn, hl, -, hpool, hconn, rfl⟩ := regReq_cases h
  obtain ⟨a, -, rfl⟩ := Pool.regReq_cases hpool
  exact left_reply _ hl hconn rfl List.length_set

/-- A `DataRsp` leaves less. -/
theorem left_dataRsp {idx : ℕ} {msg : DataRspMsg} (h : s.dataRsp idx msg = some t) :
    t.left < s.left := by
  obtain ⟨l, wireOut, pool, conn, hl, -, hpool, hconn, rfl⟩ := dataRsp_cases h
  obtain ⟨a, rstData, -, -, -, rfl⟩ := Pool.dataRsp_cases hpool
  exact left_reply _ hl hconn rfl List.length_set

/-- A `MemReq` leaves less. -/
theorem left_memReq {idx : ℕ} {data : Bytes} (h : s.memReq idx data = some t) :
    t.left < s.left := by
  obtain ⟨l, c, wireOut, conn, hl, -, hconn, rfl⟩ := memReq_cases h
  exact left_reply _ hl hconn rfl rfl

/-- A step of a client that serves leaves less. -/
theorem left_client {idx : ℕ} {op : ClientOp n} (hop : op.toConn.serves = true)
    (h : s.client idx op = some t) : t.left < s.left := by
  obtain ⟨l, l', out, hl, hclient, rfl⟩ := client_cases h
  obtain ⟨hconn, hsending⟩ := Link.client_conn hclient
  refine left_lt_of_link (x := 0) (y := 0) hl rfl rfl rfl rfl rfl ?_
  rw [Link.left, Link.left, hsending]
  exact Nat.add_lt_add_right (Conn.left_lt hop hconn) _

/-- INTERNAL: **each step of what was begun brings its end nearer.**
SRC: client_pool.rs:68-119, client_agent.rs:111-184, client_proc.rs:31-175 -/
theorem left_lt {op : NetworkOp n} (hop : op.serves = true)
    (h : (networkMachine n).step s op = some t) : t.left < s.left := by
  cases op with
  | accept => cases hop
  | decode op => exact left_decode hop h
  | getResult op =>
    obtain ⟨tasks, htasks, rfl⟩ := Option.map_eq_some_iff.mp h
    exact left_getResult (by rintro rfl; cases hop) htasks
  | closeConnection idx => cases hop
  | takeChunk idx => exact left_takeChunk h
  | sendDone idx ok => exact left_sendDone h
  | endRecv idx => cases hop
  | regReq idx => exact left_regReq h
  | dataRsp idx msg => exact left_dataRsp h
  | memReq idx data => exact left_memReq h
  | client idx op => exact left_client hop h

end Network

end PtkGenerator

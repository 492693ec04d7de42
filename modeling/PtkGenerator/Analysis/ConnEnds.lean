import PtkGenerator.Analysis.ConnDrains
import PtkGenerator.Model.ConnLife

/-!
# A client without its server

The receive loop has ended and nothing that is sent arrives.  A worker that asks for memory then
waits for the forwarding task, and that task for its next request.  The first request that cannot be
sent ends the forwarding task, and with it every call that waits and every worker that asks again.
But a call whose request was sent before waits for its reply as long as the forwarding task runs,
and the forwarding task runs as long as a worker does.  So the client comes to one of two ends: all
tasks are over, or the workers that are left wait for good.
-/

set_option autoImplicit false

namespace PtkGenerator

open Families

variable {n : ℕ}

/-- The step needs no server: nothing is sent and nothing arrives. -/
def ConnLifeOp.alone : ConnLifeOp n → Bool
  | .task .sendMemReq => false
  | .task .recvMsg => false
  | .task (.serverReply _) => false
  | .task (.serverSend _) => false
  | _ => true

/-- A worker is at its end in that phase only. -/
theorem WorkerPhase.isEnded_iff {p : WorkerPhase} : p.isEnded = true ↔ p = .ended := by
  cases p <;> simp [isEnded]

/-- The step leaves the queue, the map, the channels and the receive loop alone. -/
def ConnOp.quiet : ConnOp n → Bool
  | .readMem _ _ _ => false
  | .register => false
  | .recv _ => false
  | .recvMsg => false
  | _ => true

namespace Conn

/-- A quiet step changes neither the senders nor the slots. -/
theorem of_quiet {s t : Conn n} {op : ConnOp n} (hop : op.quiet = true)
    (ht : (connMachine n).step s op = some t) : SameSenders s t ∧ t.slots = s.slots ∧
      (s.forward = none → t.forward = none) ∧ t.listening = s.listening := by
  cases op with
  | readMem w addr len => cases hop
  | register => cases hop
  | recv w => cases hop
  | recvMsg => cases hop
  | takeCtrl w =>
    obtain ⟨-, ⟨ctrl, -, rfl⟩ | ⟨data, ctrl, -, rfl⟩ | ⟨-, -, rfl⟩⟩ := takeCtrl_cases ht
    · exact ⟨⟨rfl, rfl, rfl⟩, rfl, id, rfl⟩
    · exact ⟨⟨rfl, rfl, rfl⟩, rfl, id, rfl⟩
    · exact ⟨⟨rfl, rfl, rfl⟩, rfl, id, rfl⟩
  | retReadMem w =>
    obtain ⟨c, rst, -, rfl⟩ := retReadMem_cases ht
    exact ⟨⟨rfl, rfl, rfl⟩, rfl, id, rfl⟩
  | sendDataRsp w data =>
    obtain ⟨-, rfl⟩ := sendDataRsp_cases ht
    exact ⟨⟨rfl, rfl, rfl⟩, rfl, id, rfl⟩
  | dropDataRsp w =>
    obtain ⟨-, rfl⟩ := dropDataRsp_cases ht
    exact ⟨⟨rfl, rfl, rfl⟩, rfl, id, rfl⟩
  | sendMemReq =>
    obtain ⟨c, -, rfl⟩ := sendMemReq_cases ht
    exact ⟨⟨rfl, rfl, rfl⟩, rfl, fun _ => rfl, rfl⟩
  | serverReply data =>
    obtain ⟨reg, wireOut, -, rfl⟩ | ⟨msg, wireOut, -, rfl⟩ | ⟨c, wireOut, -, rfl⟩ :=
      serverReply_cases ht
    · exact ⟨⟨rfl, rfl, rfl⟩, rfl, id, rfl⟩
    · exact ⟨⟨rfl, rfl, rfl⟩, rfl, id, rfl⟩
    · exact ⟨⟨rfl, rfl, rfl⟩, rfl, id, rfl⟩
  | serverSend ctrl =>
    obtain rfl := Option.some.inj ht
    cases ctrl <;> exact ⟨⟨rfl, rfl, rfl⟩, rfl, id, rfl⟩

/-- The call of `read_mem` stays at its `rx.recv()`: no reply is there, but a sender is. -/
def Stays (s : Conn n) (c : Call) : Prop := s.slots c.chan = none ∧ s.SenderAlive c.chan

/-- Whether a call stays is decided by its slot and its sender. -/
instance (s : Conn n) (c : Call) : Decidable (s.Stays c) :=
  inferInstanceAs (Decidable (s.slots c.chan = none ∧ s.SenderAlive c.chan))

end Conn

namespace ConnLife

/-! ## What a step does -/

/-- The steps that need no server, behind the end of the receive loop. -/
inductive Alone (s : ConnLife n) : ConnLife n → Prop
  | init (w ctrl) : s.conn.workers w = .idle → s.conn.ctrl = .init :: ctrl →
      Alone s { s with conn := { s.conn with ctrl } }
  | proc (w data ctrl) : s.conn.workers w = .idle → s.conn.ctrl = .proc data :: ctrl →
      Alone s { s with conn := { s.conn.setWorker w (.ofChunk data) with ctrl } }
  | workerEnd (w) : s.conn.workers w = .idle →
      Alone s { s with conn := s.conn.setWorker w .ended }
  | request (w addr len) : s.forwarding = true → s.conn.workers w = .decoding →
      Alone s { s with conn := { s.conn.setWorker w (.waiting ⟨s.conn.nextChan, addr, len⟩) with
        nextChan := s.conn.nextChan + 1
        memReq := s.conn.memReq ++ [⟨s.conn.nextChan, addr, len⟩] } }
  | panic (w) : s.forwarding = false → s.conn.workers w = .decoding →
      Alone s { s with conn := s.conn.setWorker w .ended }
  | recv (w c r) : s.conn.workers w = .waiting c → ¬ s.conn.Stays c →
      Alone s { s with conn := { s.conn.setWorker w (.received c r) with
        slots := Function.update s.conn.slots c.chan none } }
  | ret (w c r) : s.conn.workers w = .received c r →
      Alone s { s with conn := { s.conn.setWorker w .decoding with
        returned := s.conn.returned ++ [(c, r)] } }
  | answer (w data) : s.conn.workers w = .decoding →
      Alone s { s with conn := { s.conn.setWorker w .idle with
        wireOut := s.conn.wireOut ++ [.dataRsp data] } }
  | noAnswer (w) : s.conn.workers w = .decoding →
      Alone s { s with conn := s.conn.setWorker w .idle }
  | register (c memReq) : s.conn.memReq = c :: memReq → s.conn.forward = none →
      Alone s { s with conn := { s.conn with
        memReq, forward := some c, memReqLst := s.conn.memReqLst.insert c.addr c.chan } }
  | failed (c) : s.conn.forward = some c →
      Alone s (dropMap ⟨{ s.conn with forward := none, memReq := [] }, false⟩)
  | forwardEnd : s.forwarding = true → s.conn.forward = none → s.conn.memReq = [] →
      (∀ w, s.conn.workers w = .ended) → Alone s (dropMap { s with forwarding := false })

/-- A worker alone asks for a read. -/
theorem readMem_alone {s t : ConnLife n} {w : Fin n} {addr len : Usize}
    (h : s.readMem w addr len = some t) : s.Alone t := by
  unfold readMem at h
  split at h
  · next hforwarding =>
    obtain ⟨conn, hconn, rfl⟩ := Option.map_eq_some_iff.mp h
    obtain ⟨hw, rfl⟩ := Conn.readMem_cases hconn
    exact .request w addr len hforwarding hw
  · next hforwarding =>
    split at h
    · next hw =>
      obtain rfl := Option.some.inj h
      exact .panic w (Bool.eq_false_iff.mpr hforwarding) hw
    · cases h

/-- A worker alone receives its reply. -/
theorem recv_alone {s : ConnLife n} {w : Fin n} {conn : Conn n} (h : s.conn.recv w = some conn) :
    s.Alone { s with conn } := by
  obtain ⟨c, hw, ⟨r, hslot, rfl⟩ | ⟨hslot, hdead, rfl⟩⟩ := Conn.recv_cases h
  · refine .recv w c (some r) hw fun hstays => ?_
    rw [hstays.1] at hslot
    cases hslot
  · -- the channel is empty already
    have hsame : Function.update s.conn.slots c.chan none = s.conn.slots := by
      rw [← hslot, Function.update_eq_self]
    have hstep := Alone.recv (s := s) w c none hw fun hstays => hdead hstays.2
    rwa [hsame] at hstep

/-- INTERNAL: a step that needs no server is one of these. -/
theorem alone_of_step {s t : ConnLife n} {op : ConnLifeOp n} (hgone : s.conn.listening = false)
    (hop : op.alone = true) (h : (connLifeMachine n).step s op = some t) : s.Alone t := by
  cases op with
  | task op =>
    cases op with
    | takeCtrl w =>
      obtain ⟨conn, hconn, rfl⟩ := Option.map_eq_some_iff.mp h
      obtain ⟨hw, ⟨ctrl, hctrl, rfl⟩ | ⟨data, ctrl, hctrl, rfl⟩ | ⟨-, -, rfl⟩⟩ :=
        Conn.takeCtrl_cases hconn
      · exact .init w ctrl hw hctrl
      · exact .proc w data ctrl hw hctrl
      · exact .workerEnd w hw
    | readMem w addr len => exact readMem_alone h
    | recv w =>
      obtain ⟨conn, hconn, rfl⟩ := Option.map_eq_some_iff.mp h
      exact recv_alone hconn
    | retReadMem w =>
      obtain ⟨conn, hconn, rfl⟩ := Option.map_eq_some_iff.mp h
      obtain ⟨c, r, hw, rfl⟩ := Conn.retReadMem_cases hconn
      exact .ret w c r hw
    | sendDataRsp w data =>
      obtain ⟨conn, hconn, rfl⟩ := Option.map_eq_some_iff.mp h
      obtain ⟨hw, rfl⟩ := Conn.sendDataRsp_cases hconn
      exact .answer w data hw
    | dropDataRsp w =>
      obtain ⟨conn, hconn, rfl⟩ := Option.map_eq_some_iff.mp h
      obtain ⟨hw, rfl⟩ := Conn.dropDataRsp_cases hconn
      exact .noAnswer w hw
    | register =>
      obtain ⟨conn, hconn, rfl⟩ := Option.map_eq_some_iff.mp h
      obtain ⟨c, memReq, hreq, hforward, rfl⟩ := Conn.register_cases hconn
      exact .register c memReq hreq hforward
    | sendMemReq => cases hop
    | recvMsg => cases hop
    | serverReply data => cases hop
    | serverSend ctrl => cases hop
  | recvFails =>
    obtain ⟨hlistening, -⟩ := Option.ite_none_right_eq_some.mp h
    rw [hgone] at hlistening
    cases hlistening
  | sendFails =>
    have h : s.sendFails = some t := h
    unfold sendFails at h
    split at h
    · next c hforward =>
      obtain rfl := Option.some.inj h
      exact .failed c hforward
    · cases h
  | forwardEnd =>
    obtain ⟨⟨hforwarding, hforward, hreq, -, hended⟩, h⟩ := Option.ite_none_right_eq_some.mp h
    obtain rfl := Option.some.inj h
    exact .forwardEnd hforwarding hforward (List.isEmpty_iff.mp hreq)
      fun w => WorkerPhase.isEnded_iff.mp (hended w)

/-! ## What holds between the two tasks -/

/-- Channels are new, and the queue and the map go with the tasks that hold them. -/
structure Inv (s : ConnLife n) : Prop where
  fresh : ∀ ch, s.conn.SenderAlive ch → ch < s.conn.nextChan
  empty : ∀ ch, s.conn.nextChan ≤ ch → s.conn.slots ch = none
  forwarded : s.forwarding = false → s.conn.memReq = [] ∧ s.conn.forward = none
  dropped : s.forwarding = false → s.conn.listening = false → s.conn.memReqLst = ∅

/-- A sender behind the end of the forwarding task was there before. -/
theorem senderAlive_dropMap {s : ConnLife n} {ch : ℕ} (h : s.dropMap.conn.SenderAlive ch) :
    s.conn.SenderAlive ch := by
  unfold dropMap at h
  split at h
  · exact h
  · rcases h with hqueue | ⟨addr, -, hlookup⟩
    · exact .inl hqueue
    · rw [Finmap.lookup_empty] at hlookup
      cases hlookup

/-- The end of the forwarding task leaves the workers and the channel as they are. -/
theorem dropMap_frame (s : ConnLife n) : s.dropMap.forwarding = s.forwarding ∧
    s.dropMap.conn.workers = s.conn.workers ∧ s.dropMap.conn.ctrl = s.conn.ctrl ∧
    s.dropMap.conn.listening = s.conn.listening := by
  unfold dropMap
  split <;> exact ⟨rfl, rfl, rfl, rfl⟩

/-- What the map is needed for is over when it is dropped. -/
theorem inv_dropMap {s : ConnLife n} (hfresh : ∀ ch, s.conn.SenderAlive ch → ch < s.conn.nextChan)
    (hempty : ∀ ch, s.conn.nextChan ≤ ch → s.conn.slots ch = none)
    (hover : s.forwarding = false → s.conn.memReq = [] ∧ s.conn.forward = none) :
    s.dropMap.Inv := by
  have halive : ∀ ch, s.dropMap.conn.SenderAlive ch → s.conn.SenderAlive ch :=
    fun _ => senderAlive_dropMap
  unfold dropMap at halive ⊢
  split
  · next hheld =>
    refine ⟨hfresh, hempty, hover, fun hforwarding hlistening => ?_⟩
    rw [hforwarding, hlistening] at hheld
    simp at hheld
  · next hheld =>
    rw [if_neg hheld] at halive
    exact ⟨fun ch h => hfresh ch (halive ch h), hempty, hover, fun _ _ => rfl⟩

/-- A step of a task that neither asks nor registers. -/
theorem Inv.of_sameSenders {s : ConnLife n} (h : s.Inv) {conn : Conn n}
    (hsame : Conn.SameSenders s.conn conn)
    (hslots : ∀ ch, s.conn.nextChan ≤ ch → conn.slots ch = none)
    (hforward : s.conn.forward = none → conn.forward = none) :
    (∀ ch, conn.SenderAlive ch → ch < conn.nextChan) ∧
      (∀ ch, conn.nextChan ≤ ch → conn.slots ch = none) ∧
      (s.forwarding = false → conn.memReq = [] ∧ conn.forward = none) := by
  obtain ⟨hreq, hmap, hnext⟩ := hsame
  refine ⟨fun ch halive => ?_, fun ch hch => hslots ch (hnext ▸ hch), fun hforwarding => ?_⟩
  · rw [hnext]
    unfold Conn.SenderAlive at halive
    rw [hreq, hmap] at halive
    exact h.fresh ch halive
  · obtain ⟨hnil, hnone⟩ := h.forwarded hforwarding
    exact ⟨hreq.trans hnil, hforward hnone⟩

/-- A read that is asked for keeps the senders and slots in order. -/
theorem Inv.readMem {s t : ConnLife n} {w : Fin n} {addr len : Usize} (h : s.Inv)
    (ht : s.readMem w addr len = some t) : t.Inv := by
  unfold ConnLife.readMem at ht
  split at ht
  · next hforwarding =>
    obtain ⟨conn, hconn, rfl⟩ := Option.map_eq_some_iff.mp ht
    obtain ⟨-, rfl⟩ := Conn.readMem_cases hconn
    refine ⟨?_, fun ch hch => h.empty ch (Nat.le_of_succ_le hch), ?_, ?_⟩
    · rintro ch (⟨c, hc, rfl⟩ | hmap)
      · rcases List.mem_append.mp hc with hold | hnew
        · exact Nat.lt_succ_of_lt (h.fresh c.chan (.inl ⟨c, hold, rfl⟩))
        · rw [List.mem_singleton.mp hnew]
          exact Nat.lt_succ_self _
      · exact Nat.lt_succ_of_lt (h.fresh ch (.inr hmap))
    · intro hnot
      rw [hforwarding] at hnot
      cases hnot
    · intro hnot
      rw [hforwarding] at hnot
      cases hnot
  · split at ht
    · obtain rfl := Option.some.inj ht
      exact ⟨h.fresh, h.empty, h.forwarded, h.dropped⟩
    · cases ht

/-- A registration keeps the senders and slots in order. -/
theorem Inv.register {s : ConnLife n} {conn : Conn n} (h : s.Inv)
    (hconn : s.conn.register = some conn) : ({ s with conn } : ConnLife n).Inv := by
  obtain ⟨c, memReq, hreq, hforward, rfl⟩ := Conn.register_cases hconn
  have hmem : ∀ d ∈ c :: memReq, d.chan < s.conn.nextChan := by
    intro d hd
    rw [← hreq] at hd
    exact h.fresh d.chan (.inl ⟨d, hd, rfl⟩)
  have hrunning : s.forwarding = true := by
    by_contra hnot
    rw [(h.forwarded (Bool.eq_false_iff.mpr hnot)).1] at hreq
    cases hreq
  refine ⟨?_, h.empty, ?_, ?_⟩
  · rintro ch (⟨d, hd, rfl⟩ | ⟨addr, -, hlookup⟩)
    · exact hmem d (List.mem_cons_of_mem c hd)
    · by_cases haddr : addr = c.addr
      · rw [haddr, Finmap.lookup_insert] at hlookup
        obtain rfl := Option.some.inj hlookup
        exact hmem c List.mem_cons_self
      · rw [Finmap.lookup_insert_of_ne _ haddr] at hlookup
        exact h.fresh ch (Conn.senderAlive_of_lookup hlookup)
  · intro hnot
    rw [hrunning] at hnot
    cases hnot
  · intro hnot
    rw [hrunning] at hnot
    cases hnot

/-- What the receive loop puts into a channel, it puts into one that was made before. -/
theorem slots_recvMsg {s t : Conn n} (hfresh : ∀ ch, s.SenderAlive ch → ch < s.nextChan)
    (hempty : ∀ ch, s.nextChan ≤ ch → s.slots ch = none) (h : s.recvMsg = some t) :
    (∀ ch, s.nextChan ≤ ch → t.slots ch = none) ∧ t.forward = s.forward := by
  obtain ⟨p, wireIn, -, ⟨ctrl, listening, rfl⟩ | ⟨c, data, ch, -, hlookup, rfl⟩⟩ :=
    Conn.recvMsg_cases h
  · exact ⟨hempty, rfl⟩
  · have hlt : ch < s.nextChan := hfresh ch (Conn.senderAlive_of_lookup hlookup)
    refine ⟨fun ch' hch' => ?_, rfl⟩
    change Function.update s.slots ch _ ch' = none
    rw [Function.update_of_ne (by omega)]
    exact hempty ch' hch'

/-- A step of a task that keeps the queue, the map and the receive loop as they are. -/
theorem Inv.task {s : ConnLife n} (h : s.Inv) {conn : Conn n}
    (hsame : Conn.SameSenders s.conn conn)
    (hslots : ∀ ch, s.conn.nextChan ≤ ch → conn.slots ch = none)
    (hforward : s.conn.forward = none → conn.forward = none)
    (hlistening : conn.listening = s.conn.listening) : ({ s with conn } : ConnLife n).Inv := by
  obtain ⟨hfresh, hempty, hover⟩ := h.of_sameSenders hsame hslots hforward
  refine ⟨hfresh, hempty, hover, fun hforwarding hgone => ?_⟩
  exact hsame.2.1.trans (h.dropped hforwarding (hlistening.symm.trans hgone))

/-- A received reply leaves the slots of later calls empty. -/
theorem slots_recv {s t : Conn n} {w : Fin n} (hempty : ∀ ch, s.nextChan ≤ ch → s.slots ch = none)
    (h : s.recv w = some t) : (∀ ch, s.nextChan ≤ ch → t.slots ch = none) ∧
      t.forward = s.forward ∧ t.listening = s.listening := by
  obtain ⟨c, -, ⟨r, -, rfl⟩ | ⟨-, -, rfl⟩⟩ := Conn.recv_cases h
  · refine ⟨fun ch hch => ?_, rfl, rfl⟩
    exact forall_update (P := fun ch r => s.nextChan ≤ ch → r = none) hempty (fun _ => rfl) ch hch
  · exact ⟨hempty, rfl, rfl⟩

/-- The steps that neither ask, register nor receive. -/
theorem Inv.quiet {s : ConnLife n} (h : s.Inv) (op : ConnOp n) (hop : op.quiet = true)
    {conn : Conn n} (hconn : (connMachine n).step s.conn op = some conn) :
    ({ s with conn } : ConnLife n).Inv := by
  obtain ⟨hsame, hslots, hforward, hlistening⟩ := Conn.of_quiet hop hconn
  refine h.task hsame (fun ch hch => ?_) hforward hlistening
  rw [hslots]
  exact h.empty ch hch

/-- INTERNAL: **one step.** -/
theorem Inv.step {s t : ConnLife n} {op : ConnLifeOp n} (h : s.Inv)
    (ht : (connLifeMachine n).step s op = some t) : t.Inv := by
  cases op with
  | task op =>
    cases op with
    | readMem w addr len => exact h.readMem ht
    | register =>
      obtain ⟨conn, hconn, rfl⟩ := Option.map_eq_some_iff.mp ht
      exact h.register hconn
    | recvMsg =>
      obtain ⟨conn, hconn, rfl⟩ := Option.map_eq_some_iff.mp ht
      have hstep : (connMachine n).step s.conn .recvMsg = some conn := hconn
      have hsame := Conn.sameSenders_of_step (by simp) (by simp) hstep
      obtain ⟨hslots, hforward⟩ := slots_recvMsg h.fresh h.empty hconn
      obtain ⟨hfresh, hempty, hover⟩ := h.of_sameSenders hsame hslots hforward.trans
      exact inv_dropMap hfresh hempty hover
    | recv w =>
      obtain ⟨conn, hconn, rfl⟩ := Option.map_eq_some_iff.mp ht
      have hstep : (connMachine n).step s.conn (.recv w) = some conn := hconn
      have hsame := Conn.sameSenders_of_step (by simp) (by simp) hstep
      obtain ⟨hslots, hforward, hlistening⟩ := slots_recv h.empty hconn
      exact h.task hsame hslots hforward.trans hlistening
    | takeCtrl w =>
      obtain ⟨conn, hconn, rfl⟩ := Option.map_eq_some_iff.mp ht
      exact h.quiet (.takeCtrl w) rfl hconn
    | retReadMem w =>
      obtain ⟨conn, hconn, rfl⟩ := Option.map_eq_some_iff.mp ht
      exact h.quiet (.retReadMem w) rfl hconn
    | sendDataRsp w data =>
      obtain ⟨conn, hconn, rfl⟩ := Option.map_eq_some_iff.mp ht
      exact h.quiet (.sendDataRsp w data) rfl hconn
    | dropDataRsp w =>
      obtain ⟨conn, hconn, rfl⟩ := Option.map_eq_some_iff.mp ht
      exact h.quiet (.dropDataRsp w) rfl hconn
    | sendMemReq =>
      obtain ⟨conn, hconn, rfl⟩ := Option.map_eq_some_iff.mp ht
      exact h.quiet .sendMemReq rfl hconn
    | serverReply data =>
      obtain ⟨conn, hconn, rfl⟩ := Option.map_eq_some_iff.mp ht
      exact h.quiet (.serverReply data) rfl hconn
    | serverSend ctrl =>
      obtain rfl := Option.some.inj ht
      exact h.quiet (.serverSend ctrl) rfl rfl
  | recvFails =>
    obtain ⟨-, ht⟩ := Option.ite_none_right_eq_some.mp ht
    obtain rfl := Option.some.inj ht
    exact inv_dropMap h.fresh h.empty h.forwarded
  | sendFails =>
    have ht : s.sendFails = some t := ht
    unfold sendFails at ht
    split at ht
    · obtain rfl := Option.some.inj ht
      refine inv_dropMap ?_ h.empty fun _ => ⟨rfl, rfl⟩
      rintro ch (⟨c, hc, -⟩ | hmap)
      · cases hc
      · exact h.fresh ch (.inr hmap)
    · cases ht
  | forwardEnd =>
    obtain ⟨⟨-, hforward, hreq, -, -⟩, ht⟩ := Option.ite_none_right_eq_some.mp ht
    obtain rfl := Option.some.inj ht
    exact inv_dropMap h.fresh h.empty fun _ => ⟨List.isEmpty_iff.mp hreq, hforward⟩

/-- The senders and slots of every reachable client are in order. -/
theorem inv_of_reachable {s : ConnLife n} (hs : (connLifeMachine n).Reachable s) : s.Inv := by
  refine Machine.invariant _ (P := Inv)
    ⟨?_, fun _ _ => rfl, fun h => (by cases h), fun h => (by cases h)⟩
    (fun _ _ _ h ht => h.step ht) hs
  rintro ch (⟨c, hc, -⟩ | ⟨addr, -, hlookup⟩)
  · cases hc
  · exact absurd hlookup (by simp [connLifeMachine, connMachine])

/-! ## The steps that are left -/

/-- The steps that a worker can still take until the forwarding task takes its next one. -/
def phaseLeft (s : Conn n) : WorkerPhase → ℕ
  | .idle => 1
  | .decoding => 4
  | .waiting c => if s.Stays c then 3 else 6
  | .received _ _ => 5
  | .ended => 0

/-- The steps that a message for the workers may lead to. -/
def ctrlLeft : ProcCtrl → ℕ
  | .init => 1
  | .proc _ => 4

/-- The steps that the forwarding task can still take. -/
def forwardLeft (s : ConnLife n) : ℕ :=
  match s.forwarding, s.conn.forward with
  | false, _ => 0
  | true, some _ => 1
  | true, none => 2

/-- A bound of the steps that need no server.  Each step of the forwarding task may free all calls
that wait. -/
def aloneLeft (s : ConnLife n) : ℕ :=
  (3 * n + 1) * s.forwardLeft + ∑ w, phaseLeft s.conn (s.conn.workers w) +
    (s.conn.ctrl.map ctrlLeft).sum

/-- A worker with a chunk is worth no more than the chunk was. -/
theorem phaseLeft_ofChunk (s : Conn n) (data : Bytes) : phaseLeft s (.ofChunk data) ≤ 4 := by
  unfold WorkerPhase.ofChunk
  split
  · exact Nat.zero_le _
  · exact le_refl _

/-- A phase has no more steps left where every call that stays still does. -/
theorem phaseLeft_le {s t : Conn n} (h : ∀ c, s.Stays c → t.Stays c) (p : WorkerPhase) :
    phaseLeft t p ≤ phaseLeft s p := by
  cases p with
  | waiting c =>
    simp only [phaseLeft]
    split
    · split <;> omega
    · next ht =>
      rw [if_neg (mt (h c) ht)]
  | _ => exact le_refl _

/-- A change of the senders adds at most three steps to a phase. -/
theorem phaseLeft_le_add (s t : Conn n) (p : WorkerPhase) :
    phaseLeft t p ≤ phaseLeft s p + 3 := by
  cases p with
  | waiting c =>
    simp only [phaseLeft]
    split <;> split <;> omega
  | _ => exact Nat.le_add_right _ _

/-- A step of one worker that takes no sender and no empty channel away. -/
theorem sum_phaseLeft_le {s t : Conn n} (h : ∀ c, s.Stays c → t.Stays c) {w : Fin n}
    {p : WorkerPhase} (hworkers : t.workers = Function.update s.workers w p) :
    (∑ v, phaseLeft t (t.workers v)) + phaseLeft s (s.workers w) ≤
      (∑ v, phaseLeft s (s.workers v)) + phaseLeft t p := by
  have hsum := sum_add_le_of_ne (f := fun v => phaseLeft t (t.workers v))
    (g := fun v => phaseLeft s (s.workers v)) (i := w) fun v hv => by
      rw [hworkers, Function.update_of_ne hv]
      exact phaseLeft_le h _
  rw [hworkers, Function.update_self] at hsum
  rw [hworkers]
  exact hsum

/-- A step of the forwarding task. -/
theorem sum_phaseLeft_le_add {s t : Conn n} (hworkers : t.workers = s.workers) :
    ∑ v, phaseLeft t (t.workers v) ≤ (∑ v, phaseLeft s (s.workers v)) + 3 * n := by
  have hsum := Finset.sum_le_sum fun (v : Fin n) (_ : v ∈ Finset.univ) =>
    phaseLeft_le_add s t (s.workers v)
  rw [Finset.sum_add_distrib, Finset.sum_const, Finset.card_univ, Fintype.card_fin, smul_eq_mul,
    mul_comm n 3] at hsum
  rw [hworkers]
  exact hsum

/-- A task alone does not make the receive loop listen, nor stop. -/
theorem Alone.listening {s t : ConnLife n} (ht : s.Alone t) :
    t.conn.listening = s.conn.listening := by
  cases ht with
  | failed c hforward => exact (dropMap_frame _).2.2.2
  | forwardEnd hforwarding hforward hreq hended => exact (dropMap_frame _).2.2.2
  | _ => rfl

/-- The forwarding task takes a step: what it frees costs less than the step was worth. -/
theorem aloneLeft_lt_of_forward {s t : ConnLife n} (hworkers : t.conn.workers = s.conn.workers)
    (hctrl : t.conn.ctrl = s.conn.ctrl) (hforward : t.forwardLeft < s.forwardLeft) :
    t.aloneLeft < s.aloneLeft := by
  have hsum := sum_phaseLeft_le_add hworkers
  have hmul := Nat.mul_le_mul_left (3 * n + 1) hforward
  rw [Nat.succ_eq_add_one, Nat.mul_add, Nat.mul_one] at hmul
  unfold aloneLeft
  rw [hctrl]
  omega

/-- A worker takes a step that is worth more than the phase it comes to. -/
theorem aloneLeft_lt_of_worker {s t : ConnLife n} {w : Fin n} {p : WorkerPhase}
    (hworkers : t.conn.workers = Function.update s.conn.workers w p)
    (hstays : ∀ c, s.conn.Stays c → t.conn.Stays c) (hforward : t.forwardLeft = s.forwardLeft)
    (hlt : phaseLeft t.conn p + (t.conn.ctrl.map ctrlLeft).sum <
      phaseLeft s.conn (s.conn.workers w) + (s.conn.ctrl.map ctrlLeft).sum) :
    t.aloneLeft < s.aloneLeft := by
  have hsum := sum_phaseLeft_le hstays hworkers
  unfold aloneLeft
  rw [hforward]
  omega

/-- INTERNAL: **each step that needs no server brings the end nearer.**
SRC: client_proc.rs:32-44, 56-92, 115-133 -/
theorem Inv.aloneLeft_lt {s t : ConnLife n} (h : s.Inv) (ht : s.Alone t) :
    t.aloneLeft < s.aloneLeft := by
  cases ht with
  | init w ctrl hw hctrl =>
    refine aloneLeft_lt_of_worker (w := w) (p := .idle) ?_ (fun _ hc => hc) rfl ?_
    · exact (Function.update_eq_self_iff.mpr hw.symm).symm
    · simp only [hw, hctrl, phaseLeft, List.map_cons, List.sum_cons, ctrlLeft]
      omega
  | proc w data ctrl hw hctrl =>
    refine aloneLeft_lt_of_worker rfl (fun _ hc => hc) rfl ?_
    refine lt_of_le_of_lt (Nat.add_le_add_right (phaseLeft_ofChunk _ data) _) ?_
    simp only [hw, hctrl, phaseLeft, List.map_cons, List.sum_cons, ctrlLeft]
    omega
  | workerEnd w hw =>
    refine aloneLeft_lt_of_worker rfl (fun _ hc => hc) rfl (Nat.add_lt_add_right ?_ _)
    simp [hw, phaseLeft]
  | request w addr len hforwarding hw =>
    refine aloneLeft_lt_of_worker rfl (fun c hc => ⟨hc.1, ?_⟩) rfl (Nat.add_lt_add_right ?_ _)
    · exact hc.2.imp_left fun ⟨d, hd, hch⟩ => ⟨d, List.mem_append_left _ hd, hch⟩
    · -- the new channel is empty, and its sender is in the queue
      have hqueue := List.mem_append_right s.conn.memReq (List.mem_singleton_self
        (⟨s.conn.nextChan, addr, len⟩ : Call))
      refine lt_of_eq_of_lt (if_pos ⟨h.empty _ (le_refl _), .inl ⟨_, hqueue, rfl⟩⟩) ?_
      simp [hw, phaseLeft]
  | panic w hforwarding hw =>
    refine aloneLeft_lt_of_worker rfl (fun _ hc => hc) rfl (Nat.add_lt_add_right ?_ _)
    simp [hw, phaseLeft]
  | recv w c r hw hstays =>
    refine aloneLeft_lt_of_worker rfl (fun d hd => ⟨?_, hd.2⟩) rfl (Nat.add_lt_add_right ?_ _)
    · exact forall_update (P := fun ch r => s.conn.slots ch = none → r = none) (fun _ => id)
        (fun _ => rfl) d.chan hd.1
    · rw [hw, phaseLeft, phaseLeft, if_neg hstays]
      omega
  | ret w c r hw =>
    refine aloneLeft_lt_of_worker rfl (fun _ hc => hc) rfl (Nat.add_lt_add_right ?_ _)
    simp [hw, phaseLeft]
  | answer w data hw =>
    refine aloneLeft_lt_of_worker rfl (fun _ hc => hc) rfl (Nat.add_lt_add_right ?_ _)
    simp [hw, phaseLeft]
  | noAnswer w hw =>
    refine aloneLeft_lt_of_worker rfl (fun _ hc => hc) rfl (Nat.add_lt_add_right ?_ _)
    simp [hw, phaseLeft]
  | register c memReq hreq hforward =>
    refine aloneLeft_lt_of_forward rfl rfl ?_
    have hrunning : s.forwarding = true := by
      by_contra hnot
      rw [(h.forwarded (Bool.eq_false_iff.mpr hnot)).1] at hreq
      cases hreq
    simp only [forwardLeft, hrunning, hforward]
    omega
  | failed c hforward =>
    obtain ⟨hover, hworkers, hctrl, -⟩ :=
      dropMap_frame ⟨{ s.conn with forward := none, memReq := [] }, false⟩
    refine aloneLeft_lt_of_forward hworkers hctrl ?_
    have hrunning : s.forwarding = true := by
      by_contra hnot
      rw [(h.forwarded (Bool.eq_false_iff.mpr hnot)).2] at hforward
      cases hforward
    simp only [forwardLeft, hover, hrunning, hforward]
    omega
  | forwardEnd hforwarding hforward hreq hended =>
    obtain ⟨hover, hworkers, hctrl, -⟩ := dropMap_frame { s with forwarding := false }
    refine aloneLeft_lt_of_forward hworkers hctrl ?_
    simp only [forwardLeft, hover, hforwarding, hforward]
    omega

/-! ## The two ends -/

/-- All tasks are over. -/
structure AllOver (s : ConnLife n) : Prop where
  forwarding : s.forwarding = false
  workers : ∀ w, s.conn.workers w = .ended

/-- The worker is over, or waits for the reply to a request that was taken from the queue. -/
def Waits (s : ConnLife n) (w : Fin n) : Prop :=
  s.conn.workers w = .ended ∨ ∃ c addr, s.conn.workers w = .waiting c ∧
    s.conn.slots c.chan = none ∧ s.conn.memReqLst.lookup addr = some c.chan

/-- The workers that are left wait for replies, and the forwarding task for their next request. -/
structure Stuck (s : ConnLife n) : Prop where
  forwarding : s.forwarding = true
  forward : s.conn.forward = none
  memReq : s.conn.memReq = []
  workers : ∀ w, s.Waits w
  left : ∃ w, s.conn.workers w ≠ .ended

/-- Some step that needs no server can be taken. -/
def GoesOn (s : ConnLife n) : Prop :=
  ∃ op : ConnLifeOp n, op.alone = true ∧ ((connLifeMachine n).step s op).isSome

/-- A step of the connection that needs no server goes on. -/
theorem goesOn_conn {s : ConnLife n} (op : ConnOp n) (halone : (ConnLifeOp.task op).alone = true)
    (htask : s.task op = ((connMachine n).step s.conn op).map fun conn => { s with conn })
    (hstep : ((connMachine n).step s.conn op).isSome) : s.GoesOn := by
  refine ⟨.task op, halone, ?_⟩
  change (s.task op).isSome = true
  rw [htask, Option.isSome_map]
  exact hstep

/-- A worker goes on, is over, or waits. -/
theorem goesOn_worker {s : ConnLife n} (hgone : s.conn.listening = false)
    (hreq : s.conn.memReq = []) (w : Fin n) : s.GoesOn ∨ s.Waits w := by
  cases hw : s.conn.workers w with
  | idle =>
    refine .inl (goesOn_conn (.takeCtrl w) rfl rfl ?_)
    cases hctrl : s.conn.ctrl with
    | nil => simp [connMachine, Conn.takeCtrl, hw, hctrl, hgone]
    | cons m ctrl => cases m <;> simp [connMachine, Conn.takeCtrl, hw, hctrl]
  | decoding =>
    refine .inl (goesOn_conn (.sendDataRsp w ∅) rfl rfl ?_)
    simp [connMachine, Conn.sendDataRsp, hw]
  | received c r =>
    refine .inl (goesOn_conn (.retReadMem w) rfl rfl ?_)
    simp [connMachine, Conn.retReadMem, hw]
  | ended => exact .inr (.inl hw)
  | waiting c =>
    by_cases hstays : s.conn.Stays c
    · obtain ⟨hslot, ⟨d, hd, -⟩ | ⟨addr, -, hlookup⟩⟩ := hstays
      · rw [hreq] at hd
        cases hd
      · exact .inr (.inr ⟨c, addr, hw, hslot, hlookup⟩)
    · refine .inl (goesOn_conn (.recv w) rfl rfl ?_)
      cases hslot : s.conn.slots c.chan with
      | some r => simp [connMachine, Conn.recv, hw, hslot]
      | none =>
        have hdead : ¬ s.conn.SenderAlive c.chan := fun halive => hstays ⟨hslot, halive⟩
        simp [connMachine, Conn.recv, hw, hslot, hdead]

/-- INTERNAL: **a client without its server goes on until it has come to one of the two ends.**
SRC: client_proc.rs:32-44, 56-92, 115-139 -/
theorem Inv.ends_or_goesOn {s : ConnLife n} (h : s.Inv) (hgone : s.conn.listening = false) :
    s.AllOver ∨ s.Stuck ∨ s.GoesOn := by
  by_cases hforward : s.conn.forward = none
  · by_cases hreq : s.conn.memReq = []
    · by_cases hwaits : ∀ w, s.Waits w
      · by_cases hall : ∀ w, s.conn.workers w = .ended
        · cases hforwarding : s.forwarding with
          | false => exact .inl ⟨hforwarding, hall⟩
          | true =>
            refine .inr (.inr ⟨.forwardEnd, rfl, ?_⟩)
            simp [connLifeMachine, forwardEnd, hforwarding, hforward, hreq, hgone, hall,
              WorkerPhase.isEnded]
        · obtain ⟨w, hw⟩ := not_forall.mp hall
          cases hforwarding : s.forwarding with
          | true => exact .inr (.inl ⟨hforwarding, hforward, hreq, hwaits, w, hw⟩)
          | false =>
            -- the map is gone, so nobody waits
            obtain ⟨c, addr, -, -, hlookup⟩ := (hwaits w).resolve_left hw
            rw [h.dropped hforwarding hgone, Finmap.lookup_empty] at hlookup
            cases hlookup
      · obtain ⟨w, hw⟩ := not_forall.mp hwaits
        exact .inr (.inr ((goesOn_worker hgone hreq w).resolve_right hw))
    · obtain ⟨c, memReq, hc⟩ := List.exists_cons_of_ne_nil hreq
      refine .inr (.inr (goesOn_conn .register rfl rfl ?_))
      simp [connMachine, Conn.register, hc, hforward]
  · obtain ⟨c, hc⟩ := Option.ne_none_iff_exists'.mp hforward
    refine .inr (.inr ⟨.sendFails, rfl, ?_⟩)
    simp [connLifeMachine, sendFails, hc]

/-- Where nothing is asked for any more and every worker waits or is over, no step can be taken. -/
theorem not_alone {s t : ConnLife n} (hforward : s.conn.forward = none)
    (hreq : s.conn.memReq = [])
    (hworkers : ∀ w, s.conn.workers w = .ended ∨
      ∃ c, s.conn.workers w = .waiting c ∧ s.conn.Stays c)
    (hleft : s.forwarding = true → ∃ w, s.conn.workers w ≠ .ended) : ¬ s.Alone t := by
  have hphase : ∀ {w p}, s.conn.workers w = p → p = .ended ∨ ∃ c, p = .waiting c ∧
      s.conn.Stays c := fun {w p} hw => hw ▸ hworkers w
  intro h
  cases h with
  | init w ctrl hw =>
    obtain h | ⟨c, h, -⟩ := hphase hw <;> cases h
  | proc w data ctrl hw =>
    obtain h | ⟨c, h, -⟩ := hphase hw <;> cases h
  | workerEnd w hw =>
    obtain h | ⟨c, h, -⟩ := hphase hw <;> cases h
  | request w addr len hforwarding hw =>
    obtain h | ⟨c, h, -⟩ := hphase hw <;> cases h
  | panic w hforwarding hw =>
    obtain h | ⟨c, h, -⟩ := hphase hw <;> cases h
  | recv w c r hw hstays =>
    obtain h | ⟨d, h, hd⟩ := hphase hw
    · cases h
    · obtain rfl := WorkerPhase.waiting.inj h
      exact hstays hd
  | ret w c r hw =>
    obtain h | ⟨d, h, -⟩ := hphase hw <;> cases h
  | answer w data hw =>
    obtain h | ⟨c, h, -⟩ := hphase hw <;> cases h
  | noAnswer w hw =>
    obtain h | ⟨c, h, -⟩ := hphase hw <;> cases h
  | register c memReq hc =>
    rw [hreq] at hc
    cases hc
  | failed c hc =>
    rw [hforward] at hc
    cases hc
  | forwardEnd hforwarding _ _ hended =>
    obtain ⟨w, hw⟩ := hleft hforwarding
    exact hw (hended w)

/-- INTERNAL: **the two ends are where no step can be taken.** -/
theorem Inv.not_goesOn {s : ConnLife n} (h : s.Inv) (hgone : s.conn.listening = false)
    (hend : s.AllOver ∨ s.Stuck) : ¬ s.GoesOn := by
  rintro ⟨op, halone, hstep⟩
  obtain ⟨t, ht⟩ := Option.isSome_iff_exists.mp hstep
  have hstep := alone_of_step hgone halone ht
  rcases hend with hover | hstuck
  · obtain ⟨hreq, hforward⟩ := h.forwarded hover.forwarding
    refine not_alone hforward hreq (fun w => .inl (hover.workers w)) (fun hforwarding => ?_) hstep
    rw [hover.forwarding] at hforwarding
    cases hforwarding
  · refine not_alone hstuck.forward hstuck.memReq (fun w => ?_) (fun _ => hstuck.left) hstep
    refine (hstuck.workers w).imp_right ?_
    rintro ⟨c, addr, hw, hslot, hlookup⟩
    exact ⟨c, hw, hslot, Conn.senderAlive_of_lookup hlookup⟩

/-- What the server may still do changes the wires only. -/
theorem wires_of_step {s t : ConnLife n} {op : ConnLifeOp n} (hgone : s.conn.listening = false)
    (hforward : s.conn.forward = none) (hop : op.alone = false)
    (ht : (connLifeMachine n).step s op = some t) : ∃ wireOut wireIn answered,
      t = { s with conn := { s.conn with wireOut, wireIn, answered } } := by
  cases op with
  | task op =>
    cases op with
    | sendMemReq =>
      obtain ⟨conn, hconn, rfl⟩ := Option.map_eq_some_iff.mp ht
      simp [connMachine, Conn.sendMemReq, hforward] at hconn
    | recvMsg =>
      obtain ⟨conn, hconn, rfl⟩ := Option.map_eq_some_iff.mp ht
      obtain ⟨-, -, -, hlistening, -⟩ := Conn.recvMsg_uncons hconn
      rw [hgone] at hlistening
      cases hlistening
    | serverReply data =>
      obtain ⟨conn, hconn, rfl⟩ := Option.map_eq_some_iff.mp ht
      obtain ⟨id, wireOut, -, rfl⟩ | ⟨msg, wireOut, -, rfl⟩ | ⟨c, wireOut, -, rfl⟩ :=
        Conn.serverReply_cases hconn
      · exact ⟨_, _, _, rfl⟩
      · exact ⟨_, _, _, rfl⟩
      · exact ⟨_, _, _, rfl⟩
    | serverSend ctrl =>
      obtain rfl := Option.some.inj ht
      cases ctrl with
      | init => exact ⟨_, _, _, rfl⟩
      | proc data => exact ⟨_, _, _, rfl⟩
    | _ => cases hop
  | _ => cases hop

/-- INTERNAL: **who is stuck stays so.** -/
theorem Inv.stuck_step {s t : ConnLife n} {op : ConnLifeOp n} (h : s.Inv)
    (hgone : s.conn.listening = false) (hstuck : s.Stuck)
    (ht : (connLifeMachine n).step s op = some t) :
    t.conn.listening = false ∧ t.Stuck ∧ t.conn.workers = s.conn.workers := by
  cases halone : op.alone with
  | true => exact absurd ⟨op, halone, ht ▸ rfl⟩ (h.not_goesOn hgone (.inr hstuck))
  | false =>
    obtain ⟨wireOut, wireIn, answered, rfl⟩ := wires_of_step hgone hstuck.forward halone ht
    exact ⟨hgone, ⟨hstuck.forwarding, hstuck.forward, hstuck.memReq, hstuck.workers,
      hstuck.left⟩, rfl⟩

/-- Where the workers wait for good they wait at the end of every run. -/
theorem Inv.stuck_exec {s t : ConnLife n} {ops : List (ConnLifeOp n)} (h : s.Inv)
    (hgone : s.conn.listening = false) (hstuck : s.Stuck)
    (ht : (connLifeMachine n).exec s ops = some t) :
    t.Stuck ∧ t.conn.workers = s.conn.workers := by
  have hrun := Machine.exec_induct _ (C := fun _ _ => True)
    (P := fun u => u.Inv ∧ u.conn.listening = false ∧ u.Stuck ∧ u.conn.workers = s.conn.workers)
    (fun u op v ⟨hinv, hgone, hstuck, hworkers⟩ _ hv => by
      obtain ⟨hgone', hstuck', hworkers'⟩ := hinv.stuck_step hgone hstuck hv
      exact ⟨hinv.step hv, hgone', hstuck', hworkers'.trans hworkers⟩)
    ⟨h, hgone, hstuck, rfl⟩ (Machine.meets_of_forall _ (fun _ _ => trivial) _ _) ht
  exact hrun.2.2

end ConnLife

/-- MAIN: **a client that has lost its server comes to one of two ends.**  Behind the end of the
receive loop, whatever the tasks did before, there are only so many steps that need no server, and
they can be taken until all tasks are over, or until the workers that are left all wait for the
reply to a request that was sent before.  In the second case the forwarding task waits for their
next request, and nothing that happens after ever wakes one of them.
SRC: client_proc.rs:31-175 -/
theorem conn_ends_without_server {s : ConnLife n} (hs : (connLifeMachine n).Reachable s)
    (hgone : s.conn.listening = false) :
    (∀ ops t, (∀ op ∈ ops, op.alone = true) → (connLifeMachine n).exec s ops = some t →
      t.conn.listening = false ∧ ops.length + t.aloneLeft ≤ s.aloneLeft) ∧
    (s.AllOver ∨ s.Stuck ↔ ¬ s.GoesOn) ∧
    (s.Stuck → ∀ ops t, (connLifeMachine n).exec s ops = some t →
      t.Stuck ∧ t.conn.workers = s.conn.workers) := by
  have hinv := ConnLife.inv_of_reachable hs
  have hstep : ∀ u op v, (u.Inv ∧ u.conn.listening = false) → ConnLifeOp.alone op = true →
      (connLifeMachine n).step u op = some v →
      (v.Inv ∧ v.conn.listening = false) ∧ v.aloneLeft < u.aloneLeft := by
    rintro u op v ⟨hu, hgone⟩ halone hv
    have h := ConnLife.alone_of_step hgone halone hv
    exact ⟨⟨hu.step hv, h.listening.trans hgone⟩, hu.aloneLeft_lt h⟩
  refine ⟨fun ops t halone ht => ⟨?_, ?_⟩, ⟨hinv.not_goesOn hgone, fun hnot => ?_⟩, fun hstuck =>
    fun ops t ht => hinv.stuck_exec hgone hstuck ht⟩
  · exact (Machine.exec_induct _ (C := fun _ op => op.alone = true)
      (P := fun u => u.Inv ∧ u.conn.listening = false)
      (fun u op v hu halone hv => (hstep u op v hu halone hv).1) ⟨hinv, hgone⟩
      (Machine.meets_of_forall_mem _ (fun _ => halone) _) ht).2
  · exact Machine.length_add_le_of_inv _ hstep ⟨hinv, hgone⟩ halone ht
  · obtain hover | hstuck | hgoes := hinv.ends_or_goesOn hgone
    · exact .inl hover
    · exact .inr hstuck
    · exact absurd hgoes hnot

/-- The first worker has sent a request when the connection is lost, and the second one has nothing
to do. -/
def lostServerRun : List (ConnLifeOp 2) :=
  [.task (.serverSend (.proc psbPlus)), .task .recvMsg, .task (.takeCtrl 0),
    .task (.readMem 0 0x1000 16), .task .register, .task .sendMemReq, .recvFails,
    .task (.takeCtrl 1)]

/-- A client loses its server while a call waits, and the worker waits in every state behind. -/
theorem conn_ends_without_server_stuck : ∃ s,
    (connLifeMachine 2).exec (connLifeMachine 2).init lostServerRun = some s ∧
      ∀ ops t, (connLifeMachine 2).exec s ops = some t →
        t.conn.workers 0 = .waiting ⟨0, 0x1000, 16⟩ := by
  have hrun : ∃ s, (connLifeMachine 2).exec (connLifeMachine 2).init lostServerRun = some s ∧
      s.conn.listening = false ∧ s.forwarding = true ∧ s.conn.forward = none ∧
      s.conn.memReq = [] ∧ s.conn.workers 0 = .waiting ⟨0, 0x1000, 16⟩ ∧
      s.conn.workers 1 = .ended ∧ s.conn.slots 0 = none ∧
      s.conn.memReqLst.lookup 0x1000 = some 0 :=
    ⟨_, rfl, rfl, rfl, rfl, rfl, rfl, rfl, rfl, rfl⟩
  obtain ⟨s, hs, hgone, hforwarding, hforward, hreq, hw₀, hw₁, hslot, hlookup⟩ := hrun
  have hstuck : s.Stuck := by
    refine ⟨hforwarding, hforward, hreq, ?_, 0, by rw [hw₀]; exact nofun⟩
    rw [Fin.forall_fin_two]
    exact ⟨.inr ⟨_, 0x1000, hw₀, hslot, hlookup⟩, .inl hw₁⟩
  refine ⟨s, hs, fun ops t ht => ?_⟩
  rw [((conn_ends_without_server ⟨_, hs⟩ hgone).2.2 hstuck ops t ht).2, hw₀]

end PtkGenerator

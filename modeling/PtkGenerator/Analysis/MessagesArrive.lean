import PtkGenerator.Analysis.HostileFrames
import PtkGenerator.Analysis.SenderFrames
import PtkGenerator.Analysis.WireFormat
import PtkGenerator.Model.MessageStream

/-!
# What is sent is what is processed

A frame that was written is the encoding of the message of one call, and of no other.  This holds in
every run, also in those in which an aborted call takes the task with it.  A receive loop can read
each of these frames, so it goes through the messages in the order in which they were written, until
its body or the connection ends it.
-/

set_option autoImplicit false

namespace PtkGenerator

variable {D : Type} {encode : D → Except Unit Bytes}

namespace CommunatorSender

/-- The messages of the frames that were written. -/
def messages (s : CommunatorSender D) : List D :=
  s.written.filterMap fun e => s.calls[e.2]?.map SendCall.data

/-- Which call each frame is of, and where it can be. -/
structure FrameInv (encode : D → Except Unit Bytes) (s : CommunatorSender D) : Prop where
  entries : ∀ e ∈ s.entered, ∃ c, s.calls[e.2]? = some c ∧ encode c.data = .ok e.1
  acquiring : ∀ (i : ℕ) (c : SendCall D) frame, s.calls[i]? = some c → c.phase = .acquiring frame →
    encode c.data = .ok frame ∧ ∀ e ∈ s.entered, e.2 ≠ i
  nodup : (s.entered.map Prod.snd).Nodup
  handed : s.handed <+: s.entered
  order : s.framer ≠ .panicked → s.entered = s.handed ++ s.queue
  written : (s.written ++ s.framer.current).Sublist s.handed
  acknowledged : ∀ (i : ℕ) (c : SendCall D), s.calls[i]? = some c →
    (c.reply = some (.ok ()) ∨ c.phase = .returned (.ok ())) → ∃ e ∈ s.written, e.2 = i

namespace FrameInv

variable {s t : CommunatorSender D}

/-- A new sender has no frame. -/
theorem new : FrameInv encode (CommunatorSender.new : CommunatorSender D) where
  entries := fun e he => by cases he
  acquiring := fun i c frame hi => by cases hi
  nodup := List.nodup_nil
  handed := List.nil_prefix
  order := fun _ => rfl
  written := List.Sublist.refl _
  acknowledged := fun i c hi => by cases hi

/-- A call changes, but not what it sends. -/
theorem setCall (h : FrameInv encode s) {i : ℕ} {c c' : SendCall D} (hi : s.calls[i]? = some c)
    (hdata : c'.data = c.data) (hphase : ∀ frame, c'.phase = .acquiring frame →
      c.phase = .acquiring frame)
    (hack : (c'.reply = some (.ok ()) ∨ c'.phase = .returned (.ok ())) →
      ∃ e ∈ s.written, e.2 = i) : FrameInv encode { s with calls := s.calls.set i c' } := by
  have hlt : i < s.calls.length := (List.getElem?_eq_some_iff.mp hi).1
  refine ⟨fun e he => ?_, fun j d frame hd hacq => ?_, h.nodup, h.handed, h.order, h.written,
    fun j d hd hd' => ?_⟩
  · obtain ⟨d, hd, hencode⟩ := h.entries e he
    by_cases hj : i = e.2
    · rw [← hj] at hd ⊢
      obtain rfl := Option.some.inj (hi.symm.trans hd)
      exact ⟨c', List.getElem?_set_self hlt, by rw [hdata]; exact hencode⟩
    · exact ⟨d, by rw [List.getElem?_set_ne hj]; exact hd, hencode⟩
  · by_cases hj : i = j
    · subst hj
      rw [List.getElem?_set_self hlt] at hd
      obtain rfl := Option.some.inj hd
      rw [hdata]
      exact h.acquiring i c frame hi (hphase frame hacq)
    · rw [List.getElem?_set_ne hj] at hd
      exact h.acquiring j d frame hd hacq
  · by_cases hj : i = j
    · subst hj
      rw [List.getElem?_set_self hlt] at hd
      obtain rfl := Option.some.inj hd
      exact hack hd'
    · rw [List.getElem?_set_ne hj] at hd
      exact h.acknowledged j d hd hd'

/-- A new call makes a frame of its message. -/
theorem call (h : FrameInv encode s) (data : D) : FrameInv encode (s.call encode data) := by
  have hpush : ∀ c : SendCall D, c.reply = none → (∀ frame, c.phase = .acquiring frame →
      encode c.data = .ok frame) → c.phase ≠ .returned (.ok ()) →
      FrameInv encode { s with calls := s.calls ++ [c] } := by
    intro c hreply hacq hreturned
    have hold : ∀ {j : ℕ} {d : SendCall D}, (s.calls ++ [c])[j]? = some d →
        s.calls[j]? = some d ∨ (j = s.calls.length ∧ d = c) := by
      intro j d hd
      by_cases hj : j < s.calls.length
      · rw [List.getElem?_append_left hj] at hd
        exact .inl hd
      · obtain ⟨hlt, hget⟩ := List.getElem?_eq_some_iff.mp hd
        rw [List.length_append, List.length_singleton] at hlt
        have hlast : j = s.calls.length := by omega
        subst hlast
        exact .inr ⟨rfl, by simpa using hget.symm⟩
    have hknown : ∀ e ∈ s.entered, e.2 < s.calls.length := by
      intro e he
      obtain ⟨d, hd, -⟩ := h.entries e he
      exact (List.getElem?_eq_some_iff.mp hd).1
    refine ⟨fun e he => ?_, fun j d frame hd hphase => ?_, h.nodup, h.handed, h.order, h.written,
      fun j d hd hack => ?_⟩
    · obtain ⟨d, hd, hencode⟩ := h.entries e he
      exact ⟨d, by rw [List.getElem?_append_left (hknown e he)]; exact hd, hencode⟩
    · rcases hold hd with hd | ⟨rfl, rfl⟩
      · exact h.acquiring j d frame hd hphase
      · exact ⟨hacq frame hphase, fun e he => (hknown e he).ne⟩
    · rcases hold hd with hd | ⟨rfl, rfl⟩
      · exact h.acknowledged j d hd hack
      · rcases hack with hr | hr
        · rw [hreply] at hr
          cases hr
        · exact absurd hr hreturned
  unfold CommunatorSender.call
  split
  · next frame hencode =>
    refine hpush _ rfl (fun frame' hphase => ?_) (by simp)
    obtain rfl := SendPhase.acquiring.inj hphase
    exact hencode
  · exact hpush _ rfl (fun frame' hphase => by cases hphase) (by simp)

/-- Putting a frame on the queue keeps the frames those of their calls. -/
theorem enqueue (h : FrameInv encode s) {i : ℕ} (ht : s.enqueue i = some t) :
    FrameInv encode t := by
  obtain ⟨c, frame, hi, hphase, ⟨-, rfl⟩ | ⟨hrunning, -, rfl⟩⟩ := enqueue_cases ht
  · refine h.setCall hi rfl (fun _ hp => by cases hp) (fun hack => ?_)
    rcases hack with hr | hr
    · exact h.acknowledged i c hi (.inl hr)
    · cases hr
  · -- the frame is the last one in the queue
    obtain ⟨hencode, hnew⟩ := h.acquiring i c frame hi hphase
    have hset : FrameInv encode (s.setPhase i c (.waiting frame)) := by
      refine h.setCall hi rfl (fun _ hp => by cases hp) (fun hack => ?_)
      rcases hack with hr | hr
      · exact h.acknowledged i c hi (.inl hr)
      · cases hr
    have hself : (s.setPhase i c (.waiting frame)).calls[i]? =
        some { c with phase := .waiting frame } :=
      List.getElem?_set_self (List.getElem?_eq_some_iff.mp hi).1
    refine ⟨fun e he => ?_, fun j d f hd hacq => ?_, ?_, ?_, fun hne => ?_, hset.written,
      hset.acknowledged⟩
    · rcases List.mem_append.mp he with hold | hlast
      · exact hset.entries e hold
      · rw [List.mem_singleton.mp hlast]
        exact ⟨_, hself, hencode⟩
    · obtain ⟨hf, hfresh⟩ := hset.acquiring j d f hd hacq
      refine ⟨hf, fun e he => ?_⟩
      rcases List.mem_append.mp he with hold | hlast
      · exact hfresh e hold
      · rw [List.mem_singleton.mp hlast]
        rintro rfl
        obtain rfl := Option.some.inj (hself.symm.trans hd)
        cases hacq
    · rw [List.map_append, List.nodup_append]
      refine ⟨h.nodup, List.nodup_singleton _, ?_⟩
      intro j hj j' hj'
      obtain ⟨e, he, rfl⟩ := List.mem_map.mp hj
      rw [List.mem_singleton.mp hj']
      exact hnew e he
    · exact h.handed.trans (List.prefix_append _ _)
    · change s.entered ++ _ = s.handed ++ (s.queue ++ _)
      rw [h.order hrunning, List.append_assoc]

/-- The return of a call keeps the frames. -/
theorem await (h : FrameInv encode s) {i : ℕ} (ht : s.await i = some t) : FrameInv encode t := by
  obtain ⟨c, frame, r, hi, hphase, rfl, hr⟩ := await_cases ht
  refine h.setCall hi rfl (fun _ hp => by cases hp) (fun hack => ?_)
  rcases hack with hreply | hreturned
  · exact h.acknowledged i c hi (.inl hreply)
  · obtain rfl := SendPhase.returned.inj hreturned
    rcases hr with ⟨hreply, -⟩ | ⟨e, -, he⟩ | ⟨-, -, he⟩
    · exact h.acknowledged i c hi (.inl hreply)
    · cases he
    · cases he

/-- An abort keeps the frames. -/
theorem abort (h : FrameInv encode s) {i : ℕ} (ht : s.abort i = some t) : FrameInv encode t := by
  obtain ⟨c, frame, hi, -, rfl⟩ := abort_cases ht
  refine h.setCall hi rfl (fun _ hp => by cases hp) (fun hack => ?_)
  rcases hack with hreply | hreturned
  · exact h.acknowledged i c hi (.inl hreply)
  · cases hreturned

/-- The frame that the framer takes is that of its call. -/
theorem take (h : FrameInv encode s) (ht : s.take = some t) : FrameInv encode t := by
  obtain ⟨data, j, queue, hidle, hqueue, rfl⟩ := take_cases ht
  have horder := h.order (by rw [hidle]; simp)
  rw [hqueue, ← List.singleton_append, ← List.append_assoc] at horder
  have hwritten : s.written.Sublist s.handed := by
    have hcurrent := h.written
    rw [hidle] at hcurrent
    simpa [FramerPhase.current] using hcurrent
  refine ⟨h.entries, h.acquiring, h.nodup, ?_, fun _ => horder, ?_, h.acknowledged⟩
  · rw [horder]
    exact List.prefix_append _ _
  · exact hwritten.append (List.Sublist.refl _)

/-- The task is done with a frame, whether it goes on or is gone. -/
theorem reply (h : FrameInv encode s) (hrunning : s.framer ≠ .panicked) {written : List (Bytes × ℕ)}
    {j : ℕ} {r : Except IoError Unit} (hwritten : written.Sublist s.handed)
    (hkept : ∀ e ∈ s.written, e ∈ written) (hr : r = .ok () → ∃ e ∈ written, e.2 = j) :
    FrameInv encode (CommunatorSender.reply { s with written } j r) := by
  have hbase : ∀ framer queue, framer.current = [] → (framer ≠ .panicked → queue = s.queue) →
      FrameInv encode { s with written, framer, queue } := by
    intro framer queue hnone hqueue
    refine ⟨h.entries, h.acquiring, h.nodup, h.handed, fun hne => ?_, ?_, fun i c hi hack => ?_⟩
    · rw [hqueue hne]
      exact h.order hrunning
    · rw [hnone, List.append_nil]
      exact hwritten
    · obtain ⟨e, he, hei⟩ := h.acknowledged i c hi hack
      exact ⟨e, hkept e he, hei⟩
  have hgone := hbase .panicked [] rfl fun hne => absurd rfl hne
  unfold CommunatorSender.reply
  cases hj : s.calls[j]? with
  | none => exact hgone
  | some c =>
    dsimp only
    cases hphase : c.phase with
    | waiting frame =>
      refine (hbase .idle s.queue rfl fun _ => rfl).setCall (i := j) (c := c) hj rfl
        (fun _ hp => by cases hp) (fun hack => ?_)
      rcases hack with hreply | hreturned
      · exact hr (Option.some.inj hreply)
      · cases hreturned
    | _ => exact hgone

/-- A frame that is written is that of its call. -/
theorem send (h : FrameInv encode s) {ok : Bool} (ht : s.send ok = some t) : FrameInv encode t := by
  obtain ⟨data, j, hsending, rfl⟩ := send_cases ht
  have hrunning : s.framer ≠ .panicked := by
    rw [hsending]
    simp
  have hcurrent := h.written
  rw [hsending] at hcurrent
  refine h.reply hrunning ?_ (fun e he => List.mem_append_left _ he) ?_
  · cases ok with
    | true => exact hcurrent
    | false =>
      rw [if_neg Bool.false_ne_true, List.append_nil]
      exact (List.sublist_append_left _ _).trans hcurrent
  · cases ok with
    | true =>
      exact fun _ => ⟨(data, j), List.mem_append_right _ (List.mem_singleton_self _), rfl⟩
    | false => exact fun hok => by cases hok

/-- INTERNAL: **every run keeps the frames in order.**
SRC: communator.rs:28-71 -/
theorem step (h : FrameInv encode s) {op : SenderOp D}
    (ht : (senderMachine encode).step s op = some t) : FrameInv encode t := by
  cases op with
  | call data =>
    obtain rfl := Option.some.inj ht
    exact h.call data
  | enqueue i => exact h.enqueue ht
  | await i => exact h.await ht
  | abort i => exact h.abort ht
  | take => exact h.take ht
  | send ok => exact h.send ht

end FrameInv

/-! ## The messages that were written -/

variable {s t : CommunatorSender D}

/-- A reply writes nothing. -/
theorem reply_written (s : CommunatorSender D) (j : ℕ) (r : Except IoError Unit) :
    (s.reply j r).written = s.written := by
  unfold reply
  cases s.calls[j]? with
  | none => rfl
  | some c =>
    dsimp only
    cases c.phase <;> rfl

/-- A frame is written behind those that were. -/
theorem step_written {op : SenderOp D} (ht : (senderMachine encode).step s op = some t) :
    ∃ frames, t.written = s.written ++ frames := by
  cases op with
  | call data =>
    obtain rfl := Option.some.inj ht
    unfold CommunatorSender.call
    split <;> exact ⟨[], (List.append_nil _).symm⟩
  | enqueue i =>
    obtain ⟨c, frame, hi, hphase, ⟨-, rfl⟩ | ⟨-, -, rfl⟩⟩ := enqueue_cases ht
    · exact ⟨[], (List.append_nil _).symm⟩
    · exact ⟨[], (List.append_nil _).symm⟩
  | await i =>
    obtain ⟨c, frame, r, hi, hphase, rfl, -⟩ := await_cases ht
    exact ⟨[], (List.append_nil _).symm⟩
  | abort i =>
    obtain ⟨c, frame, hi, -, rfl⟩ := abort_cases ht
    exact ⟨[], (List.append_nil _).symm⟩
  | take =>
    obtain ⟨data, j, queue, -, -, rfl⟩ := take_cases ht
    exact ⟨[], (List.append_nil _).symm⟩
  | send ok =>
    obtain ⟨data, j, -, rfl⟩ := send_cases ht
    exact ⟨_, reply_written _ _ _⟩

end CommunatorSender

open CommunatorSender

/-- Every message can be visited in the order of its map. -/
theorem PtProcMsg.visited (order : VisitOrder) (msg : PtProcMsg) :
    msg.Visited (msg.visit order) := by
  cases msg with
  | dataRsp data => exact order.property data
  | _ => rfl

/-- The bytes of a message are read as this message. -/
theorem readEncoded_of_encode {order : VisitOrder} {msg : PtProcMsg} {frame : Bytes}
    (h : encodeVisited order msg = .ok frame) : Postcard.readEncoded frame = some msg := by
  obtain rfl : Postcard.toStdvec msg (msg.visit order) = frame := Except.ok.inj h
  exact Postcard.readEncoded_toStdvec (msg.visited order)

namespace CommunatorSender.FrameInv

variable {order : VisitOrder} {s : CommunatorSender PtProcMsg}

/-- A frame that was written is read as what its call sends. -/
theorem readEncoded_of_written (h : FrameInv (encodeVisited order) s) {e : Bytes × ℕ}
    (he : e ∈ s.written) :
    ∃ msg, Postcard.readEncoded e.1 = some msg ∧ s.calls[e.2]?.map SendCall.data = some msg := by
  have hentered : e ∈ s.entered :=
    h.handed.subset (h.written.subset (List.mem_append_left _ he))
  obtain ⟨c, hc, hencode⟩ := h.entries e hentered
  exact ⟨c.data, readEncoded_of_encode hencode, by rw [hc]; rfl⟩

/-- The messages of the sender are those of the frames on the wire. -/
theorem messages_eq (h : FrameInv (encodeVisited order) s) :
    s.messages = (s.written.map Prod.fst).filterMap Postcard.readEncoded := by
  rw [List.filterMap_map, CommunatorSender.messages]
  refine List.filterMap_congr fun e he => ?_
  obtain ⟨msg, hread, hcall⟩ := h.readEncoded_of_written he
  rw [hcall, Function.comp_apply, hread]

end CommunatorSender.FrameInv

/-! ## The stream -/

namespace MessageStream

variable {σ ε : Type} {order : VisitOrder} {body : ε → σ → PtProcMsg → Round σ} {vars : σ}

/-- What the loop was given, with what is on the wire, is what was written. -/
structure Inv (order : VisitOrder) (s : MessageStream σ) : Prop where
  framed : s.sender.FrameInv (encodeVisited order)
  taken : ∃ taken, s.sender.written.map Prod.fst = taken ++ s.wire ∧
    s.receiver.processed = taken.filterMap Postcard.readEncoded

/-- A step of the sender keeps what has arrived. -/
theorem Inv.send {s t : MessageStream σ} (h : s.Inv order) {op : SenderOp PtProcMsg}
    (ht : s.send order op = some t) : t.Inv order := by
  obtain ⟨sender, hsender, rfl⟩ := Option.map_eq_some_iff.mp ht
  obtain ⟨frames, hframes⟩ := step_written hsender
  obtain ⟨taken, hwritten, hprocessed⟩ := h.taken
  refine ⟨h.framed.step hsender, taken, ?_, hprocessed⟩
  dsimp only
  rw [hframes, List.drop_left, List.map_append, hwritten, List.append_assoc]

/-- The frame that the loop takes has a message, which is processed. -/
theorem Inv.recv {s t : MessageStream σ} (h : s.Inv order) {e : ε}
    (ht : s.recv body e = some t) :
    t.Inv order ∧ ∃ msg, t.receiver.processed = s.receiver.processed ++ [msg] := by
  unfold MessageStream.recv at ht
  split at ht
  · next frame wire hstatus hwire =>
    obtain rfl := Option.some.inj ht
    obtain ⟨taken, hwritten, hprocessed⟩ := h.taken
    obtain ⟨e', he', rfl⟩ : ∃ e' ∈ s.sender.written, e'.1 = frame := by
      refine List.mem_map.mp ?_
      rw [hwritten, hwire]
      exact List.mem_append_right _ List.mem_cons_self
    obtain ⟨msg, hread, -⟩ := h.framed.readEncoded_of_written he'
    have hround : (s.receiver.round Postcard.readEncoded body (.payload e'.1, e)).processed =
        s.receiver.processed ++ [msg] := by
      unfold RecvLoop.round
      rw [hstatus]
      dsimp only
      rw [recvData_of_decodable hread]
      dsimp only
      cases body e s.receiver.vars msg <;> rfl
    refine ⟨⟨h.framed, taken ++ [e'.1], ?_, ?_⟩, msg, hround⟩
    · rw [hwritten, hwire, List.append_assoc, List.singleton_append]
    · rw [hround, hprocessed, List.filterMap_append]
      simp [hread]
  · cases ht

/-- A connection that breaks keeps what has arrived. -/
theorem Inv.broken {s t : MessageStream σ} (h : s.Inv order) {e : ε} {error : Option IoError}
    (ht : s.broken body e error = some t) : t.Inv order := by
  unfold MessageStream.broken at ht
  split at ht
  · next hstatus =>
    obtain rfl := Option.some.inj ht
    obtain ⟨taken, hwritten, hprocessed⟩ := h.taken
    refine ⟨h.framed, taken, hwritten, ?_⟩
    rw [← hprocessed]
    dsimp only
    unfold RecvLoop.round
    rw [hstatus]
    cases error <;> rfl
  · cases ht

/-- INTERNAL: **every run keeps the messages in order.**
SRC: communator.rs:28-111 -/
theorem streamMachine_inv {s : MessageStream σ}
    (hs : (streamMachine order body vars).Reachable s) : s.Inv order := by
  refine Machine.invariant _ (P := fun s : MessageStream σ => s.Inv order)
    ⟨FrameInv.new, [], rfl, rfl⟩ (fun s op t h ht => ?_) hs
  cases op with
  | sender op => exact h.send ht
  | recv e => exact (h.recv ht).1
  | broken e error => exact h.broken ht

end MessageStream

/-- MAIN: **a receive loop processes what was sent, in its order.**  Over every interleaving of the
calls of `send_data`, their aborts, writes that fail, and a loop with any body: what the loop was
given, and behind it what is on the wire, are the messages of the calls whose frames were written,
in the order of the queue; each call has at most one of them, and one that returned `Ok` has one;
and each frame that the loop takes is processed as a message.
SRC: communator.rs:28-111, msg_adapter.rs:12-22, client_agent.rs:114-161, client_proc.rs:143-171 -/
theorem messages_arrive {σ ε : Type} {order : VisitOrder} {body : ε → σ → PtProcMsg → Round σ}
    {vars : σ} {s : MessageStream σ} (hs : (streamMachine order body vars).Reachable s) :
    s.sender.messages = s.receiver.processed ++ s.wire.filterMap Postcard.readEncoded ∧
    (s.sender.written.Sublist s.sender.entered ∧ (s.sender.written.map Prod.snd).Nodup) ∧
    (∀ (i : ℕ) (c : SendCall PtProcMsg), s.sender.calls[i]? = some c →
      c.phase = .returned (.ok ()) → ∃ e ∈ s.sender.written, e.2 = i) ∧
    ∀ e t, s.recv body e = some t →
      ∃ msg, t.receiver.processed = s.receiver.processed ++ [msg] := by
  have h := MessageStream.streamMachine_inv hs
  have hwritten : s.sender.written.Sublist s.sender.entered :=
    ((List.sublist_append_left _ _).trans h.framed.written).trans h.framed.handed.sublist
  refine ⟨?_, ⟨hwritten, (hwritten.map Prod.snd).nodup h.framed.nodup⟩, ?_, ?_⟩
  · obtain ⟨taken, htaken, hprocessed⟩ := h.taken
    rw [h.framed.messages_eq, htaken, List.filterMap_append, hprocessed]
  · exact fun i c hc hr => h.framed.acknowledged i c hc (.inr hr)
  · exact fun e t ht => (h.recv ht).2

/-- The body of a loop that only reads. -/
def readOnly (_ : Unit) (_ : Unit) (_ : PtProcMsg) : Round Unit := .next ()

/-- Two tasks send; the second one is first at the queue, and its message is processed. -/
def twoSendersRun : List (StreamOp Unit) :=
  [.sender (.call (.dataReq [7])), .sender (.call .init), .sender (.enqueue 1),
    .sender (.enqueue 0), .sender .take, .sender (.send true), .recv (), .sender .take,
    .sender (.send true), .sender (.await 1)]

/-- Two senders, one frame written by an aborted call; the receiver has got the first message. -/
theorem messages_arrive_twoSenders : ∃ (order : VisitOrder) (s : MessageStream Unit),
    (streamMachine order readOnly ()).exec (streamMachine order readOnly ()).init twoSendersRun =
      some s ∧
    s.receiver.processed = [.init] ∧ s.sender.messages = [.init, .dataReq [7]] ∧
    ∃ e ∈ s.sender.written, e.2 = 1 := by
  choose visit hvisit using exists_visits
  let order : VisitOrder := ⟨visit, hvisit⟩
  have hrun : ∃ s : MessageStream Unit, (streamMachine order readOnly ()).exec
      (streamMachine order readOnly ()).init twoSendersRun = some s ∧
      s.receiver.processed = [.init] ∧
      s.wire.filterMap Postcard.readEncoded = [.dataReq [7]] ∧
      s.sender.calls[1]? = some ⟨.init, .returned (.ok ()), some (.ok ())⟩ :=
    ⟨_, rfl, rfl, rfl, rfl⟩
  obtain ⟨s, hs, hprocessed, hwire, hcall⟩ := hrun
  obtain ⟨hmessages, -, hacknowledged, -⟩ := messages_arrive ⟨twoSendersRun, hs⟩
  refine ⟨order, s, hs, hprocessed, ?_, hacknowledged 1 _ hcall rfl⟩
  rw [hmessages, hprocessed, hwire]
  rfl

end PtkGenerator

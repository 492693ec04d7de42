import PtkGenerator.Analysis.SenderFrames
import PtkGenerator.Analysis.WireFormat
import PtkGenerator.Model.SendTask

/-!
# The chunks that an agent delivers

The send task of an agent sends its chunks one after the other and ends at the first one that is
longer than the limit of the framer.  What is on the wire is therefore the part of the published
chunks in front of the first such chunk (`DeliveryInv`), and the chunks that fit behind it are
stranded, whatever the receive task sends in between.
-/

set_option autoImplicit false

namespace PtkGenerator

/-! ## The chunks on the wire -/

/-- The chunk in a frame that is a `DataReq`. -/
def readChunk (data : Bytes) : Option Bytes :=
  match Postcard.readEncoded data with
  | some (.dataReq chunk) => some chunk
  | _ => none

/-- The payload of the `DataReq` of a chunk. -/
def chunkFrame (chunk : Bytes) : Bytes := Postcard.toStdvec (.dataReq chunk) []

/-- The `DataReq` of the chunk fits the framing limit. -/
def Fits (chunk : Bytes) : Prop := framerOk (chunkFrame chunk) = true

/-- Whether the framer sends a chunk is decided by the length of its frame. -/
instance (chunk : Bytes) : Decidable (Fits chunk) :=
  inferInstanceAs (Decidable (framerOk (chunkFrame chunk) = true))

/-- A chunk is always encoded. -/
theorem encodeMsg_dataReq (chunk : Bytes) : encodeMsg (.dataReq chunk) = .ok (chunkFrame chunk) :=
  rfl

/-- The frame of a chunk is read back as the chunk. -/
theorem readChunk_chunkFrame (chunk : Bytes) : readChunk (chunkFrame chunk) = some chunk := by
  have hvisited : (PtProcMsg.dataReq chunk).Visited [] := rfl
  rw [readChunk, chunkFrame, Postcard.readEncoded_toStdvec hvisited]

/-- A registration reply is no chunk. -/
theorem readChunk_regRsp (id : UInt32) :
    readChunk (Postcard.toStdvec (.regRsp id) []) = none := by
  have hvisited : (PtProcMsg.regRsp id).Visited [] := rfl
  rw [readChunk, Postcard.readEncoded_toStdvec hvisited]

/-- A memory reply is no chunk. -/
theorem readChunk_memRsp (addr : Usize) (data : Bytes) :
    readChunk (Postcard.toStdvec (.memRsp addr data) []) = none := by
  have hvisited : (PtProcMsg.memRsp addr data).Visited [] := rfl
  rw [readChunk, Postcard.readEncoded_toStdvec hvisited]

/-- The message is an answer: its frame holds no chunk. -/
def IsAnswer (msg : PtProcMsg) : Prop :=
  ∀ frame, encodeMsg msg = .ok frame → readChunk frame = none

/-- What the receive task gives to `send_data` is an answer. -/
theorem isAnswer_of_agentBody {T : Target} {order : VisitOrder} {vars vars' : AgentLoop}
    {msg answer : PtProcMsg} {rest : List PtProcMsg}
    (h : agentBody T order vars msg = .next vars')
    (hsent : vars'.sent.drop vars.sent.length = answer :: rest) : IsAnswer answer := by
  have hpushed : ∀ m, vars'.sent = vars.sent ++ [m] → m = answer := by
    intro m hm
    rw [hm, List.drop_left] at hsent
    exact (List.cons.inj hsent).1
  have hsame : vars'.sent ≠ vars.sent := by
    intro hm
    rw [hm, List.drop_length] at hsent
    cases hsent
  unfold agentBody at h
  cases msg with
  | regReq id =>
    obtain rfl := Round.next.inj h
    rw [← hpushed _ rfl]
    rintro frame ⟨⟩
    exact readChunk_regRsp id
  | memReq addr size =>
    simp only at h
    split at h
    · cases h
    · obtain rfl := Round.next.inj h
      rw [← hpushed _ rfl]
      rintro frame ⟨⟩
      exact readChunk_memRsp addr _
  | dataRsp data =>
    simp only at h
    split at h
    · obtain rfl := Round.next.inj h
      exact absurd rfl hsame
    · cases h
  | regRsp id => cases h
  | unReg id => cases h
  | init => cases h
  | dataReq data => cases h
  | memRsp addr data => cases h

/-! ## The sender of an agent -/

namespace CommunatorSender

variable {D : Type} {encode : D → Except Unit Bytes} {s s' : CommunatorSender D}

/-- The calls go on: each is the call it was, one that has returned stays so, and none is
aborted. -/
def Advances (s s' : CommunatorSender D) : Prop :=
  ∀ i : ℕ, match s.calls[i]?, s'.calls[i]? with
    | none, none => True
    | some c, some c' => c'.data = c.data ∧ (∀ r, c.phase = .returned r → c'.phase = .returned r) ∧
        (c'.phase = .aborted → c.phase = .aborted)
    | _, _ => False

/-- Where the calls are the same, no call goes back. -/
theorem Advances.of_calls_eq (h : s'.calls = s.calls) : s.Advances s' := by
  intro i
  rw [h]
  cases s.calls[i]? with
  | none => trivial
  | some c => exact ⟨rfl, fun _ => id, id⟩

/-- A change of one call that has not returned takes no call back. -/
theorem Advances.of_set {i : ℕ} {c : SendCall D} (hi : s.calls[i]? = some c)
    (hc : ∀ r, c.phase ≠ .returned r) (c' : SendCall D) (hdata : c'.data = c.data)
    (hc' : c'.phase = .aborted → c.phase = .aborted) (h : s'.calls = s.calls.set i c') :
    s.Advances s' := by
  intro j
  rw [h]
  by_cases hij : i = j
  · subst hij
    rw [List.getElem?_set_self (List.getElem?_eq_some_iff.mp hi).1, hi]
    exact ⟨hdata, fun r hr => absurd hr (hc r), hc'⟩
  · rw [List.getElem?_set_ne hij]
    cases s.calls[j]? with
    | none => trivial
    | some d => exact ⟨rfl, fun _ => id, id⟩

/-- A call keeps its data. -/
theorem Advances.forward (h : s.Advances s') {i : ℕ} {c : SendCall D} (hi : s.calls[i]? = some c) :
    ∃ c', s'.calls[i]? = some c' ∧ c'.data = c.data := by
  have hcall := h i
  rw [hi] at hcall
  cases hi' : s'.calls[i]? with
  | none =>
    rw [hi'] at hcall
    cases hcall
  | some c' =>
    rw [hi'] at hcall
    exact ⟨c', rfl, hcall.1⟩

/-- A call was there before, unless it is new. -/
theorem Advances.backward (h : s.Advances s') {i : ℕ} {c' : SendCall D}
    (hi : s'.calls[i]? = some c') : ∃ c, s.calls[i]? = some c ∧ c'.data = c.data ∧
      (∀ r, c.phase = .returned r → c'.phase = .returned r) ∧
        (c'.phase = .aborted → c.phase = .aborted) := by
  have hcall := h i
  rw [hi] at hcall
  cases hc : s.calls[i]? with
  | none =>
    rw [hc] at hcall
    cases hcall
  | some c =>
    rw [hc] at hcall
    exact ⟨c, rfl, hcall⟩

/-- The frames that were written are those that `ok` accepts of the frames that came back. -/
def Framed (ok : Bytes → Bool) (s : CommunatorSender D) : Prop :=
  ∀ e ∈ s.handed, e ∉ s.pending → (e ∈ s.written ↔ ok e.1 = true)

/-- Putting a frame on the queue writes nothing. -/
theorem advances_enqueue {i : ℕ} (hs : s.enqueue i = some s') :
    s.Advances s' ∧ s'.written = s.written := by
  obtain ⟨c, frame, hi, hphase, hcases⟩ := enqueue_cases hs
  have hc : ∀ r, c.phase ≠ .returned r := by
    intro r
    rw [hphase]
    exact fun h => nomatch h
  rcases hcases with ⟨-, rfl⟩ | ⟨-, -, rfl⟩
  · exact ⟨.of_set hi hc { c with phase := .returned _ } rfl (fun h => nomatch h) rfl, rfl⟩
  · exact ⟨.of_set hi hc { c with phase := .waiting frame } rfl (fun h => nomatch h) rfl, rfl⟩

/-- The return of a call writes nothing. -/
theorem advances_await {i : ℕ} (hs : s.await i = some s') :
    s.Advances s' ∧ s'.written = s.written := by
  obtain ⟨c, frame, r, hi, hphase, rfl, -⟩ := await_cases hs
  have hc : ∀ r, c.phase ≠ .returned r := by
    intro r
    rw [hphase]
    exact fun h => nomatch h
  exact ⟨.of_set hi hc { c with phase := .returned r } rfl (fun h => nomatch h) rfl, rfl⟩

/-- The framer writes nothing when it takes a frame. -/
theorem advances_take (hs : s.take = some s') : s.Advances s' ∧ s'.written = s.written := by
  obtain ⟨data, i, queue, -, -, rfl⟩ := take_cases hs
  exact ⟨.of_calls_eq rfl, rfl⟩

/-- A send writes its frame when it succeeds. -/
theorem advances_send (h : SenderInv encode s) {data : Bytes} {i : ℕ} {ok : Bool}
    (hsending : s.framer = .sending data i) (hs : s.send ok = some s') :
    s.Advances s' ∧ s'.written = s.written ++ if ok then [(data, i)] else [] := by
  obtain ⟨c, hi, hphase, -⟩ := h.sending hsending
  obtain rfl := send_waiting hs hsending hi hphase
  refine ⟨.of_set hi (fun r => ?_) { c with reply := some _ } rfl id rfl, rfl⟩
  rw [hphase]
  exact fun h => nomatch h

namespace Framed

variable {ok : Bytes → Bool}

/-- A new call has no frame yet. -/
theorem call (h : s.Framed ok) (data : D) : (s.call encode data).Framed ok := by
  unfold CommunatorSender.call
  split
  · exact h
  · exact h

/-- A frame on the queue is not written yet. -/
theorem enqueue (h : s.Framed ok) {i : ℕ} (hs : s.enqueue i = some s') : s'.Framed ok := by
  obtain ⟨c, frame, -, -, ⟨-, rfl⟩ | ⟨-, -, rfl⟩⟩ := enqueue_cases hs
  · exact h
  · intro e he hpend
    apply h e he
    intro hold
    apply hpend
    show e ∈ s.framer.current ++ (s.queue ++ [(frame, i)])
    rw [← List.append_assoc]
    exact List.mem_append_left _ hold

/-- A call that returns writes no frame. -/
theorem await (h : s.Framed ok) {i : ℕ} (hs : s.await i = some s') : s'.Framed ok := by
  obtain ⟨c, frame, r, -, -, rfl, -⟩ := await_cases hs
  exact h

/-- The frame that the framer takes is not written yet. -/
theorem take (h : s.Framed ok) (hs : s.take = some s') : s'.Framed ok := by
  obtain ⟨data, i, queue, hidle, hq, rfl⟩ := take_cases hs
  have hpending : s.pending = (data, i) :: queue := by
    rw [pending, hidle, hq]
    rfl
  intro e he hpend
  have hold : e ∉ s.pending := by
    rw [hpending]
    exact hpend
  rcases List.mem_append.mp he with hhanded | hlast
  · exact h e hhanded hold
  · rw [hpending, List.mem_singleton.mp hlast] at hold
    exact absurd List.mem_cons_self hold

/-- The framer accepts or refuses the frame it was given. -/
theorem send (h : s.Framed ok) (hinv : SenderInv encode s) {data : Bytes} {i : ℕ}
    (hsending : s.framer = .sending data i) (hs : s.send (ok data) = some s') : s'.Framed ok := by
  obtain ⟨c, hi, hphase, -, hnew⟩ := hinv.sending hsending
  obtain rfl := send_waiting hs hsending hi hphase
  have hpending : s.pending = (data, i) :: s.queue := by
    rw [pending, hsending]
    rfl
  intro e he hpend
  have hnow : e ∈ s.written ++ (if ok data = true then [(data, i)] else []) ↔
      e ∈ s.written ∨ (ok data = true ∧ e = (data, i)) := by
    cases ok data <;> simp
  refine hnow.trans ?_
  by_cases heq : e = (data, i)
  · subst heq
    exact ⟨fun hw => (hw.resolve_left hnew).1, fun hok => .inr ⟨hok, rfl⟩⟩
  · rw [← h e he]
    · exact or_iff_left fun hlast => heq hlast.2
    · rw [hpending]
      intro hmem
      rcases List.mem_cons.mp hmem with hcur | hq
      · exact heq hcur
      · exact hpend hq

end Framed

end CommunatorSender

/-! ## Where the published chunks are -/

/-- The chunk that `publish_task` is called with in the step. -/
def AgentOp.chunk : AgentOp → Option Bytes
  | .publish data => some data
  | _ => none

/-- The step goes on with what the agent has been given. -/
def AgentOp.isProgress : AgentOp → Bool
  | .publish _ | .recvMsg _ _ => false
  | _ => true

/-- What is left of the send that a task awaits. -/
def TaskAwait.remaining : TaskAwait → ℕ
  | .sending _ => 1
  | _ => 0

namespace AgentTasks

/-- The chunks on the wire, in the order in which their frames were written. -/
def chunkFrames (s : AgentTasks) : List Bytes := s.sender.written.filterMap fun e => readChunk e.1

/-- The steps that are left to the agent. -/
def remaining (s : AgentTasks) : ℕ :=
  s.sender.remaining + (6 * s.rxProcData.length + (s.sendTask.remaining + s.recvTask.remaining))

/-- Where the published chunks are, by the place of the send task: on the wire in front, all of
them ones that fit; in the queue behind; and between them the one it is sending, or the one that
it ended at. -/
def Placed (s : AgentTasks) : Prop :=
  match s.sendTask with
  | .recv => s.published = s.chunkFrames ++ s.rxProcData ∧ ∀ c ∈ s.chunkFrames, Fits c
  | .sending i => ∃ call chunk done, s.sender.calls[i]? = some call ∧ call.data = .dataReq chunk ∧
      s.published = done ++ chunk :: s.rxProcData ∧ (∀ c ∈ done, Fits c) ∧
      s.chunkFrames = done ++ if (chunkFrame chunk, i) ∈ s.sender.written then [chunk] else []
  | .ended => ∃ chunk rest, s.published = s.chunkFrames ++ chunk :: rest ∧ ¬ Fits chunk ∧
      ∀ c ∈ s.chunkFrames, Fits c

/-- The calls of the two tasks on the sender, and the published chunks. -/
structure DeliveryInv (s : AgentTasks) : Prop where
  sender : CommunatorSender.SenderInv encodeMsg s.sender
  framed : s.sender.Framed framerOk
  running : ∀ (i : ℕ) (c : SendCall PtProcMsg), s.sender.calls[i]? = some c → c.phase ≠ .aborted
  owned : ∀ (i : ℕ) (c : SendCall PtProcMsg), s.sender.calls[i]? = some c →
    (∃ r, c.phase = .returned r) ∨ s.sendTask = .sending i ∨ s.recvTask = .sending i
  answer : ∀ i, s.recvTask = .sending i → ∃ c, s.sender.calls[i]? = some c ∧ IsAnswer c.data
  placed : s.Placed

variable {fromBytes : FromBytes} {T : Target} {s s' : AgentTasks}

/-- The chunks stay where they are when none is written and the send task stays where it is. -/
theorem Placed.congr (h : s.Placed) (hcalls : ∀ (i : ℕ) (c : SendCall PtProcMsg),
      s.sender.calls[i]? = some c → ∃ c', s'.sender.calls[i]? = some c' ∧ c'.data = c.data)
    (hframes : s'.chunkFrames = s.chunkFrames)
    (hwritten : ∀ chunk i, (chunkFrame chunk, i) ∈ s'.sender.written ↔
      (chunkFrame chunk, i) ∈ s.sender.written)
    (hrx : s'.rxProcData = s.rxProcData) (htask : s'.sendTask = s.sendTask)
    (hpub : s'.published = s.published) : s'.Placed := by
  unfold Placed at h ⊢
  rw [htask, hpub, hrx, hframes]
  simp only [hwritten]
  cases htask' : s.sendTask with
  | recv => simpa only [htask'] using h
  | ended => simpa only [htask'] using h
  | sending i =>
    simp only [htask'] at h
    obtain ⟨call, chunk, done, hi, hdata, hrest⟩ := h
    obtain ⟨call', hi', hdata'⟩ := hcalls i call hi
    exact ⟨call', chunk, done, hi', hdata'.trans hdata, hrest⟩

/-- What is placed stays where it is when nothing is written, taken or published. -/
theorem Placed.of_written_eq (h : s.Placed) (hadv : s.sender.Advances s'.sender)
    (hwritten : s'.sender.written = s.sender.written) (hrx : s'.rxProcData = s.rxProcData)
    (htask : s'.sendTask = s.sendTask) (hpub : s'.published = s.published) : s'.Placed := by
  refine h.congr (fun i c hc => hadv.forward hc) ?_ (fun chunk i => ?_) hrx htask hpub
  · rw [chunkFrames, chunkFrames, hwritten]
  · rw [hwritten]

/-- The call that begins is the last one. -/
theorem call_last (s : CommunatorSender PtProcMsg) (msg : PtProcMsg) :
    ∃ c, (s.call encodeMsg msg).calls = s.calls ++ [c] ∧ c.data = msg ∧ c.phase ≠ .aborted ∧
      (s.call encodeMsg msg).written = s.written := by
  unfold CommunatorSender.call
  split
  · exact ⟨_, rfl, rfl, (fun h => nomatch h), rfl⟩
  · exact ⟨_, rfl, rfl, (fun h => nomatch h), rfl⟩

/-- A further call leaves the calls before it. -/
theorem getElem?_call {s : CommunatorSender PtProcMsg} {c : SendCall PtProcMsg} {i : ℕ}
    (hi : s.calls[i]? = some c) (msg : PtProcMsg) :
    (s.call encodeMsg msg).calls[i]? = some c := by
  obtain ⟨last, hcalls, -⟩ := call_last s msg
  rw [hcalls, List.getElem?_append_left (List.getElem?_eq_some_iff.mp hi).1]
  exact hi

/-- A call is one from before or the new one, which was not aborted. -/
theorem getElem?_call_cases {s : CommunatorSender PtProcMsg} {msg : PtProcMsg}
    {c : SendCall PtProcMsg} {i : ℕ} (hi : (s.call encodeMsg msg).calls[i]? = some c) :
    s.calls[i]? = some c ∨ (i = s.calls.length ∧ c.phase ≠ .aborted) := by
  obtain ⟨last, hcalls, -, hphase, -⟩ := call_last s msg
  rw [hcalls] at hi
  rcases Nat.lt_or_ge i s.calls.length with hlt | hge
  · rw [List.getElem?_append_left hlt] at hi
    exact .inl hi
  · have hlen := (List.getElem?_eq_some_iff.mp hi).1
    rw [List.length_append, List.length_singleton] at hlen
    obtain rfl : i = s.calls.length := by omega
    rw [List.getElem?_concat_length] at hi
    exact .inr ⟨rfl, Option.some.inj hi ▸ hphase⟩

namespace DeliveryInv

/-- A new agent has published and sent nothing. -/
theorem init (fromBytes : FromBytes) (T : Target) :
    (agentMachine fromBytes T).init.DeliveryInv where
  sender := .new
  framed _ he := absurd he List.not_mem_nil
  running _ _ hc := nomatch hc
  owned _ _ hc := nomatch hc
  answer _ hi := nomatch hi
  placed := ⟨rfl, fun _ hc => absurd hc List.not_mem_nil⟩

/-- The sender goes on with the calls that there are. -/
theorem setSender (h : s.DeliveryInv) {sender : CommunatorSender PtProcMsg}
    (hinv : CommunatorSender.SenderInv encodeMsg sender) (hframed : sender.Framed framerOk)
    (hadv : s.sender.Advances sender) (hplaced : { s with sender }.Placed) :
    { s with sender }.DeliveryInv where
  sender := hinv
  framed := hframed
  running i c' hc' := by
    obtain ⟨c, hc, -, -, haborted⟩ := hadv.backward hc'
    exact fun hphase => h.running i c hc (haborted hphase)
  owned i c' hc' := by
    obtain ⟨c, hc, -, hreturned, -⟩ := hadv.backward hc'
    exact (h.owned i c hc).imp_left fun ⟨r, hr⟩ => ⟨r, hreturned r hr⟩
  answer i hi := by
    obtain ⟨c, hc, hdata⟩ := h.answer i hi
    obtain ⟨c', hc', hdata'⟩ := hadv.forward hc
    refine ⟨c', hc', ?_⟩
    rw [hdata']
    exact hdata
  placed := hplaced

/-- A publication goes behind the chunks before it. -/
theorem publish (h : s.DeliveryInv) {data : Bytes} (hs : s.publish data = some s') :
    s'.DeliveryInv := by
  have hplaced := h.placed
  unfold Placed at hplaced
  rcases publish_cases hs with ⟨htask, rfl⟩ | ⟨htask, -, rfl⟩
  · refine ⟨h.sender, h.framed, h.running, h.owned, h.answer, ?_⟩
    simp only [Placed, htask] at hplaced ⊢
    obtain ⟨chunk, rest, hpub, hrest⟩ := hplaced
    refine ⟨chunk, rest ++ [data], ?_, hrest⟩
    rw [hpub, List.append_assoc]
    rfl
  · refine ⟨h.sender, h.framed, h.running, h.owned, h.answer, ?_⟩
    unfold Placed
    cases htask' : s.sendTask with
    | ended => exact absurd htask' htask
    | recv =>
      simp only [htask'] at hplaced ⊢
      refine ⟨?_, hplaced.2⟩
      rw [hplaced.1, List.append_assoc]
      rfl
    | sending i =>
      simp only [htask'] at hplaced ⊢
      obtain ⟨call, chunk, done, hi, hdata, hpub, hrest⟩ := hplaced
      refine ⟨call, chunk, done, hi, hdata, ?_, hrest⟩
      rw [hpub, List.append_assoc]
      rfl

/-- A taken chunk is on its way as the last call of the send task. -/
theorem takeChunk (h : s.DeliveryInv) (hs : s.takeChunk = some s') : s'.DeliveryInv := by
  obtain ⟨chunk, rxProcData, htask, hrx, rfl⟩ := takeChunk_cases hs
  have hplaced := h.placed
  simp only [Placed, htask] at hplaced
  refine ⟨h.sender.call _, h.framed.call _, fun i c hc => ?_, fun i c hc => ?_, fun i hi => ?_, ?_⟩
  · rcases getElem?_call_cases hc with hold | ⟨-, hphase⟩
    · exact h.running i c hold
    · exact hphase
  · rcases getElem?_call_cases hc with hold | ⟨rfl, -⟩
    · refine (h.owned i c hold).imp_right fun howned => ?_
      rw [htask] at howned
      exact howned.imp_left fun hnot => nomatch hnot
    · exact .inr (.inl rfl)
  · obtain ⟨c, hc, hanswer⟩ := h.answer i hi
    exact ⟨c, getElem?_call hc _, hanswer⟩
  · obtain ⟨last, hcalls, hdata, -, hwritten⟩ := call_last s.sender (.dataReq chunk)
    -- the frame of a call that has just begun is not on the wire
    have hnew : (chunkFrame chunk, s.sender.calls.length) ∉ s.sender.written := by
      intro hmem
      have hent : (chunkFrame chunk, s.sender.calls.length) ∈ s.sender.entered := by
        rw [h.sender.order]
        exact List.mem_append_left _ (h.sender.written _ hmem).1
      exact lt_irrefl _ (h.sender.known _ hent)
    refine ⟨last, chunk, s.chunkFrames, ?_, hdata, ?_, hplaced.2, ?_⟩
    · rw [hcalls]
      exact List.getElem?_concat_length
    · rw [← hrx]
      exact hplaced.1
    · rw [hwritten, if_neg hnew, List.append_nil, chunkFrames, hwritten]
      rfl

/-- The return of a send keeps the chunks in place, and an error means that none follows. -/
theorem sendDone (h : s.DeliveryInv) (hs : s.sendDone = some s') : s'.DeliveryInv := by
  obtain ⟨i, c, r, htask, hc, hphase, hcases⟩ := sendDone_cases hs
  have hplaced := h.placed
  simp only [Placed, htask] at hplaced
  obtain ⟨call, chunk, done, hi, hdata, hpub, hdone, hframes⟩ := hplaced
  obtain rfl := Option.some.inj (hc.symm.trans hi)
  -- the frame came back from the framer, with the result of the call
  have hcall := h.sender.calls i c hc
  simp only [CommunatorSender.CallOk, hphase, hdata, encodeMsg_dataReq] at hcall
  rcases hcall with ⟨e, herr, -⟩ | ⟨frame, hframe, hent, hpend, hr⟩
  · cases herr
  obtain rfl := Except.ok.inj hframe
  have hhanded : (chunkFrame chunk, i) ∈ s.sender.handed := by
    rw [h.sender.order] at hent
    rcases List.mem_append.mp hent with hmem | hq
    · exact hmem
    · exact absurd (List.mem_append_right _ hq) hpend
  have hfits : (chunkFrame chunk, i) ∈ s.sender.written ↔ Fits chunk :=
    h.framed _ hhanded hpend
  have howned : ∀ j d, s.sender.calls[j]? = some d →
      (∃ r, d.phase = .returned r) ∨ s.recvTask = .sending j := by
    intro j d hd
    rcases h.owned j d hd with hreturned | hsend | hrecv
    · exact .inl hreturned
    · obtain rfl := TaskAwait.sending.inj (htask.symm.trans hsend)
      obtain rfl := Option.some.inj (hc.symm.trans hd)
      exact .inl ⟨r, hphase⟩
    · exact .inr hrecv
  have howned' : ∀ j d, s.sender.calls[j]? = some d → ∀ task : TaskAwait,
      (∃ r, d.phase = .returned r) ∨ task = .sending j ∨ s.recvTask = .sending j :=
    fun j d hd _ => (howned j d hd).imp_right .inr
  rcases hcases with ⟨hok, rfl⟩ | ⟨herr, rfl⟩
  · refine ⟨h.sender, h.framed, h.running, fun j d hd => howned' j d hd _, h.answer, ?_⟩
    rw [if_pos (hr.mp hok)] at hframes
    show s.published = s.chunkFrames ++ s.rxProcData ∧ ∀ c ∈ s.chunkFrames, Fits c
    rw [hframes, hpub, List.append_assoc]
    refine ⟨rfl, fun d hd => ?_⟩
    rcases List.mem_append.mp hd with hmem | hlast
    · exact hdone d hmem
    · rw [List.mem_singleton.mp hlast]
      exact hfits.mp (hr.mp hok)
  · refine ⟨h.sender, h.framed, h.running, fun j d hd => howned' j d hd _, h.answer, ?_⟩
    rw [if_neg fun hmem => herr (hr.mpr hmem), List.append_nil] at hframes
    refine ⟨chunk, s.rxProcData, ?_, fun hfit => herr (hr.mpr (hfits.mpr hfit)), ?_⟩
    · show s.published = s.chunkFrames ++ chunk :: s.rxProcData
      rw [hframes]
      exact hpub
    · show ∀ c ∈ s.chunkFrames, Fits c
      rw [hframes]
      exact hdone

/-- An answer of the receive task is no chunk, whatever message it is for. -/
theorem recvMsg (h : s.DeliveryInv) {frame : Frame} {order : VisitOrder}
    (hs : s.recvMsg fromBytes T frame order = some s') : s'.DeliveryInv := by
  obtain ⟨htask, ⟨msg, vars, -, hbody, rfl | ⟨answer, rest, hsent, rfl⟩⟩ | ⟨vars, rfl, -, -⟩⟩ :=
    recvMsg_cases hs
  · exact ⟨h.sender, h.framed, h.running, h.owned, h.answer, h.placed⟩
  · refine ⟨h.sender.call _, h.framed.call _, fun i c hc => ?_, fun i c hc => ?_, fun i hi => ?_,
      ?_⟩
    · rcases getElem?_call_cases hc with hold | ⟨-, hphase⟩
      · exact h.running i c hold
      · exact hphase
    · rcases getElem?_call_cases hc with hold | ⟨rfl, -⟩
      · have howned := h.owned i c hold
        rw [htask] at howned
        exact howned.imp_right fun h => h.imp_right fun hnot => nomatch hnot
      · exact .inr (.inr rfl)
    · obtain rfl := TaskAwait.sending.inj hi
      obtain ⟨last, hcalls, hdata, -⟩ := call_last s.sender answer
      refine ⟨last, ?_, ?_⟩
      · rw [hcalls]
        exact List.getElem?_concat_length
      · rw [hdata]
        exact isAnswer_of_agentBody hbody hsent
    · obtain ⟨-, -, -, -, hwritten⟩ := call_last s.sender answer
      refine h.placed.congr (fun i c hc => ⟨c, getElem?_call hc answer, rfl⟩) ?_ (fun chunk i => ?_)
        rfl rfl rfl
      · rw [chunkFrames, hwritten]
        rfl
      · rw [hwritten]
  · refine ⟨h.sender, h.framed, h.running, fun i c hc => ?_, (fun _ hi => nomatch hi), h.placed⟩
    have howned := h.owned i c hc
    rw [htask] at howned
    exact howned.imp_right fun h => h.imp_right fun hnot => nomatch hnot

/-- The return of an answer keeps the chunks in place. -/
theorem recvDone (h : s.DeliveryInv) (hs : s.recvDone = some s') : s'.DeliveryInv := by
  obtain ⟨i, c, r, htask, hc, hphase, rfl⟩ := recvDone_cases hs
  refine ⟨h.sender, h.framed, h.running, fun j d hd => ?_, (fun _ hi => nomatch hi), h.placed⟩
  rcases h.owned j d hd with hreturned | hsend | hrecv
  · exact .inl hreturned
  · exact .inr (.inl hsend)
  · obtain rfl := TaskAwait.sending.inj (htask.symm.trans hrecv)
    obtain rfl := Option.some.inj (hc.symm.trans hd)
    exact .inl ⟨r, hphase⟩

/-- The framer keeps the order of the chunks. -/
theorem sendFrame (h : s.DeliveryInv) (hs : s.sendFrame = some s') : s'.DeliveryInv := by
  obtain ⟨data, i, sender, hsending, hsend, rfl⟩ := sendFrame_cases hs
  obtain ⟨hadv, hwritten⟩ := CommunatorSender.advances_send h.sender hsending hsend
  refine h.setSender (h.sender.send hsend) (h.framed.send h.sender hsending hsend) hadv ?_
  cases hok : framerOk data with
  | false =>
    rw [hok, if_neg Bool.false_ne_true, List.append_nil] at hwritten
    exact h.placed.of_written_eq hadv hwritten rfl rfl rfl
  | true =>
    rw [hok, if_pos rfl] at hwritten
    obtain ⟨c, hc, hphase, hencode, hnew⟩ := h.sender.sending hsending
    have hframes : ({ s with sender } : AgentTasks).chunkFrames =
        s.chunkFrames ++ (readChunk data).toList := by
      rw [chunkFrames, hwritten, List.filterMap_append, ← chunkFrames]
      cases hchunk : readChunk data <;> simp [hchunk]
    rcases h.owned i c hc with ⟨r, hreturned⟩ | htask | htask
    · rw [hphase] at hreturned
      cases hreturned
    · -- the chunk that the send task is sending
      have hplaced := h.placed
      simp only [Placed, htask] at hplaced ⊢
      obtain ⟨call, chunk, done, hi, hdata, hpub, hdone, hold⟩ := hplaced
      obtain rfl := Option.some.inj (hc.symm.trans hi)
      rw [hdata, encodeMsg_dataReq] at hencode
      obtain rfl := Except.ok.inj hencode
      obtain ⟨c', hc', hdata'⟩ := hadv.forward hc
      refine ⟨c', chunk, done, hc', hdata'.trans hdata, hpub, hdone, hframes.trans ?_⟩
      rw [hold, if_neg hnew, List.append_nil, readChunk_chunkFrame, hwritten,
        if_pos (List.mem_append_right _ (List.mem_singleton_self _))]
      rfl
    · -- an answer
      obtain ⟨c', hc', hanswer⟩ := h.answer i htask
      obtain rfl := Option.some.inj (hc.symm.trans hc')
      have hnone := hanswer data hencode
      refine h.placed.congr (fun j d hd => hadv.forward hd) ?_ (fun chunk j => ?_) rfl rfl rfl
      · rw [hframes, hnone]
        exact List.append_nil _
      · rw [hwritten, List.mem_append, List.mem_singleton]
        refine or_iff_left fun heq => ?_
        rw [← (Prod.mk.inj heq).1, readChunk_chunkFrame] at hnone
        cases hnone

/-- INTERNAL: **one step** of the tasks of an agent, of its sender or of the pool keeps the chunks
in their places.
SRC: client_agent.rs:92-184; communator.rs:28-71 -/
theorem step (h : s.DeliveryInv) {op : AgentOp}
    (hs : (agentMachine fromBytes T).step s op = some s') : s'.DeliveryInv := by
  cases op with
  | publish data => exact h.publish hs
  | takeChunk => exact h.takeChunk hs
  | sendDone => exact h.sendDone hs
  | recvMsg frame order => exact h.recvMsg hs
  | recvDone => exact h.recvDone hs
  | enqueue i =>
    obtain ⟨sender, hsender, rfl⟩ := Option.map_eq_some_iff.mp hs
    obtain ⟨hadv, hwritten⟩ := CommunatorSender.advances_enqueue hsender
    exact h.setSender (h.sender.enqueue hsender) (h.framed.enqueue hsender) hadv
      (h.placed.of_written_eq hadv hwritten rfl rfl rfl)
  | await i =>
    obtain ⟨sender, hsender, rfl⟩ := Option.map_eq_some_iff.mp hs
    obtain ⟨hadv, hwritten⟩ := CommunatorSender.advances_await hsender
    exact h.setSender (h.sender.await hsender) (h.framed.await hsender) hadv
      (h.placed.of_written_eq hadv hwritten rfl rfl rfl)
  | takeFrame =>
    obtain ⟨sender, hsender, rfl⟩ := Option.map_eq_some_iff.mp hs
    obtain ⟨hadv, hwritten⟩ := CommunatorSender.advances_take hsender
    exact h.setSender (h.sender.take hsender) (h.framed.take hsender) hadv
      (h.placed.of_written_eq hadv hwritten rfl rfl rfl)
  | sendFrame => exact h.sendFrame hs

/-- A run keeps the chunks in place. -/
theorem exec (h : s.DeliveryInv) {ops : List AgentOp}
    (hs : (agentMachine fromBytes T).exec s ops = some s') : s'.DeliveryInv :=
  Machine.exec_induct _ (C := fun _ _ => True) (fun _ _ _ h _ hstep => DeliveryInv.step h hstep) h
    (Machine.meets_of_forall _ (fun _ _ => trivial) s ops) hs

/-- The chunks that were sent are the first of those that fit. -/
theorem chunkFrames_prefix (h : s.DeliveryInv) :
    s.chunkFrames <+: s.published.filter fun c => Fits c := by
  have hall : ∀ l : List Bytes, (∀ c ∈ l, Fits c) → l.filter (fun c => Fits c) = l := fun l hl =>
    List.filter_eq_self.mpr fun c hc => decide_eq_true (hl c hc)
  have hplaced := h.placed
  unfold Placed at hplaced
  split at hplaced
  · rw [hplaced.1, List.filter_append, hall _ hplaced.2]
    exact List.prefix_append _ _
  · next i htask =>
    obtain ⟨call, chunk, done, hi, hdata, hpub, hdone, hframes⟩ := hplaced
    rw [hpub, hframes, List.filter_append, hall _ hdone]
    refine (List.prefix_append_right_inj done).mpr ?_
    split
    · next hmem =>
      -- a frame on the wire fits
      have hfits : Fits chunk :=
        (h.framed _ (h.sender.written _ hmem).1 (h.sender.written _ hmem).2).mp hmem
      rw [List.filter_cons_of_pos (by simpa using hfits)]
      exact List.cons_prefix_cons.mpr ⟨rfl, List.nil_prefix⟩
    · exact List.nil_prefix
  · obtain ⟨chunk, rest, hpub, -, hdone⟩ := hplaced
    rw [hpub, List.filter_append, hall _ hdone]
    exact List.prefix_append _ _

end DeliveryInv

/-! ## The agent comes to its end -/

/-- A further call has at most four more steps to take. -/
theorem remaining_call_le (s : CommunatorSender PtProcMsg) (msg : PtProcMsg) :
    (s.call encodeMsg msg).remaining ≤ s.remaining + 4 := by
  have hcalls : ∀ phase, CommunatorSender.callsRemaining (s.calls ++ [⟨msg, phase, none⟩]) =
      CommunatorSender.callsRemaining s.calls + SendPhase.remaining phase := by
    intro phase
    rw [CommunatorSender.callsRemaining, List.map_append, List.sum_append, List.map_singleton,
      List.sum_singleton]
    rfl
  unfold CommunatorSender.call
  split
  · next frame _ =>
    have hnew := hcalls (.acquiring frame)
    have hfour : (SendPhase.acquiring frame).remaining = 4 := rfl
    simp only [CommunatorSender.remaining]
    omega
  · next e _ =>
    have hnew := hcalls (.returned (.error ⟨"encode error"⟩))
    have hzero : (SendPhase.returned (.error ⟨"encode error"⟩)).remaining = 0 := rfl
    simp only [CommunatorSender.remaining]
    omega

/-- INTERNAL: every step with which the agent goes on brings it nearer to its end. -/
theorem remaining_lt {op : AgentOp} (hop : op.isProgress = true)
    (hs : (agentMachine fromBytes T).step s op = some s') : s'.remaining < s.remaining := by
  have hsender : ∀ (op : SenderOp PtProcMsg) sender, op.isProgress = true →
      (senderMachine encodeMsg).step s.sender op = some sender →
      ({ s with sender } : AgentTasks).remaining < s.remaining := by
    intro op sender hop hstep
    exact Nat.add_lt_add_right (CommunatorSender.remaining_lt hop hstep) _
  cases op with
  | publish data => cases hop
  | recvMsg frame order => cases hop
  | takeChunk =>
    obtain ⟨chunk, rxProcData, htask, hrx, rfl⟩ := takeChunk_cases hs
    have hle := remaining_call_le s.sender (.dataReq chunk)
    show (s.sender.call encodeMsg (.dataReq chunk)).remaining +
      (6 * rxProcData.length + (1 + s.recvTask.remaining)) < s.remaining
    have hzero : TaskAwait.recv.remaining = 0 := rfl
    rw [remaining, hrx, htask, List.length_cons]
    omega
  | sendDone =>
    obtain ⟨i, c, r, htask, -, -, hcases⟩ := sendDone_cases hs
    have hone : (TaskAwait.sending i).remaining = 1 := rfl
    have hzero : ∀ task : TaskAwait, task.remaining = 0 →
        ({ s with sendTask := task } : AgentTasks).remaining < s.remaining := by
      intro task htask0
      simp only [remaining, htask]
      omega
    rcases hcases with ⟨-, rfl⟩ | ⟨-, rfl⟩
    · exact hzero .recv rfl
    · exact hzero .ended rfl
  | recvDone =>
    obtain ⟨i, c, r, htask, -, -, rfl⟩ := recvDone_cases hs
    have hone : (TaskAwait.sending i).remaining = 1 := rfl
    have hzero : TaskAwait.recv.remaining = 0 := rfl
    simp only [remaining, htask]
    omega
  | enqueue i =>
    obtain ⟨sender, hstep, rfl⟩ := Option.map_eq_some_iff.mp hs
    exact hsender (.enqueue i) sender rfl hstep
  | await i =>
    obtain ⟨sender, hstep, rfl⟩ := Option.map_eq_some_iff.mp hs
    exact hsender (.await i) sender rfl hstep
  | takeFrame =>
    obtain ⟨sender, hstep, rfl⟩ := Option.map_eq_some_iff.mp hs
    exact hsender .take sender rfl hstep
  | sendFrame =>
    obtain ⟨data, i, sender, -, hstep, rfl⟩ := sendFrame_cases hs
    exact hsender (.send (framerOk data)) sender rfl hstep

/-- Nothing goes on in the agent. -/
def Quiescent (fromBytes : FromBytes) (T : Target) (s : AgentTasks) : Prop :=
  (agentMachine fromBytes T).Quiescent (fun op => op.isProgress = true) s

/-- The send task is at its `recv` with the queue empty, or it has ended. -/
theorem DeliveryInv.task_of_quiescent (h : s.DeliveryInv) (hquiet : s.Quiescent fromBytes T) :
    (s.sendTask = .recv ∧ s.rxProcData = []) ∨ s.sendTask = .ended := by
  have hsender : s.sender.Quiescent encodeMsg := by
    intro op hop
    cases op with
    | call data => cases hop
    | abort i => cases hop
    | enqueue i => exact Option.map_eq_none_iff.mp (hquiet (.enqueue i) rfl)
    | await i => exact Option.map_eq_none_iff.mp (hquiet (.await i) rfl)
    | take => exact Option.map_eq_none_iff.mp (hquiet .takeFrame rfl)
    | send ok =>
      have hsend : s.sendFrame = none := hquiet .sendFrame rfl
      cases hframer : s.sender.framer with
      | idle => simp [senderMachine, CommunatorSender.send, hframer]
      | panicked => simp [senderMachine, CommunatorSender.send, hframer]
      | sending data i =>
        simp only [AgentTasks.sendFrame, hframer, CommunatorSender.send] at hsend
        split at hsend <;> cases hsend
  cases htask : s.sendTask with
  | ended => exact .inr rfl
  | recv =>
    refine .inl ⟨rfl, ?_⟩
    cases hrx : s.rxProcData with
    | nil => rfl
    | cons chunk rxProcData =>
      have htake : s.takeChunk = none := hquiet .takeChunk rfl
      simp [AgentTasks.takeChunk, htask, hrx] at htake
  | sending i =>
    have hplaced := h.placed
    simp only [Placed, htask] at hplaced
    obtain ⟨c, chunk, done, hi, -⟩ := hplaced
    rcases h.sender.done_of_quiescent hsender c (List.mem_of_getElem? hi) with
      ⟨r, hphase⟩ | haborted
    · have hdone : s.sendDone = none := hquiet .sendDone rfl
      have hresult : s.result i = some r := result_eq_some.mpr ⟨c, hi, hphase⟩
      simp only [AgentTasks.sendDone, htask, hresult] at hdone
      cases r <;> cases hdone
    · exact absurd haborted (h.running i c hi)

/-- INTERNAL: **what is on the wire at the end**: the chunks that fit, unless one of them was
published behind one that does not fit.
SRC: client_agent.rs:166-178 -/
theorem DeliveryInv.delivered_iff (h : s.DeliveryInv) (hquiet : s.Quiescent fromBytes T) :
    s.chunkFrames = s.published.filter (fun c => Fits c) ↔
      s.published.Pairwise fun c d => Fits d → Fits c := by
  have hall : ∀ l : List Bytes, (∀ c ∈ l, Fits c) → l.filter (fun c => Fits c) = l := fun l hl =>
    List.filter_eq_self.mpr fun c hc => decide_eq_true (hl c hc)
  have hpairs : ∀ l : List Bytes, (∀ c ∈ l, Fits c) → l.Pairwise fun c d => Fits d → Fits c :=
    fun l hl => List.pairwise_of_forall_mem_list fun c hc d _ _ => hl c hc
  have hplaced := h.placed
  unfold Placed at hplaced
  rcases h.task_of_quiescent hquiet with ⟨htask, hempty⟩ | htask
  · simp only [htask, hempty, List.append_nil] at hplaced
    rw [hplaced.1, hall _ hplaced.2]
    exact iff_of_true rfl (hpairs _ hplaced.2)
  · simp only [htask] at hplaced
    obtain ⟨chunk, rest, hpub, hlong, hdone⟩ := hplaced
    rw [hpub, List.filter_append, hall _ hdone, List.filter_cons_of_neg (by simpa using hlong)]
    have hstranded : s.chunkFrames = s.chunkFrames ++ rest.filter (fun c => Fits c) ↔
        ∀ d ∈ rest, ¬ Fits d := by
      rw [List.self_eq_append_right, List.filter_eq_nil_iff]
      simp only [decide_eq_true_eq]
    rw [hstranded]
    constructor
    · intro hrest
      refine List.pairwise_append.mpr ⟨hpairs _ hdone, List.pairwise_cons.mpr ⟨?_, ?_⟩, ?_⟩
      · exact fun d hd hfit => absurd hfit (hrest d hd)
      · exact List.pairwise_of_forall_mem_list fun c _ d hd hfit => absurd hfit (hrest d hd)
      · exact fun c hc _ _ _ => hdone c hc
    · intro hpair d hd hfit
      have hback := (List.pairwise_append.mp hpair).2.1
      exact hlong ((List.pairwise_cons.mp hback).1 d hd hfit)

/-- What the agent should do: only chunks that fit are on the wire, in the order of their
publication; the agent goes on for so many steps only, and then all of them are. -/
structure Delivers (fromBytes : FromBytes) (T : Target) (s : AgentTasks) : Prop where
  sofar : s.chunkFrames <+: s.published.filter fun c => Fits c
  complete : ∀ ops t, (∀ op ∈ ops, AgentOp.isProgress op = true) →
    (agentMachine fromBytes T).exec s ops = some t → ops.length ≤ s.remaining ∧
      (t.Quiescent fromBytes T → t.chunkFrames = s.published.filter fun c => Fits c)

/-- A step publishes what it is given. -/
theorem published_step {op : AgentOp} (hs : (agentMachine fromBytes T).step s op = some s') :
    s'.published = s.published ++ op.chunk.toList := by
  have hsame : ∀ sender : CommunatorSender PtProcMsg, ({ s with sender } : AgentTasks).published =
      s.published ++ [] := fun _ => (List.append_nil _).symm
  cases op with
  | publish data =>
    rcases publish_cases hs with ⟨-, rfl⟩ | ⟨-, -, rfl⟩
    · rfl
    · rfl
  | takeChunk =>
    obtain ⟨chunk, rxProcData, -, -, rfl⟩ := takeChunk_cases hs
    exact (List.append_nil _).symm
  | sendDone =>
    obtain ⟨i, c, r, -, -, -, ⟨-, rfl⟩ | ⟨-, rfl⟩⟩ := sendDone_cases hs
    · exact (List.append_nil _).symm
    · exact (List.append_nil _).symm
  | recvMsg frame order =>
    obtain ⟨-, ⟨_, vars, -, -, rfl | ⟨_, _, -, rfl⟩⟩ | ⟨vars, rfl, -, -⟩⟩ := recvMsg_cases hs
    · exact (List.append_nil _).symm
    · exact (List.append_nil _).symm
    · exact (List.append_nil _).symm
  | recvDone =>
    obtain ⟨i, c, r, -, -, -, rfl⟩ := recvDone_cases hs
    exact (List.append_nil _).symm
  | enqueue i =>
    obtain ⟨sender, -, rfl⟩ := Option.map_eq_some_iff.mp hs
    exact hsame sender
  | await i =>
    obtain ⟨sender, -, rfl⟩ := Option.map_eq_some_iff.mp hs
    exact hsame sender
  | takeFrame =>
    obtain ⟨sender, -, rfl⟩ := Option.map_eq_some_iff.mp hs
    exact hsame sender
  | sendFrame =>
    obtain ⟨data, i, sender, -, -, rfl⟩ := sendFrame_cases hs
    exact hsame sender

/-- A run publishes what it is given. -/
theorem published_exec {ops : List AgentOp} (hs : (agentMachine fromBytes T).exec s ops = some s') :
    s'.published = s.published ++ ops.filterMap AgentOp.chunk := by
  induction ops generalizing s with
  | nil =>
    obtain rfl := Option.some.inj hs
    exact (List.append_nil _).symm
  | cons op ops ih =>
    obtain ⟨u, hu, hrest⟩ := (Machine.exec_cons_eq_some _).mp hs
    rw [ih hrest, published_step hu, List.append_assoc]
    cases hchunk : op.chunk <;> simp [hchunk]

/-- A run of the tasks alone publishes nothing. -/
theorem published_progress {ops : List AgentOp} (hops : ∀ op ∈ ops, op.isProgress = true)
    (hs : (agentMachine fromBytes T).exec s ops = some s') : s'.published = s.published := by
  have hnone : ops.filterMap AgentOp.chunk = [] := by
    rw [List.filterMap_eq_nil_iff]
    intro op hop
    have hprogress := hops op hop
    cases op with
    | publish data => cases hprogress
    | _ => rfl
  rw [published_exec hs, hnone, List.append_nil]

/-- Everything that fits arrives unless something that does not fit is published before it. -/
theorem DeliveryInv.delivers_iff (h : s.DeliveryInv) :
    s.Delivers fromBytes T ↔ s.published.Pairwise fun c d => Fits d → Fits c := by
  constructor
  · intro hdelivers
    obtain ⟨ops, t, hops, hexec, hquiet⟩ := (agentMachine fromBytes T).exists_exec_quiescent
      (fun _ _ _ hop hstep => remaining_lt hop hstep) s
    have hwire := (hdelivers.complete ops t hops hexec).2 hquiet
    rw [← published_progress hops hexec] at hwire ⊢
    exact ((h.exec hexec).delivered_iff hquiet).mp hwire
  · intro hpair
    refine ⟨h.chunkFrames_prefix, fun ops t hops hexec => ⟨?_, fun hquiet => ?_⟩⟩
    · have hle := (agentMachine fromBytes T).length_add_le_of_lt
        (fun _ _ _ hop hstep => remaining_lt hop hstep) hops hexec
      omega
    · rw [← published_progress hops hexec] at hpair ⊢
      exact ((h.exec hexec).delivered_iff hquiet).mpr hpair

/-- MAIN: **when an agent delivers its queue in order.**  After a run of any publications and
messages, in any interleaving of the tasks of the agent, the chunks that fit the framing limit are
written in the order of publication, each as one frame, if and only if none of them was published
behind one that does not fit.
SRC: client_agent.rs:166-182; communator.rs:28-71; msg_adapter.rs:16-22 -/
theorem agent_delivers_iff (fromBytes : FromBytes) (T : Target) {ops : List AgentOp}
    {s : AgentTasks}
    (h : (agentMachine fromBytes T).exec (agentMachine fromBytes T).init ops = some s) :
    s.Delivers fromBytes T ↔ (ops.filterMap AgentOp.chunk).Pairwise fun c d => Fits d → Fits c := by
  have hpub : s.published = ops.filterMap AgentOp.chunk := published_exec h
  rw [((DeliveryInv.init fromBytes T).exec h).delivers_iff, hpub]

/-- Two chunks, the first of which is on the wire. -/
theorem agent_delivers_twoChunks : ∃ s,
    (agentMachine Postcard.readEncoded ⟨fun _ => none, fun _ _ _ h => h⟩).exec
      (agentMachine Postcard.readEncoded ⟨fun _ => none, fun _ _ _ h => h⟩).init
      [.publish [1], .publish [2, 3], .takeChunk, .enqueue 0, .takeFrame, .sendFrame, .await 0,
        .sendDone] = some s ∧
      s.Delivers Postcard.readEncoded ⟨fun _ => none, fun _ _ _ h => h⟩ := by
  obtain ⟨s, hs⟩ := Option.isSome_iff_exists.mp (show
    ((agentMachine Postcard.readEncoded ⟨fun _ => none, fun _ _ _ h => h⟩).exec
      (agentMachine Postcard.readEncoded ⟨fun _ => none, fun _ _ _ h => h⟩).init
      [.publish [1], .publish [2, 3], .takeChunk, .enqueue 0, .takeFrame, .sendFrame, .await 0,
        .sendDone]).isSome = true by decide)
  exact ⟨s, hs, (agent_delivers_iff _ _ hs).mpr (by decide)⟩

/-- The frame of a chunk is longer than the chunk. -/
theorem length_lt_length_chunkFrame (chunk : Bytes) : chunk.length < (chunkFrame chunk).length := by
  have hbytes : ∀ l : Bytes, (l.flatMap Postcard.u8.enc).length = l.length := by
    intro l
    induction l with
    | nil => rfl
    | cons b l ih =>
      rw [List.flatMap_cons, List.length_append, ih, List.length_cons, Nat.add_comm]
      rfl
  have htag : (Codec.varint.enc 4).length = 1 := rfl
  show chunk.length < (Codec.varint.enc 4 ++
    (Codec.varint.enc chunk.length ++ chunk.flatMap Postcard.u8.enc)).length
  rw [List.length_append, List.length_append, hbytes, htag]
  omega

/-- A chunk of eight megabytes is not sent. -/
theorem framerOk_long {chunk : Bytes} (h : 8 * 1024 * 1024 ≤ chunk.length) :
    framerOk (chunkFrame chunk) = false := by
  have hlt := length_lt_length_chunkFrame chunk
  rw [framerOk, decide_eq_false_iff_not]
  omega

/-- The send task ends at a chunk that is too long, and the one behind it stays in the queue. -/
theorem exec_long (fromBytes : FromBytes) (T : Target) {chunk : Bytes}
    (h : framerOk (chunkFrame chunk) = false) (behind : Bytes) :
    ∃ s, (agentMachine fromBytes T).exec (agentMachine fromBytes T).init
      [.publish chunk, .publish behind, .takeChunk, .enqueue 0, .takeFrame, .sendFrame, .await 0,
        .sendDone] = some s ∧ s.chunkFrames = [] ∧ s.sendTask = .ended ∧
      s.rxProcData = [behind] := by
  let call : SendCall PtProcMsg := ⟨.dataReq chunk,
    .returned (.error ⟨"oh error"⟩), some (.error ⟨"Send data failed"⟩)⟩
  let frames := [(chunkFrame chunk, 0)]
  refine ⟨⟨[behind], ⟨[call], [], .idle, frames, frames, []⟩, .ended, .recv, ⟨.connected, ∅, []⟩,
    [chunk, behind]⟩, ?_, rfl, rfl, rfl⟩
  simp [Machine.exec, agentMachine, AgentTasks.publish, AgentTasks.takeChunk,
    CommunatorSender.call, encodeMsg_dataReq, CommunatorSender.new, CommunatorSender.enqueue,
    CommunatorSender.setPhase, CommunatorSender.take, AgentTasks.sendFrame, h,
    CommunatorSender.send, CommunatorSender.reply, CommunatorSender.await, AgentTasks.sendDone,
    result, call, frames]

/-- A chunk of 8 MiB and a byte behind it. -/
theorem long_chunk_strands : ∃ chunk s, chunk = List.replicate (8 * 1024 * 1024) (0 : UInt8) ∧
    (agentMachine Postcard.readEncoded ⟨fun _ => none, fun _ _ _ h => h⟩).exec
      (agentMachine Postcard.readEncoded ⟨fun _ => none, fun _ _ _ h => h⟩).init
      [.publish chunk, .publish [1], .takeChunk, .enqueue 0, .takeFrame, .sendFrame, .await 0,
        .sendDone] = some s ∧ Fits [1] ∧ s.chunkFrames = [] ∧ s.sendTask = .ended ∧
      s.rxProcData = [[1]] ∧
      ¬ s.Delivers Postcard.readEncoded ⟨fun _ => none, fun _ _ _ h => h⟩ := by
  obtain ⟨chunk, hchunk⟩ : ∃ chunk, chunk = List.replicate (8 * 1024 * 1024) (0 : UInt8) :=
    ⟨_, rfl⟩
  have hlong : framerOk (chunkFrame chunk) = false :=
    framerOk_long (by rw [hchunk, List.length_replicate])
  obtain ⟨s, hs, hframes, htask, hrx⟩ :=
    exec_long Postcard.readEncoded ⟨fun _ => none, fun _ _ _ h => h⟩ hlong [1]
  have hfits : Fits [1] := by decide
  refine ⟨chunk, s, hchunk, hs, hfits, hframes, htask, hrx, fun h => ?_⟩
  have hpair := ((DeliveryInv.init _ _).exec hs).delivers_iff.mp h
  rw [published_exec hs] at hpair
  have hlast : Fits [1] → Fits chunk :=
    (List.pairwise_cons.mp hpair).1 [1] (List.mem_singleton_self _)
  have hfit := hlast hfits
  rw [Fits, hlong] at hfit
  cases hfit

end AgentTasks

end PtkGenerator

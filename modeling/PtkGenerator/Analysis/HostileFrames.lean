import PtkGenerator.Model.RecvLoop

/-!
# Payloads that are no message

`decode` unwraps what `from_bytes` returns, so a payload that is no message is not rejected: it
panics in the adapter, and with it the task that receives.  A receive loop meets what it should
exactly on the sequences of frames in which it comes to no such payload; where it comes to one, it
has processed the messages before it and ends there.
-/

set_option autoImplicit false

namespace PtkGenerator

variable {σ ε : Type} {fromBytes : FromBytes}

/-- `from_bytes` reads a message from the payload. -/
def Decodable (fromBytes : FromBytes) (data : Bytes) : Prop := (fromBytes data).isSome

/-- `decode` returns the message of the payload, or the error when it has none. -/
def DecodeRejects (fromBytes : FromBytes) (data : Bytes) : Prop :=
  PtProcMsgAdapter.decode fromBytes data = .returned (match fromBytes data with
    | some msg => .ok msg
    | none => .error ())

/-- `recv_data` returns the message of the payload, or an error when it has none. -/
def RecvRejects (fromBytes : FromBytes) (data : Bytes) : Prop :=
  match fromBytes data with
  | some msg => recvData fromBytes (.payload data) = .returned (.ok msg)
  | none => ∃ e, recvData fromBytes (.payload data) = .returned (.error e)

/-- The messages of a sequence of frames, all of which have one. -/
def messages (fromBytes : FromBytes) (inputs : List (Frame × ε)) : List PtProcMsg :=
  inputs.filterMap fun input =>
    match input.1 with
    | .payload data => fromBytes data
    | _ => none

/-- The loop comes to the payload behind the frames `pre`. -/
def ComesTo (fromBytes : FromBytes) (body : ε → σ → PtProcMsg → Round σ) (s : σ)
    (inputs pre : List (Frame × ε)) (data : Bytes) : Prop :=
  (∃ e post, inputs = pre ++ (.payload data, e) :: post) ∧
    (recvLoop fromBytes body s pre).status = .waiting

/-- A payload that is no message and that the loop comes to ends it as an error does, with the
messages before it processed. -/
def LoopRejects (fromBytes : FromBytes) (body : ε → σ → PtProcMsg → Round σ) (s : σ)
    (inputs : List (Frame × ε)) : Prop :=
  ∀ pre data, ComesTo fromBytes body s inputs pre data → ¬ Decodable fromBytes data →
    (recvLoop fromBytes body s inputs).status = .finished ∧
      (recvLoop fromBytes body s inputs).processed = messages fromBytes pre

/-- Bytes that are no message make the adapter panic. -/
theorem decode_of_not_decodable {data : Bytes} (h : ¬ Decodable fromBytes data) :
    PtProcMsgAdapter.decode fromBytes data = .panicked := by
  have hnone : fromBytes data = none := by simpa [Decodable] using h
  rw [PtProcMsgAdapter.decode, hnone]

/-- A payload that is no message makes the receiver panic. -/
theorem recvData_of_not_decodable {data : Bytes} (h : ¬ Decodable fromBytes data) :
    recvData fromBytes (.payload data) = .panicked := by
  rw [recvData, decode_of_not_decodable h]

/-- A payload that is a message is received. -/
theorem recvData_of_decodable {data : Bytes} {msg : PtProcMsg}
    (h : fromBytes data = some msg) :
    recvData fromBytes (.payload data) = .returned (.ok msg) := by
  rw [recvData, PtProcMsgAdapter.decode, h]

/-- The adapter does as it should exactly with the bytes of a message. -/
theorem decodeRejects_iff (fromBytes : FromBytes) (data : Bytes) :
    DecodeRejects fromBytes data ↔ Decodable fromBytes data := by
  unfold DecodeRejects
  constructor
  · intro h
    by_contra hbad
    rw [decode_of_not_decodable hbad] at h
    cases h
  · intro h
    obtain ⟨msg, hmsg⟩ := Option.isSome_iff_exists.mp h
    rw [PtProcMsgAdapter.decode, hmsg]

/-- The receiver does as it should exactly with the payload of a message. -/
theorem recvRejects_iff (fromBytes : FromBytes) (data : Bytes) :
    RecvRejects fromBytes data ↔ Decodable fromBytes data := by
  unfold RecvRejects
  cases hmsg : fromBytes data with
  | some msg =>
    have hgood : Decodable fromBytes data := by rw [Decodable, hmsg]; rfl
    exact iff_of_true (recvData_of_decodable hmsg) hgood
  | none =>
    have hbad : ¬ Decodable fromBytes data := by simp [Decodable, hmsg]
    refine iff_of_false ?_ hbad
    rintro ⟨e, he⟩
    rw [recvData_of_not_decodable hbad] at he
    cases he

/-! ## The loops -/

/-- A loop that has ended stays as it is. -/
theorem foldl_round_of_ended (body : ε → σ → PtProcMsg → Round σ) {l : RecvLoop σ}
    (h : l.status ≠ .waiting) (inputs : List (Frame × ε)) :
    inputs.foldl (RecvLoop.round fromBytes body) l = l := by
  induction inputs with
  | nil => rfl
  | cons input inputs ih =>
    have hstay : l.round fromBytes body input = l := by
      unfold RecvLoop.round
      cases hs : l.status with
      | waiting => exact absurd hs h
      | _ => rfl
    rw [List.foldl_cons, hstay, ih]

/-- The loop goes through the first inputs and then through the rest. -/
theorem recvLoop_append (body : ε → σ → PtProcMsg → Round σ) (s : σ)
    (pre post : List (Frame × ε)) :
    recvLoop fromBytes body s (pre ++ post) =
      post.foldl (RecvLoop.round fromBytes body) (recvLoop fromBytes body s pre) :=
  List.foldl_append

/-- INTERNAL: a loop that goes on after a frame has got a message and processed it. -/
theorem round_waiting (body : ε → σ → PtProcMsg → Round σ) {l : RecvLoop σ} {input : Frame × ε}
    (h : (l.round fromBytes body input).status = .waiting) :
    l.status = .waiting ∧
      (l.round fromBytes body input).processed = l.processed ++ messages fromBytes [input] := by
  obtain ⟨frame, e⟩ := input
  unfold RecvLoop.round at h ⊢
  cases hs : l.status with
  | waiting =>
    refine ⟨rfl, ?_⟩
    simp only [hs] at h ⊢
    cases frame with
    | failed err => simp [recvData] at h
    | closed => simp [recvData] at h
    | payload data =>
      cases hmsg : fromBytes data with
      | none =>
        rw [recvData_of_not_decodable (by simp [Decodable, hmsg])] at h
        cases h
      | some msg =>
        rw [recvData_of_decodable hmsg] at h ⊢
        have hmessages : messages fromBytes [(Frame.payload data, e)] = [msg] := by
          simp [messages, hmsg]
        rw [hmessages]
        dsimp only at h ⊢
        cases body e l.vars msg <;> rfl
  | _ => simp [hs] at h

/-- A loop that waits has processed everything it was sent. -/
theorem processed_of_waiting (body : ε → σ → PtProcMsg → Round σ) (s : σ)
    (pre : List (Frame × ε)) (h : (recvLoop fromBytes body s pre).status = .waiting) :
    (recvLoop fromBytes body s pre).processed = messages fromBytes pre := by
  induction pre using List.reverseRecOn with
  | nil => rfl
  | append_singleton pre input ih =>
    rw [recvLoop_append] at h ⊢
    obtain ⟨hstatus, hprocessed⟩ := round_waiting body h
    rw [List.foldl_cons, List.foldl_nil, hprocessed, ih hstatus]
    simp [messages, List.filterMap_append]

/-- INTERNAL: **where a loop ends that comes to a payload without a message**: in a panic, with
the messages before it processed. -/
theorem recvLoop_of_comesTo {body : ε → σ → PtProcMsg → Round σ} {s : σ}
    {inputs pre : List (Frame × ε)} {data : Bytes} (h : ComesTo fromBytes body s inputs pre data)
    (hbad : ¬ Decodable fromBytes data) :
    (recvLoop fromBytes body s inputs).status = .panicked ∧
      (recvLoop fromBytes body s inputs).processed = messages fromBytes pre := by
  obtain ⟨⟨e, post, rfl⟩, hwaiting⟩ := h
  have hround : (recvLoop fromBytes body s pre).round fromBytes body (.payload data, e) =
      { recvLoop fromBytes body s pre with status := .panicked } := by
    unfold RecvLoop.round
    rw [hwaiting, recvData_of_not_decodable hbad]
  rw [recvLoop_append, List.foldl_cons, hround,
    foldl_round_of_ended body (by exact LoopStatus.noConfusion)]
  exact ⟨rfl, processed_of_waiting body s pre hwaiting⟩

/-- The loop ends as it should when it comes to no payload that is no message. -/
theorem loopRejects_iff (fromBytes : FromBytes) (body : ε → σ → PtProcMsg → Round σ) (s : σ)
    (inputs : List (Frame × ε)) :
    LoopRejects fromBytes body s inputs ↔
      ∀ pre data, ComesTo fromBytes body s inputs pre data → Decodable fromBytes data := by
  constructor
  · intro h pre data hto
    by_contra hbad
    have hfinished := (h pre data hto hbad).1
    rw [(recvLoop_of_comesTo hto hbad).1] at hfinished
    cases hfinished
  · intro h pre data hto hbad
    exact absurd (h pre data hto) hbad

/-- MAIN: **payloads that are no message are not rejected.**  Whatever `from_bytes` is, `decode` and
`recv_data` do what they should exactly on the payloads that it accepts, and the receive loops of an
agent and of a client exactly on the sequences of frames in which they come to no other payload.
SRC: msg_adapter.rs:12-15, communator.rs:87-111, client_agent.rs:113-164, client_proc.rs:143-172 -/
theorem hostile_bytes_iff (fromBytes : FromBytes) (data : Bytes) (T : Target) (agent : AgentLoop)
    (toAgent : List (Frame × VisitOrder)) (client : ServerLoop)
    (toClient : List (Frame × (Usize → RspChannel))) :
    (DecodeRejects fromBytes data ↔ Decodable fromBytes data) ∧
    (RecvRejects fromBytes data ↔ Decodable fromBytes data) ∧
    (LoopRejects fromBytes (agentBody T) agent toAgent ↔ ∀ pre data,
      ComesTo fromBytes (agentBody T) agent toAgent pre data → Decodable fromBytes data) ∧
    (LoopRejects fromBytes serverBody client toClient ↔ ∀ pre data,
      ComesTo fromBytes serverBody client toClient pre data → Decodable fromBytes data) :=
  ⟨decodeRejects_iff fromBytes data, recvRejects_iff fromBytes data,
    loopRejects_iff fromBytes (agentBody T) agent toAgent,
    loopRejects_iff fromBytes serverBody client toClient⟩

/-- An empty payload is no encoding, and panics. -/
theorem empty_payload_panics : ¬ ∀ data, DecodeRejects Postcard.readEncoded data := by
  intro h
  have hdata := (decodeRejects_iff Postcard.readEncoded []).mp (h [])
  cases hdata

end PtkGenerator

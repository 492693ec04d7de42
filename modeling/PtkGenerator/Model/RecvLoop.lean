import PtkGenerator.Model.MsgAdapter
import PtkGenerator.Model.ReadMem

/-!
# Receiving messages

`recv_data` takes the next frame off the connection and decodes its payload.  The receive task of
a `ClientAgent` and the loop of `ServerAgent::connect` both go on as long as it returns `Ok`; what
they do with a message is their body, which goes on, leaves the loop, panics or does not return.
What a body finds outside of the task is an argument of each of its rounds.
-/

set_option autoImplicit false

namespace PtkGenerator

open Ranges

/-- An `io::Error` of kind `Other`. -/
structure IoError where
  text : String
  deriving DecidableEq

/-- What `frame_reader.next()` gives: a payload, an error of the framing, or the end. -/
inductive Frame where
  | payload (data : Bytes)
  | failed (e : IoError)
  | closed

/-- `recv_data` of a `CommunatorReceiver`.
SRC: communator.rs:87-111 -/
def recvData (fromBytes : FromBytes) (readRst : Frame) : Returned (Except IoError PtProcMsg) :=
  match readRst with
  | .payload r =>
    match PtProcMsgAdapter.decode fromBytes r with
    | .returned (.ok r) => .returned (.ok r)
    | .returned (.error _) => .returned (.error ⟨"decode error"⟩)
    | .panicked => .panicked
  | .failed e => .returned (.error e)
  | .closed => .returned (.error ⟨"recv None"⟩)

/-- How the body of a receive loop ends for a message. -/
inductive Round (σ : Type) where
  | next (s : σ)
  | leave (s : σ)
  | panicked (s : σ)
  | blocked (s : σ)

/-- Where a receive loop is: at `recv_data`, behind the loop, in a panic, or in a call that does
not return. -/
inductive LoopStatus where
  | waiting
  | finished
  | panicked
  | blocked
  deriving DecidableEq

/-- A receive loop, with the messages its body was given. -/
structure RecvLoop (σ : Type) where
  vars : σ
  status : LoopStatus
  processed : List PtProcMsg

/-- One round of `while let Ok(msg) = receiver.recv_data().await`. -/
def RecvLoop.round {σ ε : Type} (fromBytes : FromBytes) (body : ε → σ → PtProcMsg → Round σ)
    (l : RecvLoop σ) (input : Frame × ε) : RecvLoop σ :=
  match l.status with
  | .waiting =>
    match recvData fromBytes input.1 with
    | .returned (.ok msg) =>
      let processed := l.processed ++ [msg]
      match body input.2 l.vars msg with
      | .next s => ⟨s, .waiting, processed⟩
      | .leave s => ⟨s, .finished, processed⟩
      | .panicked s => ⟨s, .panicked, processed⟩
      | .blocked s => ⟨s, .blocked, processed⟩
    | .returned (.error _) => { l with status := .finished }
    | .panicked => { l with status := .panicked }
  | _ => l

/-- The loop over a sequence of frames. -/
def recvLoop {σ ε : Type} (fromBytes : FromBytes) (body : ε → σ → PtProcMsg → Round σ) (s : σ)
    (inputs : List (Frame × ε)) : RecvLoop σ :=
  inputs.foldl (RecvLoop.round fromBytes body) ⟨s, .waiting, []⟩

/-! ## The receive task of an agent -/

/-- What the receive task of an agent writes; `sent` are the messages it gave to `send_data`. -/
structure AgentLoop where
  state : ClientState
  rstData : PageMap
  sent : List PtProcMsg

/-- An order of visiting for each message. -/
abbrev VisitOrder := { visit : SparseMap → Visit // ∀ data, Visits data (visit data) }

/-- The body of the receive task.
SRC: client_agent.rs:114-161 -/
def agentBody (T : Target) (order : VisitOrder) (s : AgentLoop) : PtProcMsg → Round AgentLoop
  | .regReq id => .next { s with state := .activate, sent := s.sent ++ [.regRsp id] }
  | .memReq addr size =>
    -- a range longer than the buffer is written over its end
    if 8192 < size.toNat ∧ (readRange T.mem addr.toNat size.toNat).isSome then .panicked s
    else .next { s with sent := s.sent ++ [.memRsp addr (memReqArm T addr size.toNat)] }
  | .dataRsp data =>
    match dataRsp s.rstData (order.val data) with
    | .done rstData => .next { s with rstData }
    | .panicked rstData => .panicked { s with rstData }
  | _ => .leave s

/-- The arms leave the state alone, but for the `RegReq` arm. -/
theorem agentBody_state (T : Target) (order : VisitOrder) (s : AgentLoop) (msg : PtProcMsg) :
    match agentBody T order s msg with
    | .next s' => s'.state = s.state ∨ s'.state = .activate
    | .leave s' | .panicked s' | .blocked s' => s'.state = s.state := by
  cases msg with
  | regReq id => exact .inr rfl
  | memReq addr size =>
    rw [agentBody]
    by_cases hlong : 8192 < size.toNat ∧ (readRange T.mem addr.toNat size.toNat).isSome
    · rw [if_pos hlong]
    · rw [if_neg hlong]
      exact .inl rfl
  | dataRsp data =>
    rw [agentBody]
    cases dataRsp s.rstData (order.val data) with
    | done rstData => exact .inl rfl
    | panicked rstData => rfl
  | regRsp id => rfl
  | unReg id => rfl
  | init => rfl
  | dataReq data => rfl
  | memRsp addr data => rfl

/-! ## The receive loop of a client -/

/-- What there is in `mem_req_lst` for an address. -/
inductive RspChannel where
  | missing
  | empty
  | full
  | disconnected

/-- What the receive loop of a client hands on. -/
structure ServerLoop where
  ctrl : List ProcCtrl
  delivered : List (Usize × Bytes)

/-- The body of the receive loop.
SRC: client_proc.rs:143-171 -/
def serverBody (memReqLst : Usize → RspChannel) (s : ServerLoop) : PtProcMsg → Round ServerLoop
  | .init => .next { s with ctrl := s.ctrl ++ [.init] }
  | .regRsp _ => .next s
  | .dataReq data => .next { s with ctrl := s.ctrl ++ [.proc data] }
  | .memRsp addr data =>
    match memReqLst addr with
    | .missing => .next s
    | .empty => .next { s with delivered := s.delivered ++ [(addr, data)] }
    | .full => .blocked s
    | .disconnected => .leave s
  -- `unimplemented!`
  | _ => .panicked s

end PtkGenerator

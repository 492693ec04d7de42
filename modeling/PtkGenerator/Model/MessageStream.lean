import PtkGenerator.Model.SendTask

/-!
# One direction of a connection

Any number of tasks send messages through one `CommunatorSender`; the frames that its framer has
written come to a receive loop at the other end in the order in which they were written.  Instead
of the next frame the loop can find the connection broken or at its end.  All payloads are
encodings, and the loop reads them as such.
-/

set_option autoImplicit false

namespace PtkGenerator

/-- The order in which the maps of a message are visited. -/
def PtProcMsg.visit (order : VisitOrder) : PtProcMsg → Visit
  | .dataRsp data => order.val data
  | _ => []

/-- `self.adapter.encode(&data)` in `send_data`.
SRC: communator.rs:45, msg_adapter.rs:16-22 -/
def encodeVisited (order : VisitOrder) (msg : PtProcMsg) : Except Unit Bytes :=
  match PtProcMsgAdapter.encode msg (msg.visit order) with
  | .returned r => r
  | .panicked => .error ()

/-- The calls at one end, the frames between, and the loop at the other end. -/
structure MessageStream (σ : Type) where
  sender : CommunatorSender PtProcMsg
  wire : List Bytes
  receiver : RecvLoop σ

/-- The steps of the sender and of the receive loop. -/
inductive StreamOp (ε : Type) where
  | sender (op : SenderOp PtProcMsg)
  | recv (e : ε)
  | broken (e : ε) (error : Option IoError)

namespace MessageStream

variable {σ ε : Type}

/-- A step of a call or of the task with the framer; what it writes is on the wire. -/
def send (order : VisitOrder) (s : MessageStream σ) (op : SenderOp PtProcMsg) :
    Option (MessageStream σ) :=
  ((senderMachine (encodeVisited order)).step s.sender op).map fun sender => { s with
    sender
    wire := s.wire ++ (sender.written.drop s.sender.written.length).map Prod.fst }

/-- The loop takes the next frame. -/
def recv (body : ε → σ → PtProcMsg → Round σ) (s : MessageStream σ) (e : ε) :
    Option (MessageStream σ) :=
  match s.receiver.status, s.wire with
  | .waiting, frame :: wire =>
    some { s with wire, receiver := s.receiver.round Postcard.readEncoded body (.payload frame, e) }
  | _, _ => none

/-- The loop finds an error of the connection, or its end. -/
def broken (body : ε → σ → PtProcMsg → Round σ) (s : MessageStream σ) (e : ε)
    (error : Option IoError) : Option (MessageStream σ) :=
  match s.receiver.status with
  | .waiting =>
    let frame := match error with
      | some error => .failed error
      | none => .closed
    some { s with receiver := s.receiver.round Postcard.readEncoded body (frame, e) }
  | _ => none

end MessageStream

/-- A sender and the loop that receives its messages.
SRC: communator.rs:28-111, client_agent.rs:114-161, client_proc.rs:143-171 -/
def streamMachine {σ ε : Type} (order : VisitOrder) (body : ε → σ → PtProcMsg → Round σ)
    (vars : σ) : Machine (MessageStream σ) (StreamOp ε) where
  init := ⟨.new, [], ⟨vars, .waiting, []⟩⟩
  step s
    | .sender op => s.send order op
    | .recv e => s.recv body e
    | .broken e error => s.broken body e error

end PtkGenerator

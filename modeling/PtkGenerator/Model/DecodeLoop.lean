import PtkGenerator.Library.Driven
import PtkGenerator.Model.DecodeProc

/-!
# The decode loop

`decode` synchronises the decoder, fetches its events, and then asks for one instruction after the
other, each followed by a loop over the events; an error of `next` ends it or lets it synchronise
again.  Its calls of the decoder are what happens: the machine here is at one of them, and its
events are the answers.  The text of `decode` and `async_decode` is the same up to the reader they
install, which the decoder calls and they do not.

What a status says besides `event_pending`, and an instruction besides its `ip`, is not looked at.
-/

set_option autoImplicit false

namespace PtkGenerator

/-- `libipt::PtErrorCode`; `other` stands for the codes that the match has no arm for. -/
inductive PtErrorCode where
  | nosync
  | badQuery
  | other (code : ℕ)
  deriving DecidableEq

/-- `libipt::Status`. -/
structure Status where
  eventPending : Bool
  deriving DecidableEq

/-- What a call of the decoder returns. -/
inductive DecoderAnswer where
  | syncForward (r : Except PtErrorCode Status)
  | event (r : Except PtErrorCode Status)
  | next (r : Except PtErrorCode (Usize × Status))

/-- The call of the decoder that is made next: the first `sync_forward`, `event` in one of the two
loops, `next`, and `sync_forward` after an error. -/
inductive DecodePhase where
  | sync
  | drain
  | next
  | resync
  | returned
  deriving DecidableEq

/-- The variables of `decode`. -/
structure DecodeState where
  phase : DecodePhase
  cnt : Usize
  dataRst : PageMap

/-- The answer of the decoder to the call that is made.
SRC: decode_proc/mod.rs:26-29, 47-91, 106-109, 129-173 -/
def DecodeState.step (s : DecodeState) : DecoderAnswer → Option DecodeState
  | .syncForward r =>
    match s.phase, r with
    | .sync, .ok _ => some { s with phase := .drain }
    | .sync, .error _ => some { s with phase := .returned, cnt := 0 }
    -- `continue`, without a look at the status
    | .resync, .ok _ => some { s with phase := .next }
    | .resync, .error _ => some { s with phase := .returned }
    | _, _ => none
  | .event r =>
    match s.phase, r with
    | .drain, .ok st => some { s with phase := if st.eventPending then .drain else .next }
    | .drain, .error _ => some { s with phase := .next }
    | _, _ => none
  | .next r =>
    match s.phase, r with
    | .next, .ok (ip, _) => some ⟨.drain, s.cnt + 1, countIp s.dataRst ip⟩
    | .next, .error .nosync => some { s with phase := .resync }
    | .next, .error .badQuery => some { s with phase := .resync }
    | .next, .error (.other _) => some { s with phase := .returned }
    | _, _ => none

/-- The steps of the loop, one for each arm. -/
inductive DecodeState.Step (s : DecodeState) : DecoderAnswer → DecodeState → Prop
  | synced (st) : s.phase = .sync → Step s (.syncForward (.ok st)) { s with phase := .drain }
  | notSynced (e) : s.phase = .sync →
      Step s (.syncForward (.error e)) { s with phase := .returned, cnt := 0 }
  | moreEvents (st) : s.phase = .drain → st.eventPending = true →
      Step s (.event (.ok st)) { s with phase := .drain }
  | noEvent (st) : s.phase = .drain → st.eventPending = false →
      Step s (.event (.ok st)) { s with phase := .next }
  | eventFailed (e) : s.phase = .drain → Step s (.event (.error e)) { s with phase := .next }
  | counted (ip st) : s.phase = .next →
      Step s (.next (.ok (ip, st))) ⟨.drain, s.cnt + 1, countIp s.dataRst ip⟩
  | lostSync (e) : s.phase = .next → e = .nosync ∨ e = .badQuery →
      Step s (.next (.error e)) { s with phase := .resync }
  | failed (code) : s.phase = .next →
      Step s (.next (.error (.other code))) { s with phase := .returned }
  | resynced (st) : s.phase = .resync → Step s (.syncForward (.ok st)) { s with phase := .next }
  | notResynced (e) : s.phase = .resync →
      Step s (.syncForward (.error e)) { s with phase := .returned }

/-- INTERNAL: an answer is that of one of the arms. -/
theorem DecodeState.step_cases {s t : DecodeState} {a : DecoderAnswer} (h : s.step a = some t) :
    Step s a t := by
  obtain ⟨phase, cnt, dataRst⟩ := s
  cases a with
  | syncForward r =>
    cases phase with
    | sync =>
      cases r with
      | ok st =>
        cases h
        exact .synced st rfl
      | error e =>
        cases h
        exact .notSynced e rfl
    | resync =>
      cases r with
      | ok st =>
        cases h
        exact .resynced st rfl
      | error e =>
        cases h
        exact .notResynced e rfl
    | drain | next | returned => cases h
  | event r =>
    cases phase with
    | drain =>
      cases r with
      | ok st =>
        cases h
        cases hst : st.eventPending with
        | true => exact .moreEvents st rfl hst
        | false => exact .noEvent st rfl hst
      | error e =>
        cases h
        exact .eventFailed e rfl
    | sync | next | resync | returned => cases h
  | next r =>
    cases phase with
    | next =>
      cases r with
      | ok i =>
        obtain ⟨ip, st⟩ := i
        cases h
        exact .counted ip st rfl
      | error e =>
        cases e with
        | nosync =>
          cases h
          exact .lostSync _ rfl (.inl rfl)
        | badQuery =>
          cases h
          exact .lostSync _ rfl (.inr rfl)
        | other code =>
          cases h
          exact .failed code rfl
    | sync | drain | resync | returned => cases h

/-- The loop, on the map `data_rst`. -/
def decodeLoop (dataRst : PageMap) : Machine DecodeState DecoderAnswer :=
  ⟨⟨.sync, 0, dataRst⟩, DecodeState.step⟩

/-- `decode`.
SRC: decode_proc/mod.rs:15-93 -/
def DecodeProc.decode (dataRst : PageMap) : Machine DecodeState DecoderAnswer := decodeLoop dataRst

/-- `async_decode`.
SRC: decode_proc/mod.rs:96-175 -/
def DecodeProc.asyncDecode (dataRst : PageMap) : Machine DecodeState DecoderAnswer :=
  decodeLoop dataRst

/-- A decoder: what its calls return, and what they make of it and of everything it uses, the image
and the cacher with its reader among them. -/
structure InsnDecoder (ρ : Type) where
  syncForward : ρ → Except PtErrorCode Status × ρ
  event : ρ → Except PtErrorCode Status × ρ
  next : ρ → Except PtErrorCode (Usize × Status) × ρ

/-- The answer of a decoder to the call that is made. -/
def InsnDecoder.answers {ρ : Type} (d : InsnDecoder ρ) :
    Machine.Environment DecodeState DecoderAnswer ρ := fun w s =>
  match s.phase with
  | .sync => some (.syncForward (d.syncForward w).1, (d.syncForward w).2)
  | .drain => some (.event (d.event w).1, (d.event w).2)
  | .next => some (.next (d.next w).1, (d.next w).2)
  | .resync => some (.syncForward (d.syncForward w).1, (d.syncForward w).2)
  | .returned => none

/-- The instruction pointers of the instructions that were returned. -/
def returnedIps (answers : List DecoderAnswer) : List Usize :=
  answers.filterMap fun
    | .next (.ok (ip, _)) => some ip
    | _ => none

end PtkGenerator

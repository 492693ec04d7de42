import PtkGenerator.Library.Cuts
import PtkGenerator.Library.Machine
import PtkGenerator.Model.Types

/-!
# The splitter thread

A splitter appends each buffer it receives to `assemed_data`, has `split` find the sync points,
sends what lies between consecutive ones to a worker and keeps what lies behind the last.  The
splitter of `server` is the same text.

`split` runs the decoder of libipt and is a parameter.  `SplitOffsets` is what its offsets are in
any case, and `SplitSpec` what is relied on where the stream is to be cut at its own sync points.  A
slice out of range stops the thread, so the steps are partial.

`spliterRecv` is the body of the loop at once.  `spliterThread` takes it statement by statement, so
that the moments between the sends of one buffer are states of it.
-/

set_option autoImplicit false

namespace PtkGenerator

open Cuts

/-- The offsets that `sync_forward` comes to: they increase and lie in the data.
SRC: data_spliter/mod.rs:4-14 -/
structure SplitOffsets (split : Bytes → List ℕ) : Prop where
  increasing : ∀ d, (split d).Pairwise (· < ·)
  within : ∀ d, ∀ o ∈ split d, o < d.length

/-- What makes the sync points of the parts those of the stream: appended bytes only append offsets,
and bytes dropped before the last offset only shift the ones from it on.
SRC: data_spliter/mod.rs:4-14 -/
structure SplitSpec (split : Bytes → List ℕ) : Prop extends SplitOffsets split where
  append : ∀ d e, split d <+: split (d ++ e)
  rebase : ∀ d e m, (split d).getLast? = some m →
    split (d.drop m ++ e) = ((split (d ++ e)).filter (m ≤ ·)).map (· - m)

/-- `d[start..end]`. -/
def slice (d : Bytes) (start stop : ℕ) : Option Bytes :=
  if start ≤ stop ∧ stop ≤ d.length then some ((d.drop start).take (stop - start)) else none

/-- The loop over the offsets after the first one: what it sends.
SRC: online_proc.rs:74-79 -/
def sendSegments (assemedData : Bytes) : ℕ → List ℕ → Option (List Bytes)
  | _, [] => some []
  | lastOffset, offset :: offsets => do
    let chunk ← slice assemedData lastOffset offset
    let chunks ← sendSegments assemedData offset offsets
    some (chunk :: chunks)

/-- The body of the loop, for a received buffer: the chunks sent and the new `assemed_data`.
SRC: online_proc.rs:65-84 -/
def spliterRecv (split : Bytes → List ℕ) (assemedData d : Bytes) : Option (List Bytes × Bytes) :=
  let assemedData := assemedData ++ d
  match split assemedData with
  | [] => some ([], assemedData)
  | offset :: offsets => do
    let sent ← sendSegments assemedData offset offsets
    let endOffset := (offset :: offsets).getLast (List.cons_ne_nil _ _)
    if 0 < endOffset then
      let rest ← slice assemedData endOffset assemedData.length
      some (sent, rest)
    else some (sent, assemedData)

/-- The loop of the thread over the buffers received until its sender is dropped: the chunks
sent and the `assemed_data` it ends with.
SRC: online_proc.rs:64-86, server.rs:104-126 -/
def spliterRun (split : Bytes → List ℕ) : Bytes → List Bytes → Option (List Bytes × Bytes)
  | assemedData, [] => some ([], assemedData)
  | assemedData, d :: ds => do
    let (sent, assemedData) ← spliterRecv split assemedData d
    let (later, assemedData) ← spliterRun split assemedData ds
    some (sent ++ later, assemedData)

/-- `create_spliter_thread`: the chunks the thread has sent when it has ended.
SRC: online_proc.rs:58-87, server.rs:98-127 -/
def createSpliterThread (split : Bytes → List ℕ) (received : List Bytes) : Option (List Bytes) :=
  (spliterRun split [] received).map Prod.fst

/-- Where the thread is: at `rx.recv()`, behind the append, or in the loop over the offsets, with
those still to come. -/
inductive SpliterPos where
  | recv
  | appended
  | sending (lastOffset : ℕ) (offsets : List ℕ) (endOffset : ℕ)
  deriving DecidableEq

/-- The thread between two of its statements.  `received`, `searched` and `sent` record the buffers
taken from the channel, the bytes whose sync points are known, and the chunks sent. -/
structure SpliterThread where
  pos : SpliterPos
  assemedData : Bytes
  received : List Bytes
  searched : Bytes
  sent : List Bytes

/-- The statements of the loop: the receive with its append, the search, one send, and what follows
the loop over the offsets. -/
inductive SpliterOp where
  | recv (d : Bytes)
  | search
  | send
  | trim

/-- One statement of the thread.
SRC: online_proc.rs:65-84, server.rs:105-124 -/
def SpliterThread.step (split : Bytes → List ℕ) (s : SpliterThread) :
    SpliterOp → Option SpliterThread
  | .recv d =>
    match s.pos with
    | .recv => some { s with
        pos := .appended
        assemedData := s.assemedData ++ d
        received := s.received ++ [d] }
    | _ => none
  | .search =>
    match s.pos with
    | .appended =>
      match split s.assemedData with
      | [] => some { s with pos := .recv, searched := s.received.flatten }
      | offset :: offsets => some { s with
          pos := .sending offset offsets
            ((offset :: offsets).getLast (List.cons_ne_nil offset offsets))
          searched := s.received.flatten }
    | _ => none
  | .send =>
    match s.pos with
    | .sending lastOffset (offset :: offsets) endOffset => do
      let chunk ← slice s.assemedData lastOffset offset
      some { s with pos := .sending offset offsets endOffset, sent := s.sent ++ [chunk] }
    | _ => none
  | .trim =>
    match s.pos with
    | .sending _ [] endOffset =>
      if 0 < endOffset then do
        let rest ← slice s.assemedData endOffset s.assemedData.length
        some { s with pos := .recv, assemedData := rest }
      else some { s with pos := .recv }
    | _ => none

/-- The thread, statement by statement.
SRC: online_proc.rs:58-87, server.rs:98-127 -/
def spliterThread (split : Bytes → List ℕ) : Machine SpliterThread SpliterOp where
  init := ⟨.recv, [], [], [], []⟩
  step s op := s.step split op

/-- What the thread retains of `assemed_data`: all of it, but what the loop over the offsets has
sent. -/
def SpliterThread.retained (s : SpliterThread) : Bytes :=
  match s.pos with
  | .sending lastOffset _ _ => s.assemedData.drop lastOffset
  | _ => s.assemedData

/-- INTERNAL: increasing offsets in the data are cut without a panic.
SRC: online_proc.rs:73-79 -/
theorem sendSegments_eq {d : Bytes} {a : ℕ} {os : List ℕ} (h : (a :: os).Pairwise (· < ·))
    (hd : ∀ o ∈ os, o ≤ d.length) : sendSegments d a os = some (segments d (a :: os)) := by
  induction os generalizing a with
  | nil => rfl
  | cons b os ih =>
    have hab : a < b := (List.pairwise_cons.mp h).1 b (by simp)
    have hb : b ≤ d.length := hd b (by simp)
    rw [sendSegments, slice, if_pos ⟨hab.le, hb⟩,
      ih (List.pairwise_cons.mp h).2 fun o ho => hd o (List.mem_cons_of_mem b ho)]
    rfl

/-- INTERNAL: **one buffer**: the pieces between the sync points are sent, and what lies behind
the last one is kept.
SRC: online_proc.rs:65-84 -/
theorem spliterRecv_eq {split : Bytes → List ℕ} (h : SplitOffsets split) (assemedData d : Bytes) :
    spliterRecv split assemedData d =
      some (segments (assemedData ++ d) (split (assemedData ++ d)),
        fromLast (assemedData ++ d) (split (assemedData ++ d))) := by
  have hinc := h.increasing (assemedData ++ d)
  have hin := h.within (assemedData ++ d)
  rw [spliterRecv]
  cases hs : split (assemedData ++ d) with
  | nil => rfl
  | cons offset offsets =>
    rw [hs] at hinc hin
    have hlast := hin _ (List.getLast_mem (List.cons_ne_nil offset offsets))
    have hget : (offset :: offsets).getLast? = some ((offset :: offsets).getLast (by simp)) :=
      List.getLast?_eq_some_getLast _
    dsimp only
    rw [sendSegments_eq hinc fun o ho => (hin o (List.mem_cons_of_mem _ ho)).le, fromLast, hget,
      Option.getD_some]
    by_cases hpos : 0 < (offset :: offsets).getLast (List.cons_ne_nil _ _)
    · simp only [Option.bind_eq_bind, Option.bind_some, if_pos hpos, slice]
      rw [if_pos ⟨hlast.le, le_rfl⟩, Option.bind_some, List.take_of_length_le
        (by rw [List.length_drop])]
    · have hz : (offset :: offsets).getLast (List.cons_ne_nil _ _) = 0 := by omega
      simp only [Option.bind_eq_bind, Option.bind_some, hz, lt_irrefl, if_false, List.drop_zero]

end PtkGenerator

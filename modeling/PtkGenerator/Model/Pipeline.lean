import Mathlib.Data.Fintype.Basic
import PtkGenerator.Library.Machine
import PtkGenerator.Model.DecodeProc
import PtkGenerator.Model.OnlineProc

/-!
# The local pipeline

`online_proc` runs one splitter for each CPU and one worker for each CPU but the last.  The
splitters share one unbounded channel, from which the workers take chunks; `wait_for_complete`
drops the sender of a splitter and joins it, one splitter after the other, and then joins the
workers.

An interleaving is a run of `pipelineMachine`.  A receive on the shared channel fails only when it
is empty and every clone of its sender is dropped: the clones are held by the splitters, and
`create_env` has dropped the original.  A send goes to a channel that has a receiver: with two CPUs
or more the workers hold one each, and none of them ends before the splitters have.  What the decode
of a chunk yields is a parameter, and a chunk carries its splitter and its number there, so that two
chunks with the same bytes are told apart.
-/

set_option autoImplicit false

namespace PtkGenerator

/-- A chunk on the shared channel: which splitter sent it, as which of its chunks, and its
bytes. -/
structure Chunk (cpuNums : ℕ) where
  cpu : Fin cpuNums
  seq : ℕ
  data : Bytes
  deriving DecidableEq

/-- A splitter thread: its receiver, whether its sender is still there, `assemed_data`, the chunks
of the current buffer that are still to be sent, and whether the thread has ended.  `fed` and
`sent` record what it was fed and what it has sent. -/
structure Spliter where
  rx : List Bytes
  txAlive : Bool
  assemedData : Bytes
  outgoing : List Bytes
  ended : Bool
  fed : List Bytes
  sent : List Bytes

/-- A worker thread: the chunk it decodes, its map, whether it has ended, and the record of the
chunks it has decoded. -/
structure Worker (cpuNums : ℕ) where
  current : Option (Chunk cpuNums)
  data : PageMap
  ended : Bool
  decoded : List (Chunk cpuNums)

/-- Where the main thread is: feeding the splitters, dropping and joining splitter `i`, joining
worker `j`, or behind `wait_for_complete`. -/
inductive MainPhase where
  | collecting
  | waitSpliter (i : ℕ)
  | waitWorker (j : ℕ)
  | completed
  deriving DecidableEq

/-- The threads and the shared channel. -/
structure Pipeline (cpuNums : ℕ) where
  spliters : Fin cpuNums → Spliter
  workers : Fin (cpuNums - 1) → Worker cpuNums
  queue : List (Chunk cpuNums)
  main : MainPhase

/-- The steps of the threads. -/
inductive PipelineOp (cpuNums : ℕ) where
  | processor (i : Fin cpuNums) (d : Bytes)
  | stop
  | dropTx
  | joinSpliter
  | joinWorker
  | spliterRecv (i : Fin cpuNums)
  | spliterSend (i : Fin cpuNums)
  | spliterEnd (i : Fin cpuNums)
  | workerRecv (j : Fin (cpuNums - 1))
  | workerDecode (j : Fin (cpuNums - 1))
  | workerEnd (j : Fin (cpuNums - 1))

namespace Pipeline

variable {cpuNums : ℕ}

/-- Replace a splitter. -/
def setSpliter (s : Pipeline cpuNums) (i : Fin cpuNums) (sp : Spliter) : Pipeline cpuNums :=
  { s with spliters := Function.update s.spliters i sp }

/-- Replace a worker. -/
def setWorker (s : Pipeline cpuNums) (j : Fin (cpuNums - 1)) (w : Worker cpuNums) :
    Pipeline cpuNums :=
  { s with workers := Function.update s.workers j w }

/-- `processor`: what was fetched, if anything was, goes to the splitter of its CPU.
SRC: online_proc.rs:99-113 -/
def processor (s : Pipeline cpuNums) (i : Fin cpuNums) (d : Bytes) : Option (Pipeline cpuNums) :=
  if s.main = .collecting then
    if 0 < d.length then
      let sp := s.spliters i
      some (s.setSpliter i { sp with rx := sp.rx ++ [d], fed := sp.fed ++ [d] })
    else some s
  else none

/-- The steps of `wait_for_complete`.
SRC: online_proc.rs:207-241 -/
def stop (s : Pipeline cpuNums) : Option (Pipeline cpuNums) :=
  if s.main = .collecting then some { s with main := .waitSpliter 0 } else none

/-- `pd.tx.0.take()`.
SRC: online_proc.rs:217-218 -/
def dropTx (s : Pipeline cpuNums) : Option (Pipeline cpuNums) :=
  match s.main with
  | .waitSpliter i =>
    if hi : i < cpuNums then
      let sp := s.spliters ⟨i, hi⟩
      if sp.txAlive then some (s.setSpliter ⟨i, hi⟩ { sp with txAlive := false }) else none
    else none
  | _ => none

/-- `pd.tx.1.take().unwrap().join()`, and the end of the loop over the splitters.
SRC: online_proc.rs:213-225 -/
def joinSpliter (s : Pipeline cpuNums) : Option (Pipeline cpuNums) :=
  match s.main with
  | .waitSpliter i =>
    if hi : i < cpuNums then
      if (s.spliters ⟨i, hi⟩).txAlive = false ∧ (s.spliters ⟨i, hi⟩).ended = true then
        some { s with main := .waitSpliter (i + 1) }
      else none
    else some { s with main := .waitWorker 0 }
  | _ => none

/-- `pd.worker.take()` and the join, and the end of the loop over the workers.
SRC: online_proc.rs:227-240 -/
def joinWorker (s : Pipeline cpuNums) : Option (Pipeline cpuNums) :=
  match s.main with
  | .waitWorker j =>
    if hj : j < cpuNums - 1 then
      if (s.workers ⟨j, hj⟩).ended = true then some { s with main := .waitWorker (j + 1) } else none
    else some { s with main := .completed }
  | _ => none

/-- A splitter takes its next buffer, once the chunks of the last one are sent.
SRC: online_proc.rs:65-72 -/
def spliterRecv (split : Bytes → List ℕ) (s : Pipeline cpuNums) (i : Fin cpuNums) :
    Option (Pipeline cpuNums) :=
  let sp := s.spliters i
  if sp.ended = true ∨ sp.outgoing ≠ [] then none
  else
    match sp.rx with
    | [] => none
    | d :: rx => do
      let (chunks, assemedData) ← PtkGenerator.spliterRecv split sp.assemedData d
      some (s.setSpliter i { sp with rx, assemedData, outgoing := chunks })

/-- A splitter sends the next chunk of the buffer, while somebody holds a receiver.
SRC: online_proc.rs:75-77 -/
def spliterSend (s : Pipeline cpuNums) (i : Fin cpuNums) : Option (Pipeline cpuNums) :=
  let sp := s.spliters i
  match sp.outgoing with
  | [] => none
  | c :: outgoing =>
    let s' := s.setSpliter i { sp with outgoing, sent := sp.sent ++ [c] }
    some { s' with queue := s.queue ++ [⟨i, sp.sent.length, c⟩] }

/-- `rx.recv()` fails, so the thread ends and drops its clone of the sender.
SRC: online_proc.rs:65, 86 -/
def spliterEnd (s : Pipeline cpuNums) (i : Fin cpuNums) : Option (Pipeline cpuNums) :=
  let sp := s.spliters i
  if sp.ended = false ∧ sp.txAlive = false ∧ sp.rx = [] ∧ sp.outgoing = [] then
    some (s.setSpliter i { sp with ended := true })
  else none

/-- An idle worker takes the next chunk.
SRC: online_proc.rs:46 -/
def workerRecv (s : Pipeline cpuNums) (j : Fin (cpuNums - 1)) : Option (Pipeline cpuNums) :=
  let w := s.workers j
  if w.ended = true ∨ w.current.isSome then none
  else
    match s.queue with
    | [] => none
    | c :: queue => some { s.setWorker j { w with current := some c } with queue }

/-- A worker decodes its chunk into its map.
SRC: online_proc.rs:47-53 -/
def workerDecode (yields : Bytes → List Usize) (s : Pipeline cpuNums) (j : Fin (cpuNums - 1)) :
    Option (Pipeline cpuNums) :=
  let w := s.workers j
  match w.current with
  | none => none
  | some c => some (s.setWorker j { w with
      current := none
      data := decodeYield w.data (yields c.data)
      decoded := w.decoded ++ [c] })

/-- `rx.recv()` fails, because the channel is empty and all senders are dropped.
SRC: online_proc.rs:46, 55 -/
def workerEnd (s : Pipeline cpuNums) (j : Fin (cpuNums - 1)) : Option (Pipeline cpuNums) :=
  let w := s.workers j
  if w.ended = false ∧ w.current = none ∧ s.queue = [] ∧ ∀ i, (s.spliters i).ended = true then
    some (s.setWorker j { w with ended := true })
  else none

/-! ## What a step can do -/

section Cases

variable {split : Bytes → List ℕ} {yields : Bytes → List Usize} {s t : Pipeline cpuNums}
  {i : Fin cpuNums} {j : Fin (cpuNums - 1)}

/-- While the capture runs, data goes to the splitter, and nothing goes nowhere. -/
theorem processor_cases {d : Bytes} (h : s.processor i d = some t) :
    s.main = .collecting ∧
      ((0 < d.length ∧ t = s.setSpliter i { s.spliters i with
          rx := (s.spliters i).rx ++ [d], fed := (s.spliters i).fed ++ [d] }) ∨
        (d = [] ∧ t = s)) := by
  obtain ⟨hm, h⟩ := Option.ite_none_right_eq_some.mp h
  refine ⟨hm, ?_⟩
  split at h
  · next hd => exact .inl ⟨hd, (Option.some.inj h).symm⟩
  · next hd =>
    exact .inr ⟨List.length_eq_zero_iff.mp (Nat.eq_zero_of_not_pos hd), (Option.some.inj h).symm⟩

/-- `main` goes on to wait when the capture has ended. -/
theorem stop_cases (h : s.stop = some t) :
    s.main = .collecting ∧ t = { s with main := .waitSpliter 0 } := by
  obtain ⟨hm, h⟩ := Option.ite_none_right_eq_some.mp h
  exact ⟨hm, (Option.some.inj h).symm⟩

/-- `main` drops the sender of the splitter it is at. -/
theorem dropTx_cases (h : s.dropTx = some t) :
    ∃ (k : ℕ) (hk : k < cpuNums), s.main = .waitSpliter k ∧
      (s.spliters ⟨k, hk⟩).txAlive = true ∧
      t = s.setSpliter ⟨k, hk⟩ { s.spliters ⟨k, hk⟩ with txAlive := false } := by
  unfold dropTx at h
  split at h
  · next k hm =>
    split at h
    · next hk =>
      obtain ⟨halive, h⟩ := Option.ite_none_right_eq_some.mp h
      exact ⟨k, hk, hm, halive, (Option.some.inj h).symm⟩
    · cases h
  · cases h

/-- `main` joins the splitter it is at, or has come to the end of them. -/
theorem joinSpliter_cases (h : s.joinSpliter = some t) :
    ∃ k, s.main = .waitSpliter k ∧
      ((∃ hk : k < cpuNums, ((s.spliters ⟨k, hk⟩).txAlive = false ∧
          (s.spliters ⟨k, hk⟩).ended = true) ∧ t = { s with main := .waitSpliter (k + 1) }) ∨
        (cpuNums ≤ k ∧ t = { s with main := .waitWorker 0 })) := by
  unfold joinSpliter at h
  split at h
  · next k hm =>
    refine ⟨k, hm, ?_⟩
    split at h
    · next hk =>
      obtain ⟨hended, h⟩ := Option.ite_none_right_eq_some.mp h
      exact .inl ⟨hk, hended, (Option.some.inj h).symm⟩
    · next hk => exact .inr ⟨not_lt.mp hk, (Option.some.inj h).symm⟩
  · cases h

/-- `main` joins the worker it is at, or has come to the end of them. -/
theorem joinWorker_cases (h : s.joinWorker = some t) :
    ∃ k, s.main = .waitWorker k ∧
      ((∃ hk : k < cpuNums - 1, (s.workers ⟨k, hk⟩).ended = true ∧
          t = { s with main := .waitWorker (k + 1) }) ∨
        (cpuNums - 1 ≤ k ∧ t = { s with main := .completed })) := by
  unfold joinWorker at h
  split at h
  · next k hm =>
    refine ⟨k, hm, ?_⟩
    split at h
    · next hk =>
      obtain ⟨hended, h⟩ := Option.ite_none_right_eq_some.mp h
      exact .inl ⟨hk, hended, (Option.some.inj h).symm⟩
    · next hk => exact .inr ⟨not_lt.mp hk, (Option.some.inj h).symm⟩
  · cases h

/-- A splitter that has sent all its chunks cuts its next buffer. -/
theorem spliterRecv_cases (h : s.spliterRecv split i = some t) :
    ∃ d rx chunks assemedData, (s.spliters i).ended ≠ true ∧ (s.spliters i).outgoing = [] ∧
      (s.spliters i).rx = d :: rx ∧
      PtkGenerator.spliterRecv split (s.spliters i).assemedData d = some (chunks, assemedData) ∧
      t = s.setSpliter i { s.spliters i with rx, assemedData, outgoing := chunks } := by
  obtain ⟨hready, h⟩ := Option.ite_none_left_eq_some.mp h
  rw [not_or, not_not] at hready
  split at h
  · cases h
  · next d rx hrx =>
    simp only [Option.bind_eq_bind, Option.bind_eq_some_iff] at h
    obtain ⟨⟨chunks, assemedData⟩, hrecv, h⟩ := h
    exact ⟨d, rx, chunks, assemedData, hready.1, hready.2, hrx, hrecv, (Option.some.inj h).symm⟩

/-- A splitter puts its next chunk on the channel. -/
theorem spliterSend_cases (h : s.spliterSend i = some t) :
    ∃ c outgoing, (s.spliters i).outgoing = c :: outgoing ∧
      t = { s.setSpliter i
            { s.spliters i with outgoing, sent := (s.spliters i).sent ++ [c] } with
          queue := s.queue ++ [⟨i, (s.spliters i).sent.length, c⟩] } := by
  unfold spliterSend at h
  dsimp only at h
  split at h
  · cases h
  · next c outgoing hout => exact ⟨c, outgoing, hout, (Option.some.inj h).symm⟩

/-- A splitter that has nothing more to come ends. -/
theorem spliterEnd_cases (h : s.spliterEnd i = some t) :
    ((s.spliters i).ended = false ∧ (s.spliters i).txAlive = false ∧ (s.spliters i).rx = [] ∧
        (s.spliters i).outgoing = []) ∧
      t = s.setSpliter i { s.spliters i with ended := true } := by
  obtain ⟨hready, h⟩ := Option.ite_none_right_eq_some.mp h
  exact ⟨hready, (Option.some.inj h).symm⟩

/-- A free worker takes the first chunk of the channel. -/
theorem workerRecv_cases (h : s.workerRecv j = some t) :
    ∃ c queue, (s.workers j).ended ≠ true ∧ (s.workers j).current = none ∧
      s.queue = c :: queue ∧
      t = { s.setWorker j { s.workers j with current := some c } with queue } := by
  obtain ⟨hfree, h⟩ := Option.ite_none_left_eq_some.mp h
  rw [not_or] at hfree
  split at h
  · cases h
  · next c queue hq =>
    exact ⟨c, queue, hfree.1, Option.not_isSome_iff_eq_none.mp hfree.2, hq,
      (Option.some.inj h).symm⟩

/-- A worker with a chunk decodes it. -/
theorem workerDecode_cases (h : s.workerDecode yields j = some t) :
    ∃ c, (s.workers j).current = some c ∧ t = s.setWorker j { s.workers j with
      current := none
      data := decodeYield (s.workers j).data (yields c.data)
      decoded := (s.workers j).decoded ++ [c] } := by
  unfold workerDecode at h
  dsimp only at h
  split at h
  · cases h
  · next c hc => exact ⟨c, hc, (Option.some.inj h).symm⟩

/-- A free worker ends behind all splitters, when the channel is empty. -/
theorem workerEnd_cases (h : s.workerEnd j = some t) :
    ((s.workers j).ended = false ∧ (s.workers j).current = none ∧ s.queue = [] ∧
        ∀ i, (s.spliters i).ended = true) ∧
      t = s.setWorker j { s.workers j with ended := true } := by
  obtain ⟨hready, h⟩ := Option.ite_none_right_eq_some.mp h
  exact ⟨hready, (Option.some.inj h).symm⟩

end Cases

end Pipeline

/-- The pipeline that `create_env` sets up.
SRC: online_proc.rs:38-97, 115-173, 207-241 -/
def pipelineMachine (cpuNums : ℕ) (split : Bytes → List ℕ) (yields : Bytes → List Usize) :
    Machine (Pipeline cpuNums) (PipelineOp cpuNums) where
  init :=
    { spliters := fun _ => ⟨[], true, [], [], false, [], []⟩
      workers := fun _ => ⟨none, ∅, false, []⟩
      queue := []
      main := .collecting }
  step s
    | .processor i d => s.processor i d
    | .stop => s.stop
    | .dropTx => s.dropTx
    | .joinSpliter => s.joinSpliter
    | .joinWorker => s.joinWorker
    | .spliterRecv i => s.spliterRecv split i
    | .spliterSend i => s.spliterSend i
    | .spliterEnd i => s.spliterEnd i
    | .workerRecv j => s.workerRecv j
    | .workerDecode j => s.workerDecode yields j
    | .workerEnd j => s.workerEnd j

/-- The maps `collect_all_data` goes through: those of the workers, and the one of the last CPU,
which has no worker.
SRC: online_proc.rs:155-165, 281-283 -/
def Pipeline.pds {cpuNums : ℕ} (s : Pipeline cpuNums) : List PageMap :=
  (List.finRange (cpuNums - 1)).map (fun j => (s.workers j).data) ++ [∅]

end PtkGenerator

import PtkGenerator.Model.OnlineProc

/-!
# What a splitter makes of a stream

The state of a splitter after some buffers does not depend on how they were cut: `assemed_data`
is what lies behind the last sync point of everything received, and the chunks sent are the
pieces between its sync points.  `spliterRecv_stream` shows that one more buffer keeps this up;
the run follows by induction over the buffers.

When the sender is dropped the loop ends and `assemed_data` is dropped with it, so what lies
behind the last sync point never reaches a worker (`spliter_complete_iff`).
-/

set_option autoImplicit false

namespace PtkGenerator

open Cuts

variable {split : Bytes → List ℕ}

/-- INTERNAL: the offsets of what is kept of `S` with `d` behind it are those of the whole from
the last one of `S` on. -/
theorem SplitSpec.split_kept (h : SplitSpec split) {S : Bytes} {m : ℕ}
    (hm : (split S).getLast? = some m) (d : Bytes) :
    ∃ xs later, split S = xs ++ [m] ∧ split (S ++ d) = xs ++ m :: later ∧
      split (S.drop m ++ d) = (m :: later).map (· - m) ∧ ∀ o ∈ m :: later, m ≤ o := by
  obtain ⟨xs, hxs⟩ := List.getLast?_eq_some_iff.mp hm
  obtain ⟨later, hlater⟩ := h.append S d
  rw [hxs, List.append_assoc, List.singleton_append] at hlater
  have hinc := h.increasing (S ++ d)
  rw [← hlater, List.pairwise_append] at hinc
  obtain ⟨-, hright, hcross⟩ := hinc
  have hge : ∀ o ∈ m :: later, m ≤ o := by
    intro o ho
    rcases List.mem_cons.mp ho with rfl | ho
    · exact le_rfl
    · exact ((List.pairwise_cons.mp hright).1 o ho).le
  refine ⟨xs, later, hxs, hlater.symm, ?_, hge⟩
  have hdrop : xs.filter (m ≤ ·) = [] := by
    rw [List.filter_eq_nil_iff]
    intro x hx
    have := hcross x hx m (by simp)
    simpa using this
  have hkeep : (m :: later).filter (m ≤ ·) = m :: later := by
    rw [List.filter_eq_self]
    intro o ho
    simpa using hge o ho
  rw [h.rebase S d m hm, ← hlater, List.filter_append, hdrop, hkeep, List.nil_append]

/-- INTERNAL: **one more buffer.** With what lies behind the last sync point of `S` kept, the
splitter sends the pieces that `d` completes and keeps what lies behind the last sync point of
both.
SRC: online_proc.rs:65-84 -/
theorem spliterRecv_stream (h : SplitSpec split) (S d : Bytes) :
    ∃ sent, spliterRecv split (fromLast S (split S)) d =
        some (sent, fromLast (S ++ d) (split (S ++ d))) ∧
      segments S (split S) ++ sent = segments (S ++ d) (split (S ++ d)) := by
  rw [spliterRecv_eq h.toSplitOffsets]
  cases hm : (split S).getLast? with
  | none =>
    have hnil : split S = [] := List.getLast?_eq_none_iff.mp hm
    have hkept : fromLast S (split S) = S := by rw [hnil]; rfl
    rw [hkept, hnil]
    exact ⟨_, rfl, rfl⟩
  | some m =>
    obtain ⟨xs, later, hS, hSd, hkept, hge⟩ := h.split_kept hm d
    have hmlt : m < S.length := h.within S m (by rw [hS]; simp)
    have hlast : fromLast S (split S) = S.drop m := by rw [fromLast, hm, Option.getD_some]
    have hdrop : S.drop m ++ d = (S ++ d).drop m :=
      (List.drop_append_of_le_length hmlt.le).symm
    rw [hlast, hkept, hdrop, segments_drop _ _ hge,
      fromLast_drop _ _ (List.cons_ne_nil m later) hge, hSd, fromLast_append_cons]
    refine ⟨_, rfl, ?_⟩
    -- the pieces up to the last sync point of `S` lie in `S`
    have hold : segments S (split S) = segments (S ++ d) (xs ++ [m]) := by
      rw [hS]
      refine (segments_append_right S d fun o ho => ?_).symm
      exact (h.within S o (by rwa [hS])).le
    rw [hold, ← segments_split]

/-- INTERNAL: **every buffer**, from any state a stream leads to.
SRC: online_proc.rs:64-86 -/
theorem spliterRun_stream (h : SplitSpec split) (S : Bytes) (bufs : List Bytes) :
    ∃ sent, spliterRun split (fromLast S (split S)) bufs =
        some (sent, fromLast (S ++ bufs.flatten) (split (S ++ bufs.flatten))) ∧
      segments S (split S) ++ sent =
        segments (S ++ bufs.flatten) (split (S ++ bufs.flatten)) := by
  induction bufs generalizing S with
  | nil => exact ⟨[], by simp [spliterRun], by simp⟩
  | cons d bufs ih =>
    obtain ⟨sent, hrecv, hsent⟩ := spliterRecv_stream h S d
    obtain ⟨later, hrun, hlater⟩ := ih (S ++ d)
    rw [List.append_assoc] at hrun hlater
    refine ⟨sent ++ later, ?_, ?_⟩
    · rw [spliterRun, hrecv]
      simp only [Option.bind_eq_bind, Option.bind_some]
      rw [hrun]
      rfl
    · rw [← List.append_assoc, hsent, List.flatten_cons, hlater]

/-- An empty buffer has no sync point. -/
theorem SplitSpec.split_nil (h : SplitSpec split) : split [] = [] := by
  rw [List.eq_nil_iff_forall_not_mem]
  intro o ho
  have := h.within [] o ho
  simp at this

/-- INTERNAL: **the state after a stream**, however it was cut.
SRC: online_proc.rs:63-86 -/
theorem spliterRun_eq (h : SplitSpec split) (bufs : List Bytes) :
    spliterRun split [] bufs = some (segments bufs.flatten (split bufs.flatten),
      fromLast bufs.flatten (split bufs.flatten)) := by
  obtain ⟨sent, hrun, hsent⟩ := spliterRun_stream h [] bufs
  have hkept : fromLast ([] : Bytes) (split []) = [] := by rw [h.split_nil]; rfl
  rw [h.split_nil, segments_nil, List.nil_append, List.nil_append] at hsent
  rw [hkept, List.nil_append] at hrun
  rw [hrun, hsent]

/-! ## Every moment of the thread -/

/-- INTERNAL: what holds at every moment of the thread.  At `rx.recv()` it has sent the pieces
between the sync points and holds what lies behind the last; behind the append the new bytes are
held too and not yet searched; in the loop over the offsets the ones before `lastOffset` are dealt
with, `base` bytes of the stream being gone from `assemed_data`. -/
def SpliterThread.Moment (split : Bytes → List ℕ) (s : SpliterThread) : Prop :=
  match s.pos with
  | .recv =>
    s.searched = s.received.flatten ∧
      s.sent = segments s.received.flatten (split s.received.flatten) ∧
      s.assemedData = fromLast s.received.flatten (split s.received.flatten)
  | .appended => ∃ d,
      s.received.flatten = s.searched ++ d ∧ s.sent = segments s.searched (split s.searched) ∧
      s.assemedData = fromLast s.searched (split s.searched) ++ d
  | .sending lastOffset offsets endOffset =>
    s.searched = s.received.flatten ∧
      endOffset = (lastOffset :: offsets).getLast (List.cons_ne_nil lastOffset offsets) ∧
      ∃ base done,
        split s.received.flatten = done ++ (lastOffset :: offsets).map (base + ·) ∧
        s.sent = segments s.received.flatten (done ++ [base + lastOffset]) ∧
        s.assemedData = s.received.flatten.drop base

variable {s t : SpliterThread}

/-- INTERNAL: the search finds the sync points of the stream from the last known one on.
SRC: online_proc.rs:69-73 -/
theorem SpliterThread.Moment.search (h : SplitSpec split) (hs : s.Moment split)
    (ht : s.step split .search = some t) : t.Moment split := by
  cases hpos : s.pos with
  | recv => simp [SpliterThread.step, hpos] at ht
  | sending l os e => simp [SpliterThread.step, hpos] at ht
  | appended =>
    simp only [SpliterThread.Moment, hpos] at hs
    obtain ⟨d, hrecv, hsent, hdata⟩ := hs
    simp only [SpliterThread.step, hpos] at ht
    have hwithin := h.within s.searched
    cases hm : (split s.searched).getLast? with
    | none =>
      have hnil : split s.searched = [] := List.getLast?_eq_none_iff.mp hm
      have hall : s.assemedData = s.received.flatten := by
        rw [hdata, hnil, hrecv]
        rfl
      have hnone : s.sent = [] := by rw [hsent, hnil, segments_nil]
      rw [hall] at ht
      cases hsplit : split s.received.flatten with
      | nil =>
        rw [hsplit] at ht
        obtain rfl := Option.some.inj ht
        refine ⟨rfl, ?_, ?_⟩
        · rw [hsplit, segments_nil, hnone]
        · rw [hsplit]
          rfl
      | cons offset offsets =>
        rw [hsplit] at ht
        obtain rfl := Option.some.inj ht
        refine ⟨rfl, rfl, 0, [], ?_, ?_, ?_⟩
        · simpa using hsplit
        · rw [List.nil_append, segments_singleton, hnone]
        · rfl
    | some m =>
      obtain ⟨done, later, hold, hnew, hkept, hge⟩ := h.split_kept hm d
      have hmlt : m < s.searched.length := hwithin m (by rw [hold]; simp)
      have hlast : fromLast s.searched (split s.searched) = s.searched.drop m := by
        rw [fromLast, hm, Option.getD_some]
      have hshift : (m :: later).map (· - m) = 0 :: later.map (· - m) := by simp
      rw [hdata, hlast, hkept, hshift] at ht
      obtain rfl := Option.some.inj ht
      refine ⟨rfl, rfl, m, done, ?_, ?_, ?_⟩
      · rw [hrecv, hnew, ← hshift, List.map_map]
        refine congrArg (done ++ ·)
          ((List.map_congr_left fun o ho => ?_).trans (List.map_id _)).symm
        have := hge o ho
        simp only [Function.comp_apply, id_eq]
        omega
      · -- the pieces up to the last known sync point lie in what was searched before
        rw [hsent, hold, hrecv, Nat.add_zero]
        exact (segments_append_right _ d fun o ho => (hwithin o (by rwa [hold])).le).symm
      · rw [hrecv, List.drop_append_of_le_length hmlt.le]

/-- INTERNAL: a send adds the piece up to the next sync point.
SRC: online_proc.rs:74-79 -/
theorem SpliterThread.Moment.send (hs : s.Moment split) (ht : s.step split .send = some t) :
    t.Moment split := by
  cases hpos : s.pos with
  | recv => simp [SpliterThread.step, hpos] at ht
  | appended => simp [SpliterThread.step, hpos] at ht
  | sending lastOffset offsets endOffset =>
    cases offsets with
    | nil => simp [SpliterThread.step, hpos] at ht
    | cons offset offsets =>
      simp only [SpliterThread.Moment, hpos] at hs
      obtain ⟨hsearched, hend, base, done, hsplit, hsent, hdata⟩ := hs
      simp only [SpliterThread.step, hpos, slice] at ht
      split_ifs at ht with hrange
      · obtain rfl := Option.some.inj ht
        refine ⟨hsearched, ?_, base, done ++ [base + lastOffset], ?_, ?_, hdata⟩
        · rw [hend, List.getLast_cons (List.cons_ne_nil offset offsets)]
        · simpa using hsplit
        · rw [List.append_assoc, List.singleton_append, segments_split, ← hsent, segments_cons_cons,
            segments_singleton, hdata, List.drop_drop, Nat.add_sub_add_left]
      · simp at ht

/-- INTERNAL: behind the loop over the offsets only what lies behind the last sync point is held.
SRC: online_proc.rs:80-83 -/
theorem SpliterThread.Moment.trim (hs : s.Moment split) (ht : s.step split .trim = some t) :
    t.Moment split := by
  cases hpos : s.pos with
  | recv => simp [SpliterThread.step, hpos] at ht
  | appended => simp [SpliterThread.step, hpos] at ht
  | sending lastOffset offsets endOffset =>
    cases offsets with
    | cons offset offsets => simp [SpliterThread.step, hpos] at ht
    | nil =>
      simp only [SpliterThread.Moment, hpos] at hs
      obtain ⟨hsearched, rfl, base, done, hsplit, hsent, hdata⟩ := hs
      have hsplit' : split s.received.flatten = done ++ [base + endOffset] := by simpa using hsplit
      have hlast : fromLast s.received.flatten (split s.received.flatten) =
          s.assemedData.drop endOffset := by
        rw [hsplit', fromLast, List.getLast?_concat, Option.getD_some, hdata, List.drop_drop]
      simp only [SpliterThread.step, hpos, slice] at ht
      split_ifs at ht with hpositive hrange
      · obtain rfl := Option.some.inj ht
        refine ⟨hsearched, hsplit' ▸ hsent, ?_⟩
        rw [hlast]
        exact List.take_of_length_le (by rw [List.length_drop])
      · simp at ht
      · obtain rfl := Option.some.inj ht
        refine ⟨hsearched, hsplit' ▸ hsent, ?_⟩
        rw [hlast, show endOffset = 0 from by omega, List.drop_zero]

/-- INTERNAL: **every moment**, by the invariant rule.
SRC: online_proc.rs:58-87 -/
theorem spliterThread_moment (h : SplitSpec split) (hs : (spliterThread split).Reachable s) :
    s.Moment split := by
  refine (spliterThread split).invariant ?_ (fun s op t hs ht => ?_) hs
  · change _ = _ ∧ _ = segments [] (split []) ∧ _ = fromLast [] (split [])
    rw [h.split_nil]
    exact ⟨rfl, rfl, rfl⟩
  cases op with
  | search => exact hs.search h ht
  | send => exact hs.send ht
  | trim => exact hs.trim ht
  | recv d =>
    cases hpos : s.pos with
    | appended => simp [spliterThread, SpliterThread.step, hpos] at ht
    | sending l os e => simp [spliterThread, SpliterThread.step, hpos] at ht
    | recv =>
      simp only [SpliterThread.Moment, hpos] at hs
      simp only [spliterThread, SpliterThread.step, hpos] at ht
      obtain rfl := Option.some.inj ht
      obtain ⟨hsearched, hsent, hdata⟩ := hs
      exact ⟨d, by simp [hsearched], hsearched ▸ hsent, by rw [hsearched, hdata]⟩

/-- INTERNAL: nothing received is lost or sent twice at any moment: the chunks sent and what is
retained are what was received from the first sync point found on.
SRC: online_proc.rs:58-87 -/
theorem SpliterThread.Moment.accounts (h : SplitSpec split) (hs : s.Moment split) :
    s.sent.flatten ++ s.retained =
      s.received.flatten.drop ((split s.searched).head?.getD 0) := by
  cases hpos : s.pos with
  | recv =>
    simp only [SpliterThread.Moment, hpos] at hs
    obtain ⟨hsearched, hsent, hdata⟩ := hs
    rw [SpliterThread.retained, hpos, hsearched]
    dsimp only
    rw [hsent, hdata, flatten_segments _ (h.increasing _), fromFirst]
  | appended =>
    simp only [SpliterThread.Moment, hpos] at hs
    obtain ⟨d, hrecv, hsent, hdata⟩ := hs
    have hle : (split s.searched).head?.getD 0 ≤ s.searched.length := by
      cases hsplit : split s.searched with
      | nil => exact Nat.zero_le _
      | cons o os => exact (h.within s.searched o (by rw [hsplit]; simp)).le
    rw [SpliterThread.retained, hpos, hrecv, List.drop_append_of_le_length hle]
    dsimp only
    rw [hsent, hdata, ← List.append_assoc, flatten_segments _ (h.increasing _), fromFirst]
  | sending lastOffset offsets endOffset =>
    simp only [SpliterThread.Moment, hpos] at hs
    obtain ⟨hsearched, -, base, done, hsplit, hsent, hdata⟩ := hs
    have hinc : (done ++ [base + lastOffset]).Pairwise (· < ·) := by
      refine (h.increasing s.received.flatten).sublist ?_
      rw [hsplit, List.map_cons]
      exact (List.singleton_sublist.mpr List.mem_cons_self).append_left done
    have hfirst : (split s.received.flatten).head? = (done ++ [base + lastOffset]).head? := by
      rw [hsplit, List.map_cons, List.head?_append, List.head?_append]
      rfl
    have hflat := flatten_segments s.received.flatten hinc
    rw [fromLast, List.getLast?_concat, Option.getD_some, fromFirst] at hflat
    rw [SpliterThread.retained, hpos, hsearched, hfirst, ← hflat]
    dsimp only
    rw [hsent, hdata, List.drop_drop]

/-- INTERNAL: no slice is out of range: away from `rx.recv()` the thread can go on.
SRC: online_proc.rs:69-83 -/
theorem SpliterThread.Moment.goes_on (h : SplitSpec split) (hs : s.Moment split)
    (hpos : s.pos ≠ .recv) : ∃ op t, s.step split op = some t := by
  cases hp : s.pos with
  | recv => exact absurd hp hpos
  | appended =>
    refine ⟨.search, ?_⟩
    rw [SpliterThread.step, hp]
    cases hfound : split s.assemedData with
    | nil => exact ⟨_, rfl⟩
    | cons offset offsets => exact ⟨_, rfl⟩
  | sending lastOffset offsets endOffset =>
    simp only [SpliterThread.Moment, hp] at hs
    obtain ⟨-, hend, base, done, hsplit, -, hdata⟩ := hs
    have hin : ∀ o ∈ lastOffset :: offsets, o ≤ s.assemedData.length := by
      intro o ho
      have := h.within s.received.flatten (base + o)
        (by rw [hsplit]; exact List.mem_append_right done (List.mem_map_of_mem ho))
      rw [hdata, List.length_drop]
      omega
    cases offsets with
    | nil =>
      refine ⟨.trim, ?_⟩
      rw [SpliterThread.step, hp]
      have hle : endOffset ≤ s.assemedData.length := hend ▸ hin lastOffset (by simp)
      by_cases hpositive : 0 < endOffset
      · simp [hpositive, slice, hle]
      · simp [hpositive]
    | cons offset offsets =>
      refine ⟨.send, ?_⟩
      have hinc := h.increasing s.received.flatten
      rw [hsplit, List.map_cons, List.map_cons] at hinc
      have hlt := (List.pairwise_cons.mp (List.pairwise_append.mp hinc).2.1).1 (base + offset)
        (by simp)
      have hle := hin offset (by simp)
      have hle' : lastOffset ≤ offset := by omega
      simp [SpliterThread.step, hp, slice, hle, hle']

/-- MAIN: **the splitter does not depend on how the stream is cut.**  For every division of a
stream into buffers, the chunks sent are the pieces of the stream between its sync points, in
order.  At every moment of the thread, also between the sends of one buffer, what was sent and what
is retained together are the bytes received so far from the first sync point found on, or all of
them while none was found; at `rx.recv()`, where what is retained is `assemed_data` itself, every
sync point of what was received is found.
SRC: online_proc.rs:58-87, server.rs:98-127 -/
theorem spliter_fragmentation_independent (h : SplitSpec split) :
    (∀ bufs, createSpliterThread split bufs =
        some (segments bufs.flatten (split bufs.flatten))) ∧
      ∀ s, (spliterThread split).Reachable s →
        s.sent.flatten ++ s.retained =
            s.received.flatten.drop ((split s.searched).head?.getD 0) ∧
          (s.pos = .recv → s.searched = s.received.flatten ∧ s.retained = s.assemedData ∧
            spliterRun split [] s.received = some (s.sent, s.assemedData)) ∧
          (s.pos ≠ .recv → ∃ op t, (spliterThread split).step s op = some t) := by
  constructor
  · intro bufs
    rw [createSpliterThread, spliterRun_eq h, Option.map_some]
  · intro s hs
    have hmoment := spliterThread_moment h hs
    refine ⟨hmoment.accounts h, fun hpos => ?_, hmoment.goes_on h⟩
    simp only [SpliterThread.Moment, hpos] at hmoment
    obtain ⟨hsearched, hsent, hdata⟩ := hmoment
    refine ⟨hsearched, by rw [SpliterThread.retained, hpos], ?_⟩
    rw [spliterRun_eq h, hsent, hdata]

/-- What has to reach the workers: the stream from its first sync point on, nothing where there
is none. -/
def syncedPart (split : Bytes → List ℕ) (stream : Bytes) : Bytes :=
  match split stream with
  | [] => []
  | first :: _ => stream.drop first

/-- MAIN: **what a splitter has handed on when it has ended.**  For every sequence of buffers
received before the sender was dropped, the chunks sent are the stream from its first sync point
to its last byte exactly when the stream has no sync point; otherwise the piece that begins at
the last one is dropped with `assemed_data`.
SRC: online_proc.rs:63-86, 207-222 -/
theorem spliter_complete_iff (h : SplitSpec split) (bufs : List Bytes) :
    (∃ chunks, createSpliterThread split bufs = some chunks ∧
      chunks.flatten = syncedPart split bufs.flatten) ↔ split bufs.flatten = [] := by
  rw [createSpliterThread, spliterRun_eq h, Option.map_some]
  have hflat := flatten_segments bufs.flatten (h.increasing bufs.flatten)
  constructor
  · rintro ⟨chunks, hchunks, heq⟩
    obtain rfl := Option.some.inj hchunks
    by_contra hne
    have hlast := h.within bufs.flatten _ (List.getLast_mem hne)
    have hlen := congrArg List.length hflat
    have hfirst : syncedPart split bufs.flatten = fromFirst bufs.flatten (split bufs.flatten) := by
      cases hs : split bufs.flatten with
      | nil => exact absurd hs hne
      | cons first rest => simp [syncedPart, fromFirst, hs]
    rw [heq, ← hfirst, List.length_append, fromLast, List.getLast?_eq_some_getLast hne,
      Option.getD_some, List.length_drop] at hlen
    omega
  · intro hnil
    refine ⟨_, rfl, ?_⟩
    rw [syncedPart, hnil]
    rfl

/-! ## A decoder that looks for PSB and PSBEND -/

/-- The offsets at which such a PSB+ begins. -/
def psbSplit (d : Bytes) : List ℕ :=
  (List.range (d.length - 17)).filter fun i => (d.drop i).take 18 = psbPlus

/-- The sync points are those at the first places and those behind them. -/
theorem psbSplit_add (d : Bytes) (m : ℕ) (hm : m ≤ d.length - 17) :
    psbSplit d = ((List.range m).filter fun i => (d.drop i).take 18 = psbPlus) ++
      (psbSplit (d.drop m)).map (m + ·) := by
  have hrange : d.length - 17 = m + ((d.drop m).length - 17) := by
    rw [List.length_drop]
    omega
  rw [psbSplit, hrange, List.range_add, List.filter_append, List.filter_map, psbSplit]
  congr 3
  funext i
  simp [Function.comp, List.drop_drop]

/-- PSB+ are found as the decoder finds its sync points. -/
theorem psbSplit_spec : SplitSpec psbSplit := by
  refine ⟨⟨?_, ?_⟩, ?_, ?_⟩
  · intro d
    exact List.pairwise_lt_range.filter _
  · intro d o ho
    have := List.mem_range.mp (List.mem_of_mem_filter ho)
    omega
  · intro d e
    -- a match that lies in `d` is a match in `d ++ e`
    have hold : psbSplit d =
        (List.range (d.length - 17)).filter fun i => ((d ++ e).drop i).take 18 = psbPlus := by
      rw [psbSplit]
      apply List.filter_congr
      intro i hi
      have := List.mem_range.mp hi
      rw [List.drop_append_of_le_length (by omega),
        List.take_append_of_le_length (by rw [List.length_drop]; omega)]
    rw [hold, psbSplit_add (d ++ e) (d.length - 17) (by rw [List.length_append]; omega)]
    exact List.prefix_append _ _
  · intro d e m hm
    have hmem : m ∈ psbSplit d := List.mem_of_getLast? hm
    have hmlt := List.mem_range.mp (List.mem_of_mem_filter hmem)
    have hbefore : ((List.range m).filter fun i => ((d ++ e).drop i).take 18 = psbPlus).filter
        (m ≤ ·) = [] := by
      rw [List.filter_eq_nil_iff]
      intro i hi
      have := List.mem_range.mp (List.mem_of_mem_filter hi)
      simpa using this
    have hafter : ((psbSplit ((d ++ e).drop m)).map (m + ·)).filter (m ≤ ·) =
        (psbSplit ((d ++ e).drop m)).map (m + ·) := by
      rw [List.filter_eq_self]
      intro i hi
      obtain ⟨j, -, rfl⟩ := List.mem_map.mp hi
      simp
    rw [psbSplit_add (d ++ e) m (by rw [List.length_append]; omega), List.filter_append, hbefore,
      hafter, List.nil_append, List.map_map, ← List.drop_append_of_le_length (by omega)]
    simp [Function.comp_def]

/-- Two PSB+ with a TNT packet behind each, cut inside both: one chunk, and the second PSB+ is
retained.  Between the two sends of one buffer the rest of it is still retained. -/
theorem spliter_fragmentation_psb :
    createSpliterThread psbSplit
        [[9, 0x02], psbPlus.tail ++ [0x06] ++ psbPlus.take 5, psbPlus.drop 5 ++ [0x06]] =
      some [psbPlus ++ [0x06]] ∧
    ∃ s, (spliterThread psbSplit).exec (spliterThread psbSplit).init
        [.recv (9 :: psbPlus ++ [0x06] ++ psbPlus ++ psbPlus), .search, .send] = some s ∧
      s.sent = [psbPlus ++ [0x06]] ∧ s.retained = psbPlus ++ psbPlus ∧
      s.sent.flatten ++ s.retained =
        s.received.flatten.drop ((psbSplit s.searched).head?.getD 0) := by
  obtain ⟨hall, hmoment⟩ := spliter_fragmentation_independent psbSplit_spec
  constructor
  · rw [hall]
    decide
  · have hrun : ∃ s ∈ (spliterThread psbSplit).exec (spliterThread psbSplit).init
        [.recv (9 :: psbPlus ++ [0x06] ++ psbPlus ++ psbPlus), .search, .send],
        s.sent = [psbPlus ++ [0x06]] ∧ s.retained = psbPlus ++ psbPlus := by
      decide +kernel
    obtain ⟨s, hs, hsent, hretained⟩ := hrun
    exact ⟨s, hs, hsent, hretained, (hmoment s ⟨_, hs⟩).1⟩

/-- A stream without a PSB+ has no chunk. -/
theorem spliter_complete_noPsb :
    ∃ chunks, createSpliterThread psbSplit [[1, 2], [3]] = some chunks ∧
      chunks.flatten = syncedPart psbSplit [1, 2, 3] :=
  (spliter_complete_iff psbSplit_spec [[1, 2], [3]]).mpr (by decide)

/-- MAIN: a stream that is one PSB+ and a TNT packet: nothing is handed on.
SRC: online_proc.rs:63-86 -/
theorem spliter_drops_last_segment :
    ¬ ∀ bufs, ∃ chunks, createSpliterThread psbSplit bufs = some chunks ∧
      chunks.flatten = syncedPart psbSplit bufs.flatten := by
  intro hall
  obtain ⟨chunks, hsent, hflat⟩ := hall [psbPlus ++ [0x06]]
  have hnone : createSpliterThread psbSplit [psbPlus ++ [0x06]] = some [] := by decide
  rw [hnone] at hsent
  obtain rfl := Option.some.inj hsent
  revert hflat
  decide

end PtkGenerator

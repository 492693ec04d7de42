import PtkGenerator.Model.Types

/-!
# Counting the decoded instructions

`decode` and `async_decode` ask the decoder for one instruction after the other and count each
of them in the map they were given.  The text of the two loops is the same; what differs is the
closure that reads the memory of the target.  A chunk of trace is taken here as the list of
instruction addresses that its decode yields.
-/

set_option autoImplicit false

namespace PtkGenerator

open SumMap

/-- The `Ok` arm of the decode loop: count the instruction at `addr`, in a new page when its page
is not in the map yet.
SRC: decode_proc/mod.rs:54-65, 136-147 -/
def countIp (dataRst : PageMap) (addr : Usize) : PageMap :=
  upsert (fun it => it.addAt (offIdx addr) 1) (InsPage.zeroed.addAt (offIdx addr) 1)
    (pageOf addr) dataRst

/-- What `decode` does to the map when the decoder yields the instructions `ips`.
SRC: decode_proc/mod.rs:15-93 -/
def decodeYield (dataRst : PageMap) (ips : List Usize) : PageMap := ips.foldl countIp dataRst

/-- What `async_decode` does to the map when the decoder yields the instructions `ips`.
SRC: decode_proc/mod.rs:96-175 -/
def asyncDecodeYield (dataRst : PageMap) (ips : List Usize) : PageMap := ips.foldl countIp dataRst

/-- The histogram of a chunk: one summand for each instruction its decode yields. -/
def hist (ips : List Usize) : Tally := (ips.map Tally.one).sum

/-- A yielded address adds one at its place. -/
@[simp] theorem read_countIp (m : PageMap) (addr : Usize) :
    (countIp m addr).read = m.read + Tally.one addr :=
  total_upsert (fun old => InsPage.cnts_addAt old _ 1) (by simp) (pageOf addr) m

/-- The yields of `decode` add what they hold. -/
@[simp] theorem read_decodeYield (m : PageMap) (ips : List Usize) :
    (decodeYield m ips).read = m.read + hist ips :=
  foldl_sum PageMap.read countIp Tally.one read_countIp m ips

/-- The yields of `async_decode` add what they hold. -/
@[simp] theorem read_asyncDecodeYield (m : PageMap) (ips : List Usize) :
    (asyncDecodeYield m ips).read = m.read + hist ips :=
  read_decodeYield m ips

/-- The counts of chunks in a row are the sum of their counts. -/
theorem hist_flatten (chunks : List (List Usize)) :
    hist chunks.flatten = (chunks.map hist).sum := by
  induction chunks with
  | nil => simp [hist]
  | cons c cs ih =>
    rw [List.flatten_cons, List.map_cons, List.sum_cons, ← ih]
    simp [hist]

/-! ## What a histogram says about an address -/

/-- An address counts one at its offset in its own page. -/
theorem one_apply_pageOf (addr : Usize) :
    Tally.one addr (pageOf addr) = ((Pi.single (offIdx addr) 1 : Fin 4096 → Usize) :
      WithZero (Fin 4096 → Usize)) := by
  simp [Tally.one, single]

/-- An address counts nothing in any other page. -/
theorem one_apply_ne {addr page : Usize} (h : page ≠ pageOf addr) : Tally.one addr page = 0 := by
  simp [Tally.one, single, h]

/-- The counts of two tallies are added cell by cell. -/
theorem Tally.cnt_add (s t : Tally) (page : Usize) (i : Fin 4096) :
    (s + t).cnt page i = s.cnt page i + t.cnt page i := by
  unfold Tally.cnt
  rw [Pi.add_apply]
  cases hs : s page with
  | zero =>
    rw [zero_add]
    exact (zero_add _).symm
  | coe c =>
    cases ht : t page with
    | zero =>
      rw [add_zero]
      exact (add_zero (c i)).symm
    | coe d => rfl

/-- The empty tally counts zero everywhere. -/
@[simp] theorem Tally.cnt_zero (page : Usize) (i : Fin 4096) : (0 : Tally).cnt page i = 0 := rfl

/-- An address counts one at its own cell and zero at the others. -/
theorem Tally.cnt_one (addr page : Usize) (i : Fin 4096) :
    (Tally.one addr).cnt page i = if pageOf addr = page ∧ offIdx addr = i then 1 else 0 := by
  unfold Tally.cnt
  by_cases hp : pageOf addr = page
  · subst hp
    rw [one_apply_pageOf]
    by_cases hi : offIdx addr = i
    · subst hi
      simp
    · simp [hi, Ne.symm hi]
  · rw [one_apply_ne (Ne.symm hp)]
    simp [hp]

/-- INTERNAL: the counter of an address in a histogram is how often the address occurs, as far
as 64 bits hold it. -/
theorem cnt_hist (ips : List Usize) (addr : Usize) :
    ((hist ips).cnt (pageOf addr) (offIdx addr)).toNat = ips.count addr % 2 ^ 64 := by
  induction ips with
  | nil => simp [hist]
  | cons a ips ih =>
    have hcons : hist (a :: ips) = Tally.one a + hist ips := by simp [hist]
    rw [hcons, Tally.cnt_add, UInt64.toNat_add, ih, Tally.cnt_one, List.count_cons]
    by_cases h : a = addr
    · subst h
      simp [Nat.add_comm]
    · have hne : ¬ (pageOf a = pageOf addr ∧ offIdx a = offIdx addr) :=
        fun e => h (eq_of_pageOf_offIdx e.1 e.2)
      simp [h, hne]

/-- A tally has a page if an address of it was counted. -/
theorem hist_ne_zero_iff (ips : List Usize) (page : Usize) :
    hist ips page ≠ 0 ↔ ∃ a ∈ ips, pageOf a = page := by
  induction ips with
  | nil => simp [hist]
  | cons a ips ih =>
    have hcons : hist (a :: ips) page = Tally.one a page + hist ips page := by simp [hist]
    rw [hcons]
    by_cases hp : pageOf a = page
    · subst hp
      rw [one_apply_pageOf]
      refine iff_of_true ?_ ⟨a, by simp, rfl⟩
      cases hist ips (pageOf a) with
      | zero => simp
      | coe c =>
        rw [← WithZero.coe_add]
        exact WithZero.coe_ne_zero
    · rw [one_apply_ne (Ne.symm hp), zero_add, ih]
      simp [hp]

end PtkGenerator

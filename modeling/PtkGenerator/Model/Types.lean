import Mathlib.Algebra.BigOperators.Fin
import Mathlib.Data.BitVec
import Mathlib.Data.UInt
import PtkGenerator.Library.SumMap

/-!
# Words, pages of counters and maps

The program runs on 64-bit Windows: `usize` and `u64` are `UInt64`, whose `+` wraps as a release
build does.  A `HashMap` is a finite map; the order in which an iteration visits it is not a
property of the map, so a loop over a map takes the order it goes in (`SumMap.Order`).

`InsPage` is the array `[InsInfo; 4096]`, one execution counter for each byte of a page, and
`PageMap` the map `HashMap<usize, [InsInfo; 4096]>` every stage of the program hands on.
`PageMap.read` reads one as a function to summands, which is what the results about merging
are stated with.
-/

set_option autoImplicit false

namespace PtkGenerator

open SumMap

/-- The `usize` of the source, 64 bits wide. -/
abbrev Usize := UInt64

/-- A slice or a `Vec` of bytes. -/
abbrev Bytes := List UInt8

/-- The sixteen bytes of a PSB packet. -/
def psb : Bytes := [0x02, 0x82, 0x02, 0x82, 0x02, 0x82, 0x02, 0x82,
  0x02, 0x82, 0x02, 0x82, 0x02, 0x82, 0x02, 0x82]

/-- A PSB+ with nothing between its PSB and its PSBEND. -/
def psbPlus : Bytes := psb ++ [0x02, 0x23]

/-- The bytes of a page and the members of a pair are written as literals. -/
instance neZero_page : NeZero 4096 := ⟨by decide⟩

/-- Two is not zero; programs with two CPUs are the smallest examples. -/
instance neZero_two : NeZero 2 := ⟨two_ne_zero⟩

/-- `HashMap<K, V>`. -/
abbrev HashMap (K V : Type) := Finmap fun _ : K => V

/-- How a piece of code that works on a shared value ended: at its end, or in a panic that leaves
the value as it was at that moment. -/
inductive Outcome (σ : Type) where
  | done (s : σ)
  | panicked (s : σ)
  deriving DecidableEq

/-- The shared value as it was when the code ended. -/
def Outcome.state {σ : Type} : Outcome σ → σ
  | .done s => s
  | .panicked s => s

/-! ## Splitting an address -/

/-- `addr & !0xfff`, the address of the page. -/
def pageOf (addr : Usize) : Usize := addr &&& ~~~0xfff

/-- `addr & 0xfff`, the offset in the page. -/
def offOf (addr : Usize) : Usize := addr &&& 0xfff

/-- The offset of an address is its remainder in its page. -/
theorem offOf_toNat (addr : Usize) : (offOf addr).toNat = addr.toNat % 4096 := by
  rw [offOf, UInt64.toNat_and]
  exact Nat.and_two_pow_sub_one_eq_mod addr.toNat 12

/-- A number is the sum of its bits inside and outside of a mask. -/
theorem toNat_and_not_add_and (x m : BitVec 64) :
    (x &&& ~~~m).toNat + (x &&& m).toNat = x.toNat := by
  have hdisj : (x &&& ~~~m) &&& (x &&& m) = 0#64 := by
    ext i hi
    simp
    tauto
  rw [← BitVec.toNat_add_of_and_eq_zero hdisj, BitVec.add_eq_or_of_and_eq_zero _ _ hdisj]
  congr 1
  ext i hi
  simp [← Bool.and_or_distrib_left]

/-- An address is its page and its offset. -/
theorem pageOf_add_offOf (addr : Usize) :
    (pageOf addr).toNat + (offOf addr).toNat = addr.toNat :=
  toNat_and_not_add_and addr.toBitVec (0xfff : UInt64).toBitVec

/-- The page of an address starts at a multiple of 4096. -/
theorem pageOf_toNat (addr : Usize) : (pageOf addr).toNat = addr.toNat / 4096 * 4096 := by
  have h := pageOf_add_offOf addr
  rw [offOf_toNat] at h
  omega

/-- A page starts in itself. -/
theorem pageOf_pageOf (addr : Usize) : pageOf (pageOf addr) = pageOf addr := by
  apply UInt64.toNat.inj
  simp only [pageOf_toNat]
  omega

/-- An offset is less than 4096. -/
theorem offOf_lt (addr : Usize) : (offOf addr).toNat < 4096 := by
  rw [offOf_toNat]
  exact Nat.mod_lt _ (by omega)

/-- The offset as an index into a page. -/
def offIdx (addr : Usize) : Fin 4096 := ⟨(offOf addr).toNat, offOf_lt addr⟩

/-- Page and offset determine the address. -/
theorem eq_of_pageOf_offIdx {a b : Usize} (hp : pageOf a = pageOf b) (ho : offIdx a = offIdx b) :
    a = b := by
  have hp' := congrArg UInt64.toNat hp
  have ho' := congrArg Fin.val ho
  simp only [offIdx, pageOf_toNat, offOf_toNat] at hp' ho'
  apply UInt64.toNat.inj
  omega

/-- An offset added to a page stays in the page, at that offset. -/
theorem pageOf_add_offset (a : Usize) (i : Fin 4096) :
    pageOf (pageOf a + UInt64.ofNat i.val) = pageOf a ∧
      offIdx (pageOf a + UInt64.ofNat i.val) = i := by
  have hi := i.isLt
  have ha := a.toNat_lt
  have hsum : (pageOf a + UInt64.ofNat i.val).toNat = a.toNat / 4096 * 4096 + i.val := by
    rw [UInt64.toNat_add, pageOf_toNat, UInt64.toNat_ofNat', Nat.mod_eq_of_lt (a := i.val)]
    · exact Nat.mod_eq_of_lt (by omega)
    · omega
  constructor
  · apply UInt64.toNat.inj
    rw [pageOf_toNat, hsum, pageOf_toNat]
    omega
  · apply Fin.ext
    show (offOf (pageOf a + UInt64.ofNat i.val)).toNat = i.val
    rw [offOf_toNat, hsum]
    omega

/-! ## Pages of counters -/

/-- `InsInfo`: how often the instruction at an address was executed. -/
structure InsInfo where
  execCnt : Usize
  deriving DecidableEq, Inhabited

/-- `[InsInfo; 4096]`. -/
abbrev InsPage := Vector InsInfo 4096

namespace InsPage

/-- `[InsInfo::default(); 4096]`. -/
def zeroed : InsPage := Vector.replicate 4096 ⟨0⟩

/-- `p[i]`. -/
def ins (p : InsPage) (i : Fin 4096) : InsInfo := p[i]

/-- `p[i].exec_cnt += n`. -/
def addAt (p : InsPage) (i : Fin 4096) (n : Usize) : InsPage := p.set i ⟨(p.ins i).execCnt + n⟩

/-- The counters of a page. -/
def cnts (p : InsPage) : Fin 4096 → Usize := fun i => (p.ins i).execCnt

/-- A zeroed page counts nothing. -/
@[simp] theorem cnts_zeroed : cnts zeroed = 0 := by
  funext i
  simp [cnts, ins, zeroed]

/-- An addition to a cell adds to its count and leaves the others. -/
@[simp] theorem cnts_addAt (p : InsPage) (i : Fin 4096) (n : Usize) :
    cnts (p.addAt i n) = cnts p + Pi.single i n := by
  funext j
  by_cases h : j = i
  · subst h
    simp [cnts, ins, addAt]
  · have hv : i.val ≠ j.val := fun e => h (Fin.ext e.symm)
    simp [cnts, ins, addAt, Vector.getElem_set_ne, hv, h]

/-- One addition to a zeroed page is all it counts. -/
theorem execCnt_addAt_zeroed (i j : Fin 4096) (n : Usize) :
    ((zeroed.addAt i n).ins j).execCnt = if j = i then n else 0 := by
  have h := congrFun (cnts_addAt zeroed i n) j
  rw [cnts_zeroed, zero_add, Pi.single_apply] at h
  exact h

/-- The counts determine the page. -/
theorem cnts_injective : Function.Injective cnts := by
  intro p q h
  apply Vector.ext
  intro i hi
  have : p[i].execCnt = q[i].execCnt := congrFun h ⟨i, hi⟩
  cases hp : p[i]
  cases hq : q[i]
  simp_all

/-- The indices `iter().enumerate()` goes through.  Irreducible: nothing is ever to be gained from
unfolding the 4096 of them. -/
@[irreducible] def idxs : List (Fin 4096) := List.finRange 4096

/-- Every index is visited. -/
theorem mem_idxs (i : Fin 4096) : i ∈ idxs := by
  unfold idxs
  exact List.mem_finRange i

/-- The visits of all indices sum up to the sum over all of them. -/
theorem sum_idxs {M : Type*} [AddCommMonoid M] (f : Fin 4096 → M) :
    (idxs.map f).sum = ∑ i, f i := by
  unfold idxs
  rw [← List.ofFn_eq_map, List.sum_ofFn]

/-- Counts are the sum of what is counted at each index. -/
theorem sum_idxs_single (c : Fin 4096 → Usize) : (idxs.map fun i => Pi.single i (c i)).sum = c := by
  rw [sum_idxs, Finset.univ_sum_single]

/-- `for (i, cur) in insn.iter().enumerate() { p[i].exec_cnt += cur.exec_cnt; }`. -/
def addPage (p insn : InsPage) : InsPage :=
  idxs.foldl (fun p i => p.addAt i (insn.ins i).execCnt) p

/-- The merge of two pages adds their counts. -/
@[simp] theorem cnts_addPage (p insn : InsPage) : cnts (p.addPage insn) = cnts p + cnts insn := by
  have h := foldl_sum cnts (fun p i => p.addAt i (insn.ins i).execCnt)
    (fun i => Pi.single i (cnts insn i)) (fun p i => cnts_addAt p i _) p idxs
  rw [addPage, h, sum_idxs_single]

end InsPage

/-! ## Maps of pages -/

/-- `HashMap<usize, [InsInfo; 4096]>`. -/
abbrev PageMap := HashMap Usize InsPage

/-- What maps of pages are summed in: no page, or a page with its counters. -/
abbrev Tally := Usize → WithZero (Fin 4096 → Usize)

namespace PageMap

/-- A map of pages as a function to summands. -/
def read (m : PageMap) : Tally := total InsPage.cnts m

/-- The empty map counts nothing. -/
@[simp] theorem read_empty : read ∅ = 0 := total_empty _

/-- The counts determine the map. -/
theorem read_injective : Function.Injective read := total_injective InsPage.cnts_injective

/-- A page is in the map if it counts there. -/
theorem mem_iff (m : PageMap) (page : Usize) : page ∈ m ↔ read m page ≠ 0 :=
  mem_iff_total_ne_zero InsPage.cnts m page

/-- The merge loop of `collect_all_data` and of `get_result`: the pages of a map, visited in the
order `order`, are added into `rst` or inserted there.
SRC: bin/online_proc.rs:283-291, server_consumer/client_pool.rs:97-105 -/
def merge (rst : PageMap) (order : List (Σ _ : Usize, InsPage)) : PageMap :=
  order.foldl (fun rst e => upsert (fun p => p.addPage e.2) e.2 e.1 rst) rst

/-- INTERNAL: **the merge loop adds the map**, in whatever order it goes. -/
theorem read_merge {m : PageMap} {order : List (Σ _ : Usize, InsPage)} (h : Order m order)
    (rst : PageMap) : (rst.merge order).read = rst.read + m.read := by
  have hstep : ∀ (rst : PageMap) (e : Σ _ : Usize, InsPage),
      read (upsert (fun p => p.addPage e.2) e.2 e.1 rst) = rst.read + single e.1 e.2.cnts :=
    fun rst e => total_upsert (fun old => InsPage.cnts_addPage old e.2) rfl e.1 rst
  rw [merge, foldl_sum read _ _ hstep, sum_order h InsPage.cnts]
  rfl

end PageMap

/-- One occurrence of an address. -/
def Tally.one (addr : Usize) : Tally := single (pageOf addr) (Pi.single (offIdx addr) 1)

/-- The counter a tally has at a page and an offset, zero where it has no page. -/
def Tally.cnt (t : Tally) (page : Usize) (i : Fin 4096) : Usize :=
  match t page with
  | none => 0
  | some c => c i

end PtkGenerator

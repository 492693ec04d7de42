import PtkGenerator.Analysis.OnlineRun
import PtkGenerator.Model.TestDecode

/-!
# How many addresses were executed

`test_decode` prints how many counters of its map are not zero, `online_proc` and `server` how many
entries their report has.  For the same instructions both are the number of different addresses
among them, the second as long as the report has an entry for each.
-/

set_option autoImplicit false

namespace PtkGenerator

open SumMap

variable {data : PageMap} {order : List (Σ _ : Usize, InsPage)} {ips : List Usize}

/-- INTERNAL: the map of `test_decode` is the histogram of its files.
SRC: bin/test_decode.rs:24-30 -/
theorem read_testDecode (decoded : List (List Usize)) :
    (testDecode decoded).read = hist decoded.flatten := by
  have hfold := foldl_sum PageMap.read decodeYield hist read_decodeYield ∅ decoded
  rw [testDecode, hfold, PageMap.read_empty, zero_add, hist_flatten]

/-- The count is the number of visited addresses that were executed. -/
theorem countUnique_eq (order : List (Σ _ : Usize, InsPage)) :
    countUnique order = Int32.ofNat (executed order).length := by
  have hpage : ∀ (page : Usize) (insn : InsPage) (idxs : List (Fin 4096)) (n : ℕ),
      idxs.foldl (fun cnt i => if 0 < (insn.ins i).execCnt then cnt + 1 else cnt) (Int32.ofNat n) =
        Int32.ofNat (n + (idxs.filterMap fun i =>
          if 0 < (insn.ins i).execCnt then some (page + UInt64.ofNat i.val, (insn.ins i).execCnt)
          else none).length) := by
    intro page insn idxs
    induction idxs with
    | nil => exact fun n => rfl
    | cons i idxs ih =>
      intro n
      by_cases hpos : 0 < (insn.ins i).execCnt
      · have hnext : Int32.ofNat n + 1 = Int32.ofNat (n + 1) := (Int32.ofNat_add n 1).symm
        rw [List.foldl_cons, if_pos hpos, hnext, ih, List.filterMap_cons, if_pos hpos,
          List.length_cons]
        congr 1
        omega
      · rw [List.foldl_cons, if_neg hpos, ih, List.filterMap_cons, if_neg hpos]
  have hall : ∀ n : ℕ, order.foldl (fun cnt e => InsPage.idxs.foldl (fun cnt i =>
      if 0 < (e.2.ins i).execCnt then cnt + 1 else cnt) cnt) (Int32.ofNat n) =
        Int32.ofNat (n + (executed order).length) := by
    induction order with
    | nil => exact fun n => rfl
    | cons e order ih =>
      intro n
      have hlen : (executed (e :: order)).length =
          (pageExecuted e.1 e.2).length + (executed order).length := by
        rw [executed, List.flatMap_cons, List.length_append]
        rfl
      rw [List.foldl_cons, hpage e.1 e.2, ih, hlen, ← Nat.add_assoc]
      rfl
  have hzero := hall 0
  rw [Nat.zero_add] at hzero
  exact hzero

/-- INTERNAL: **the visit meets as many addresses as there are among the instructions.** -/
theorem length_executed (hread : data.read = hist ips) (hfit : ∀ addr, ips.count addr < 2 ^ 64)
    (ho : Order data order) : (executed order).length = ips.dedup.length := by
  have ha := aligned_of_read hread
  have hnodup : ((executed order).map Prod.fst).Nodup := by
    rw [List.Nodup, List.pairwise_map]
    exact executed_distinct ha ho
  have hperm : ((executed order).map Prod.fst).Perm ips.dedup := by
    refine (List.perm_ext_iff_of_nodup hnodup ips.nodup_dedup).mpr fun addr => ?_
    have hcnt := cntAt_of_read hread addr
    rw [Nat.mod_eq_of_lt (hfit addr)] at hcnt
    have hmem : addr ∈ ips ↔ 0 < data.cntAt addr := by
      rw [← List.count_pos_iff, ← hcnt]
      exact Iff.rfl
    rw [List.mem_dedup, hmem]
    constructor
    · intro hmem
      obtain ⟨x, hx, rfl⟩ := List.mem_map.mp hmem
      exact ((mem_executed ha ho x).mp hx).1
    · intro hpos
      exact List.mem_map.mpr ⟨(addr, data.cntAt addr), (mem_executed ha ho _).mpr ⟨hpos, rfl⟩, rfl⟩
  rw [← hperm.length_eq, List.length_map]

/-- INTERNAL: the report has an entry for each of them when it conserves the counts. -/
theorem card_keys_writeToFile (ha : data.Aligned) (ho : Order data order)
    (table : List ModuleInfo) :
    (writeToFile table order).keys.card ≤ (executed order).length ∧
      ((writeToFile table order).keys.card = (executed order).length ↔
        Conserves data (writeToFile table order)) := by
  have hlen : (((visited table order).map Located.entry).map Sigma.fst).length =
      (executed order).length := by
    rw [List.length_map, List.length_map, ← map_addr_locate table none (executed order),
      List.length_map]
    rfl
  have hkeys : (writeToFile table order).keys =
      (((visited table order).map Located.entry).map Sigma.fst).toFinset := by
    rw [← Finset.coe_inj, ← setOf_written]
    ext k
    exact Finmap.mem_keys
  rw [hkeys, ← hlen]
  refine ⟨List.toFinset_card_le _, ?_⟩
  constructor
  · intro hcard
    have hnodup : (((visited table order).map Located.entry).map Sigma.fst).Nodup := by
      rw [← Multiset.coe_nodup, ← Multiset.toFinset_card_eq_card_iff_nodup]
      exact hcard
    exact conserves_of_nodupKeys table ha ho hnodup
  · intro hconserves
    exact List.toFinset_card_of_nodup (nodupKeys_of_conserves table ha ho hconserves)

/-- MAIN: **the programs agree on how many addresses were executed.**  For the instructions that
the decode of some files yields, none of them executed 2^64 times: `test_decode` counts the
different addresses among them, as an `i32`.  The report of a map with the same counters has no more
entries, for any table of modules, and as many exactly when it conserves the counts.
SRC: bin/test_decode.rs:24-39, online_proc.rs:243-270, server.rs:285-312 -/
theorem unique_addresses {decoded : List (List Usize)}
    (hfit : ∀ addr, decoded.flatten.count addr < 2 ^ 64) :
    (∀ order, Order (testDecode decoded) order →
      countUnique order = Int32.ofNat decoded.flatten.dedup.length) ∧
    ∀ (data : PageMap) order table, data.read = hist decoded.flatten → Order data order →
      (writeToFile table order).keys.card ≤ decoded.flatten.dedup.length ∧
        ((writeToFile table order).keys.card = decoded.flatten.dedup.length ↔
          Conserves data (writeToFile table order)) := by
  constructor
  · intro order ho
    rw [countUnique_eq, length_executed (read_testDecode decoded) hfit ho]
  · intro data order table hread ho
    rw [← length_executed hread hfit ho]
    exact card_keys_writeToFile (aligned_of_read hread) ho table

/-- Two files with three instructions at two addresses. -/
theorem unique_addresses_two : ∃ order,
    Order (testDecode [[0x401000, 0x401000], [0x401004]]) order ∧ countUnique order = 2 := by
  obtain ⟨order, ho⟩ := order_of_entries (testDecode [[0x401000, 0x401000], [0x401004]])
  have hfit : ∀ addr, ([[0x401000, 0x401000], [0x401004]] : List (List Usize)).flatten.count addr <
      2 ^ 64 := fun addr => List.count_le_length.trans_lt (by decide)
  refine ⟨order, ho, ?_⟩
  rw [(unique_addresses hfit).1 order ho]
  decide

end PtkGenerator

import PtkGenerator.Library.Decimal
import PtkGenerator.Model.Types

/-!
# The report

`write_to_file` goes through the pages of the histogram, looks up the module of each address that
was executed and enters its counter under the name of the module and the offset in it.  The lookup
keeps the module it found last and tries it first.  The text of the two functions in `online_proc`
and `server` is the same.

What becomes of the map is serialization and is not modelled, nor is the table of the modules by
name, which nothing reads here.
-/

set_option autoImplicit false

namespace PtkGenerator

open SumMap

/-- `ModuleInfo`. -/
structure ModuleInfo where
  name : String
  base : UInt64
  size : UInt64
  deriving DecidableEq

/-- `addr >= base && addr <= base + size`.
SRC: native_helper/mod.rs:78-80, 86-88 -/
def ModuleInfo.contains (m : ModuleInfo) (addr : Usize) : Bool :=
  decide (m.base ≤ addr ∧ addr ≤ m.base + m.size)

/-- `Process`. -/
structure Process where
  moduleInfoCache : Option ModuleInfo
  allModuleInfo : List ModuleInfo

/-- `Process::new`, given what `get_module_info` returns.
SRC: native_helper/mod.rs:67-74 -/
def Process.new (allModuleInfo : List ModuleInfo) : Process := ⟨none, allModuleInfo⟩

/-- `query_module_info_by_addr`.
SRC: native_helper/mod.rs:76-94 -/
def Process.queryModuleInfoByAddr (p : Process) (addr : Usize) :
    Except Unit (String × Usize) × Process :=
  match p.moduleInfoCache.filter (·.contains addr) with
  | some m => (.ok (m.name, addr - m.base), p)
  | none =>
    match p.allModuleInfo.find? (·.contains addr) with
    | some m => (.ok (m.name, addr - m.base), { p with moduleInfoCache := some m })
    | none => (.error (), p)

/-- `format!("{} + {}", m.0, m.1)`. -/
def reportKey (m : String × Usize) : String := m.1 ++ " + " ++ Nat.repr m.2.toNat

/-- The variables of `write_to_file`. -/
structure Report where
  p : Process
  dataWt : HashMap String Usize

/-- The body of the inner loop.
SRC: online_proc.rs:258-264, server.rs:300-306 -/
def Report.enter (r : Report) (page : Usize) (insn : InsPage) (i : Fin 4096) : Report :=
  let ins := insn.ins i
  if 0 < ins.execCnt then
    let addr := page + UInt64.ofNat i.val
    let (found, p) := r.p.queryModuleInfoByAddr addr
    let m := match found with
      | .ok m => m
      | .error _ => ("dummy", addr)
    ⟨p, r.dataWt.insert (reportKey m) ins.execCnt⟩
  else r

/-- `write_to_file` up to the map it writes; the histogram is visited in the order `order`.
SRC: online_proc.rs:243-266, server.rs:285-308 -/
def writeToFile (allModuleInfo : List ModuleInfo) (order : List (Σ _ : Usize, InsPage)) :
    HashMap String Usize :=
  let init : Report := ⟨Process.new allModuleInfo, ∅⟩
  (order.foldl (fun r e => InsPage.idxs.foldl (fun r i => Report.enter r e.1 e.2 i) r) init).dataWt

end PtkGenerator

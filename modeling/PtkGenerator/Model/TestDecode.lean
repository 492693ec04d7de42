import PtkGenerator.Model.DecodeProc
import PtkGenerator.Model.Report

/-!
# Decoding collected files

`test_decode` decodes the files of a collection into one map and counts the addresses in it.  What
the decode of each file yields is an argument.
-/

set_option autoImplicit false

namespace PtkGenerator

/-- The map after the decode of all files.
SRC: bin/test_decode.rs:24-30 -/
def testDecode (decoded : List (List Usize)) : PageMap := decoded.foldl decodeYield ∅

/-- `cnt`, an `i32`; the map is visited in the order `order`.
SRC: bin/test_decode.rs:32-39 -/
def countUnique (order : List (Σ _ : Usize, InsPage)) : Int32 :=
  order.foldl (fun cnt e => InsPage.idxs.foldl (fun cnt i =>
    if 0 < (e.2.ins i).execCnt then cnt + 1 else cnt) cnt) 0

end PtkGenerator

import PtkGenerator.Library.Codec
import PtkGenerator.Model.ClientAgent
import PtkGenerator.Model.Connection

/-!
# Messages and their bytes

`PtProcMsgAdapter` turns a message into the payload of a frame and back, both ways through
`postcard`.  What `postcard` writes is known: the index of the variant, then the fields one after
the other; words of a fixed size the lowest byte first, a `Vec` or a `HashMap` as its length and
then its elements.  A map is serialized in the order in which it is visited (`Visit`), and rebuilt
by inserting what is read.

What `postcard` makes of bytes that it has not written is its own affair, so `decode` takes
`from_bytes` as an argument.  `readEncoded` stands for it where a payload is an encoding.
-/

set_option autoImplicit false

namespace PtkGenerator

open Codec SumMap

/-- How a call ended. -/
inductive Returned (α : Type) where
  | returned (a : α)
  | panicked

/-- `postcard::from_bytes` at `PtProcMsg`; `none` is its error.
SRC: msg_adapter.rs:13 -/
abbrev FromBytes := Bytes → Option PtProcMsg

namespace Postcard

/-- The codec of a byte. -/
def u8 : Codec UInt8 := fixed 1 UInt8.toNat UInt8.ofNat UInt8.toNat_lt @UInt8.ofNat_toNat

/-- The codec of a `u16`, two bytes. -/
def u16 : Codec UInt16 := fixed 2 UInt16.toNat UInt16.ofNat UInt16.toNat_lt @UInt16.ofNat_toNat

/-- The codec of a `u32`, four bytes. -/
def u32 : Codec UInt32 := fixed 4 UInt32.toNat UInt32.ofNat UInt32.toNat_lt @UInt32.ofNat_toNat

/-- A `usize` is serialized as a `u64`. -/
def usize : Codec Usize := fixed 8 UInt64.toNat UInt64.ofNat UInt64.toNat_lt @UInt64.ofNat_toNat

/-- `Vec<u8>`. -/
def bytes : Codec Bytes := list u8

/-- `InsInfo`.
SRC: post_proc/mod.rs:6-9 -/
def insInfo : Codec InsInfo := iso usize InsInfo.mk InsInfo.execCnt fun _ => rfl

/-- The entries of a `HashMap<u16, InsInfo>`. -/
def insns : Codec (List (Σ _ : UInt16, InsInfo)) :=
  list (iso (pair u16 insInfo) (fun p => ⟨p.1, p.2⟩) (fun e => (e.1, e.2)) fun _ => rfl)

/-- The entries of a `HashMap<usize, HashMap<u16, InsInfo>>`. -/
def pages : Codec Visit := list (pair usize insns)

/-- The map of the entries that were read, the later one for a key in the place of the earlier. -/
def collect (visit : Visit) : SparseMap :=
  visit.foldl (fun m e => m.insert e.1 (e.2.foldl (fun p c => p.insert c.1 c.2) ∅)) ∅

/-- Reads an encoded message off the front of the bytes. -/
def takeEncoded (data : Bytes) : Option (PtProcMsg × Bytes) :=
  (varint.dec data).bind fun (variant, rest) =>
    match variant with
    | 0 => (u32.dec rest).map fun (id, rest) => (.regReq id, rest)
    | 1 => (u32.dec rest).map fun (id, rest) => (.regRsp id, rest)
    | 2 => (u32.dec rest).map fun (id, rest) => (.unReg id, rest)
    | 3 => some (.init, rest)
    | 4 => (bytes.dec rest).map fun (data, rest) => (.dataReq data, rest)
    | 5 => (pages.dec rest).map fun (visit, rest) => (.dataRsp (collect visit), rest)
    | 6 => ((pair usize usize).dec rest).map fun (r, rest) => (.memReq r.1 r.2, rest)
    | 7 => ((pair usize bytes).dec rest).map fun (r, rest) => (.memRsp r.1 r.2, rest)
    | _ => none

/-- What `from_bytes` reads from an encoding. -/
def readEncoded (data : Bytes) : Option PtProcMsg := (takeEncoded data).map Prod.fst

/-- `postcard::to_stdvec`; `visit` is how the maps of a `DataRsp` are visited. -/
def toStdvec (msg : PtProcMsg) (visit : Visit) : Bytes :=
  match msg with
  | .regReq id => varint.enc 0 ++ u32.enc id
  | .regRsp id => varint.enc 1 ++ u32.enc id
  | .unReg id => varint.enc 2 ++ u32.enc id
  | .init => varint.enc 3
  | .dataReq data => varint.enc 4 ++ bytes.enc data
  | .dataRsp _ => varint.enc 5 ++ pages.enc visit
  | .memReq addr len => varint.enc 6 ++ (pair usize usize).enc (addr, len)
  | .memRsp addr data => varint.enc 7 ++ (pair usize bytes).enc (addr, data)

end Postcard

/-- `visit` goes through the maps of the message; one without maps has none to go through. -/
def PtProcMsg.Visited : PtProcMsg → Visit → Prop
  | .dataRsp data, visit => Visits data visit
  | _, visit => visit = []

namespace PtProcMsgAdapter

/-- `decode`.
SRC: msg_adapter.rs:12-15 -/
def decode (fromBytes : FromBytes) (data : Bytes) : Returned (Except Unit PtProcMsg) :=
  -- `unwrap` of what `from_bytes` returns
  match fromBytes data with
  | some r => .returned (.ok r)
  | none => .panicked

/-- `encode`; a payload of more than 7 MiB is reported and sent all the same.
SRC: msg_adapter.rs:16-22 -/
def encode (data : PtProcMsg) (visit : Visit) : Returned (Except Unit Bytes) :=
  .returned (.ok (Postcard.toStdvec data visit))

end PtProcMsgAdapter

end PtkGenerator

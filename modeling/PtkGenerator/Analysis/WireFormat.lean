import PtkGenerator.Model.MsgAdapter

/-!
# The wire format loses nothing

Every part of a message is self-delimiting, so a message is read back off the front of its bytes,
whatever lies behind them.  What is read back of a map is the order in which it was visited; its
entries make up the map again, and so the order drops out.
-/

set_option autoImplicit false

namespace PtkGenerator

open Codec SumMap

namespace Postcard

/-- INTERNAL: **the entries of a visit make up the message again.** -/
theorem collect_of_visits {data : SparseMap} {visit : Visit} (h : Visits data visit) :
    collect visit = data := by
  obtain ⟨order, ho, hv⟩ := h
  have hfold : ∀ m : SparseMap,
      visit.foldl (fun m e => m.insert e.1 (e.2.foldl (fun p c => p.insert c.1 c.2) ∅)) m =
        order.foldl (fun m e => m.insert e.1 e.2) m := by
    clear ho
    induction hv with
    | nil => exact fun _ => rfl
    | @cons e v order visit hev _ ih =>
      intro m
      rw [List.foldl_cons, List.foldl_cons, hev.1, foldl_insert_of_order hev.2]
      exact ih _
  rw [collect, hfold, foldl_insert_of_order ho]

/-- INTERNAL: a message is read off the front of its bytes, by one case for each variant. -/
theorem takeEncoded_toStdvec {msg : PtProcMsg} {visit : Visit} (h : msg.Visited visit)
    (rest : Bytes) : takeEncoded (toStdvec msg visit ++ rest) = some (msg, rest) := by
  cases msg with
  | regReq id => simp [takeEncoded, toStdvec, List.append_assoc, Codec.dec_enc]
  | regRsp id => simp [takeEncoded, toStdvec, List.append_assoc, Codec.dec_enc]
  | unReg id => simp [takeEncoded, toStdvec, List.append_assoc, Codec.dec_enc]
  | init => simp [takeEncoded, toStdvec, Codec.dec_enc]
  | dataReq data => simp [takeEncoded, toStdvec, List.append_assoc, Codec.dec_enc]
  | dataRsp data =>
    have hdata : collect visit = data := collect_of_visits h
    simp [takeEncoded, toStdvec, List.append_assoc, Codec.dec_enc, hdata]
  | memReq addr len => simp [takeEncoded, toStdvec, List.append_assoc, Codec.dec_enc]
  | memRsp addr data => simp [takeEncoded, toStdvec, List.append_assoc, Codec.dec_enc]

/-- An encoding is read back as its message. -/
theorem readEncoded_toStdvec {msg : PtProcMsg} {visit : Visit} (h : msg.Visited visit) :
    readEncoded (toStdvec msg visit) = some msg := by
  have htake := takeEncoded_toStdvec h []
  rw [List.append_nil] at htake
  rw [readEncoded, htake, Option.map_some]

end Postcard

namespace PtProcMsgAdapter

/-- The adapter decodes what it has encoded. -/
theorem decode_toStdvec {msg : PtProcMsg} {visit : Visit} (h : msg.Visited visit) :
    decode Postcard.readEncoded (Postcard.toStdvec msg visit) = .returned (.ok msg) := by
  rw [decode, Postcard.readEncoded_toStdvec h]

end PtProcMsgAdapter

open PtProcMsgAdapter in
/-- MAIN: **the wire round trip.**  Whatever the order in which the maps of a message are visited,
`encode` returns bytes that `decode` turns into the message again, and no other message has these
bytes, in whatever order its maps are visited.
SRC: msg_adapter.rs:12-22, interface.rs:7-21 -/
theorem wire_round_trip {msg : PtProcMsg} {visit : Visit} (h : msg.Visited visit) :
    (∃ data, encode msg visit = .returned (.ok data) ∧
      decode Postcard.readEncoded data = .returned (.ok msg)) ∧
    ∀ msg' visit', msg'.Visited visit' → encode msg' visit' = encode msg visit → msg' = msg := by
  constructor
  · exact ⟨Postcard.toStdvec msg visit, rfl, decode_toStdvec h⟩
  · intro msg' visit' h' heq
    have hbytes : Postcard.toStdvec msg' visit' = Postcard.toStdvec msg visit :=
      Except.ok.inj (Returned.returned.inj heq)
    have hmsg := Postcard.readEncoded_toStdvec h'
    rw [hbytes, Postcard.readEncoded_toStdvec h, Option.some.injEq] at hmsg
    exact hmsg.symm

/-- The result of one page with one instruction. -/
def oneInstruction : SparseMap := Finmap.singleton 0x400100 (Finmap.singleton 8 ⟨10⟩)

open PtProcMsgAdapter in
/-- A message with one instruction comes back. -/
theorem wire_round_trip_dataRsp :
    ∃ data, encode (.dataRsp oneInstruction) [(0x400100, [⟨8, ⟨10⟩⟩])] = .returned (.ok data) ∧
      decode Postcard.readEncoded data = .returned (.ok (.dataRsp oneInstruction)) := by
  have hvisited : (PtProcMsg.dataRsp oneInstruction).Visited [(0x400100, [⟨8, ⟨10⟩⟩])] :=
    ⟨[⟨0x400100, Finmap.singleton 8 ⟨10⟩⟩], rfl, .cons ⟨rfl, rfl⟩ .nil⟩
  exact (wire_round_trip hvisited).1

example : Postcard.toStdvec (.memReq 1 10) [] =
    [6, 1, 0, 0, 0, 0, 0, 0, 0, 10, 0, 0, 0, 0, 0, 0, 0] := by decide

end PtkGenerator

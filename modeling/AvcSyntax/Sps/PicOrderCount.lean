import AvcSyntax.Bits.ExpGolomb

/-!
# How the output order of pictures is coded

Type 0 sends the low bits of each picture's count, type 1 sends differences from a cycle of
expected counts, and type 2 takes decoding order.
-/
namespace AvcSyntax

structure OrderCycle where
  deltaAlwaysZero : Bool := false
  offsetForNonRefPic : Int64 := 0
  offsetForTopToBottomField : Int64 := 0
  offsetsForRefFrames : List Int64 := []
  deriving DecidableEq, Repr

namespace OrderCycle

def parse : Parse OrderCycle := do
  let deltaAlwaysZero ← Parse.flag
  let offsetForNonRefPic ← Parse.se
  let offsetForTopToBottomField ← Parse.se
  let count ← Parse.ueUpTo "num_ref_frames_in_pic_order_cnt_cycle" 255
  let offsetsForRefFrames ← Parse.times count (Int64.ofInt <$> Parse.se)
  return {
    deltaAlwaysZero
    offsetForNonRefPic := .ofInt offsetForNonRefPic
    offsetForTopToBottomField := .ofInt offsetForTopToBottomField
    offsetsForRefFrames }

def code (c : OrderCycle) : Code :=
  .inRange "self.offset_for_ref_frame.len()" 0 255 c.offsetsForRefFrames.length ++
  .flag c.deltaAlwaysZero ++
  .se c.offsetForNonRefPic.toInt ++
  .se c.offsetForTopToBottomField.toInt ++
  .ue c.offsetsForRefFrames.length ++
  .concat (c.offsetsForRefFrames.map fun offset => .se offset.toInt)

end OrderCycle

inductive PicOrderCount where
  | lowBits (log2MaxLsbMinus4 : UInt8)
  | cycle (cycle : OrderCycle)
  | decodingOrder
  deriving DecidableEq, Repr

namespace PicOrderCount

instance : Inhabited PicOrderCount := ⟨lowBits 0⟩

def type : PicOrderCount → Nat
  | lowBits _ => 0
  | cycle _ => 1
  | decodingOrder => 2

def parse : Parse PicOrderCount := do
  match ← Parse.ueUpTo "pic_order_cnt_type" 2 with
  | 0 => do
    let log2 ← Parse.ueUpTo "log2_max_pic_order_cnt_lsb_minus4" 12
    return lowBits log2.toUInt8
  | 1 => return cycle (← OrderCycle.parse)
  | _ => return decodingOrder

def code (p : PicOrderCount) : Code :=
  .ue p.type ++
  match p with
  | lowBits log2 => .ue log2.toNat
  | cycle c => c.code
  | decodingOrder => .empty

end PicOrderCount

end AvcSyntax

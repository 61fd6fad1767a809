import AvcSyntax.Slice.OperationList

/-!
# Marking of reference pictures

After a reference picture has been decoded, earlier ones may stop being references. A picture
that refreshes the decoder has two flags for that, any other either follows the sliding window
or lists operations.
-/
namespace AvcSyntax

inductive MarkingOperation where
  | shortTermUnused (differenceOfPicNumsMinus1 : UInt32)
  | longTermUnused (longTermPicNum : UInt32)
  | shortTermToLongTerm (differenceOfPicNumsMinus1 longTermFrameIdx : UInt32)
  | maxLongTermFrameIdx (plus1 : UInt32)
  | allUnused
  | currentToLongTerm (longTermFrameIdx : UInt32)
  deriving DecidableEq, Repr

namespace MarkingOperation

def listName : String := "dec_ref_pic_marking"

def number : MarkingOperation → Nat
  | shortTermUnused _ => 1
  | longTermUnused _ => 2
  | shortTermToLongTerm _ _ => 3
  | maxLongTermFrameIdx _ => 4
  | allUnused => 5
  | currentToLongTerm _ => 6

def endMark : Nat := 0

def operands : MarkingOperation → List UInt32
  | shortTermUnused n | longTermUnused n | maxLongTermFrameIdx n | currentToLongTerm n => [n]
  | shortTermToLongTerm n idx => [n, idx]
  | allUnused => []

/-- Reads an operation, or nothing at the end mark. -/
def parse? : Parse (Option MarkingOperation) := do
  match ← Parse.ueInList listName with
  | 0 => return none
  | 1 => return some (shortTermUnused (← Parse.operand listName))
  | 2 => return some (longTermUnused (← Parse.operand listName))
  | 3 => do
    let n ← Parse.operand listName
    let idx ← Parse.operand listName
    return some (shortTermToLongTerm n idx)
  | 4 => return some (maxLongTermFrameIdx (← Parse.operand listName))
  | 5 => return some allUnused
  | 6 => return some (currentToLongTerm (← Parse.operand listName))
  | op => throw (.outOfRange "memory_management_control_operation" 0 6 op)

def code (op : MarkingOperation) : Code :=
  .ue op.number ++ .concat (op.operands.map fun n => .ue n.toNat)

end MarkingOperation

inductive RefPicMarking where
  | idr (noOutputOfPriorPics longTermReference : Bool)
  | slidingWindow
  | adaptive (ops : List MarkingOperation)
  deriving DecidableEq, Repr

namespace RefPicMarking

/-- The marking that changes least. -/
def defaultFor (isIdr : Bool) : RefPicMarking := if isIdr then idr false false else slidingWindow

def parse (isIdr : Bool) : Parse RefPicMarking := do
  if isIdr then
    let noOutput ← Parse.flag
    let longTerm ← Parse.flag
    return idr noOutput longTerm
  else if ← Parse.flag then
    return adaptive (← Parse.operations MarkingOperation.listName MarkingOperation.parse?
      maxOperations)
  else return slidingWindow

def code (m : RefPicMarking) (isIdr : Bool) : Code :=
  match m, isIdr with
  | idr noOutput longTerm, true => .flag noOutput ++ .flag longTerm
  | slidingWindow, false => .flag false
  | adaptive ops, false =>
    .inRange "ops.len()" 0 maxOperations ops.length ++
    .flag true ++
    .concat (ops.map MarkingOperation.code) ++
    .ue MarkingOperation.endMark
  | _, _ => .fail (.markingMismatch isIdr)

end RefPicMarking

end AvcSyntax

import AvcSyntax.Slice.OperationList
import AvcSyntax.Slice.SliceType

/-!
# Changes to the lists of reference pictures

A slice may change the initial order of its reference pictures. Slices of type B have two lists,
other predicted slices one, and intra slices none.
-/
namespace AvcSyntax

inductive RefListOperation where
  | shortTermSubtract (absDiffPicNumMinus1 : UInt32)
  | shortTermAdd (absDiffPicNumMinus1 : UInt32)
  | longTerm (longTermPicNum : UInt32)
  deriving DecidableEq, Repr

namespace RefListOperation

def listName : String := "ref_pic_list_modification"

def endMark : Nat := 3

/-- Reads an operation, or nothing at the end mark. -/
def parse? : Parse (Option RefListOperation) := do
  match ← Parse.ueInList listName with
  | 0 => return some (shortTermSubtract (← Parse.operand listName))
  | 1 => return some (shortTermAdd (← Parse.operand listName))
  | 2 => return some (longTerm (← Parse.operand listName))
  | 3 => return none
  | idc => throw (.outOfRange "modification_of_pic_nums_idc" 0 3 idc)

def code : RefListOperation → Code
  | shortTermSubtract n => .ue 0 ++ .ue n.toNat
  | shortTermAdd n => .ue 1 ++ .ue n.toNat
  | longTerm n => .ue 2 ++ .ue n.toNat

/-- Reads the changes to one list, if there are any. -/
def parseList : Parse (Option (List RefListOperation)) :=
  Parse.optional (Parse.operations listName parse? maxOperations)

def listCode : Option (List RefListOperation) → Code :=
  Code.optional fun ops =>
    .inRange "ops.len()" 0 maxOperations ops.length ++ .concat (ops.map code) ++ .ue endMark

end RefListOperation

structure RefListModification where
  l0 : Option (List RefListOperation) := none
  l1 : Option (List RefListOperation) := none
  deriving DecidableEq, Repr

namespace RefListModification

def parse (type : SliceType) : Parse RefListModification := do
  let l0 ← if type.isIntra then pure none else RefListOperation.parseList
  let l1 ← if type = .b then RefListOperation.parseList else pure none
  return { l0, l1 }

def code (m : RefListModification) (type : SliceType) : Code :=
  .onlyIf (!type.isIntra) (RefListOperation.listCode m.l0) ++
  .onlyIf (type = .b) (RefListOperation.listCode m.l1)

end RefListModification

end AvcSyntax

import AvcSyntax.Bits.ExpGolomb

/-!
# Lists of operations with an end mark

Two parts of a slice header are lists of operations that end with a mark. Such a list may hold
64 operations. Data that end inside a list are not reported as missing: the list has no end.
-/
namespace AvcSyntax

/-- The largest number of operations of a list. -/
def maxOperations : Nat := 64

def Parse.ueInList (list : String) : Parse Nat :=
  Parse.mapFault (fun fault => if fault.kind = .endOfData then .unterminated list else fault)
    Parse.ue

def Parse.operand (list : String) : Parse UInt32 := do
  let n ← Parse.ueInList list
  Parse.inRange "operand" 0 0xffffffff n
  return n.toUInt32

/-- Reads operations up to the end mark, for which `next` gives nothing; `room` is how many may
still come. -/
def Parse.operations {α : Type} (list : String) (next : Parse (Option α)) :
    (room : Nat) → Parse (List α)
  | 0 => do
    match ← next with
    | none => return []
    | some _ => throw (.tooManyOperations list maxOperations)
  | room + 1 => do
    match ← next with
    | none => return []
    | some op => return op :: (← Parse.operations list next room)

end AvcSyntax

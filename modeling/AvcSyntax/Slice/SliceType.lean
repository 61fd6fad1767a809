import AvcSyntax.Arithmetic

/-!
# Types of slices

A slice is predicted from one or two lists of reference pictures or not at all. Its type is coded
as a number up to 9, where 5 is added if all slices of the picture have the same type.
-/
namespace AvcSyntax

inductive SliceType where
  | p
  | b
  | i
  | sp
  | si
  deriving DecidableEq, Repr

namespace SliceType

/-- The type with a number, and whether all slices of the picture have it. -/
def ofCode (code : Nat) : Except Fault (SliceType × Bool) :=
  match rangeFault? "slice_type" 0 9 code with
  | some fault => .error fault
  | none =>
    let type := match code % 5 with
      | 0 => p
      | 1 => b
      | 2 => i
      | 3 => sp
      | _ => si
    .ok (type, 5 ≤ code)

/-- The number of a type whose slices may be mixed with others. -/
def mixedCode : SliceType → Nat
  | p => 0
  | b => 1
  | i => 2
  | sp => 3
  | si => 4

def toCode (t : SliceType) (allSlices : Bool) : Except Fault Nat :=
  if allSlices then natWord 64 (t.mixedCode + 5) else .ok t.mixedCode

/-- Whether slices of the type use no other pictures. -/
def isIntra (t : SliceType) : Bool := t == i || t == si

/-- Whether slices of the type are written for switching between streams. -/
def isSwitching (t : SliceType) : Bool := t == sp || t == si

end SliceType

end AvcSyntax

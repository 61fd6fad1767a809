import AvcSyntax.Bits.Code
import AvcSyntax.Nal.Error

/-!
# Headers of NAL units

The first byte of a NAL unit holds a zero bit, two bits that say how much the unit is used for
reference, and the type of the unit. `NalHeader.validate` holds the rules on types and
reference use; a header can also be read without them.
-/
namespace AvcSyntax

structure NalHeader where
  refIdc : UInt8 := 0
  unitType : UnitType := .unspecified 0
  deriving DecidableEq, Repr

namespace NalHeader

/-- The level of reference use of a unit that nothing refers to. -/
def disposable : UInt8 := 0
def lowImportance : UInt8 := 1
def highImportance : UInt8 := 2
def highestImportance : UInt8 := 3

def parse : Decode NalHeader := do
  if ← Parse.flag then throw .forbiddenZeroBit
  let refIdc ← Parse.u 2
  let unitType ← Parse.u 5
  return { refIdc := refIdc.toUInt8, unitType := .ofCode unitType.toUInt8 }

def code (h : NalHeader) : Code :=
  .inRange "nal_ref_idc" 0 3 h.refIdc.toNat ++
  .flag false ++
  .u 2 h.refIdc.toNat ++
  .u 5 h.unitType.code.toNat

/-- The first rule that a header breaks. -/
def brokenRule? (h : NalHeader) : Option HeaderRule :=
  let code := h.unitType.code
  if code = 0 then some .typeZero
  else if 16 ≤ code ∧ code ≤ 18 then some .typeReserved
  else if 21 ≤ code then some .typeReservedOrUnspecified
  else if h.unitType.isIdr ∧ h.refIdc = 0 then some .idrIsReference
  else if h.unitType.requiresZeroRefIdc ∧ h.refIdc ≠ 0 then some .neverReference
  else none

def validate (h : NalHeader) : Except NalError Unit :=
  match h.brokenRule? with
  | some rule => .error (.invalidHeader rule)
  | none => .ok ()

/-- The header of a NAL unit, if it keeps all rules. -/
def peek (unit : List UInt8) : Except NalError NalHeader :=
  match parse { data := unit.toArray } with
  | .ok h _ => h.validate.map fun _ => h
  | .error e _ => .error e

end NalHeader

end AvcSyntax

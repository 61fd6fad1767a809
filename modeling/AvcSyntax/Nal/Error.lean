import AvcSyntax.Bits.Reader
import AvcSyntax.Bits.Writer
import AvcSyntax.Nal.UnitType

/-!
# Errors of whole NAL units

A `NalError` says why a NAL unit, or a stream of them, could not be read or written. A fault of
a single field becomes `overrun` when data or room ran out, and otherwise keeps its wording
behind a common opening; an overflow stays one.

`Decode` and `Encode` actions work on the same cursors as `Parse` and `Build` ones but fail with
a `NalError`; a `Parse` or `Build` action may stand where they are expected.
-/
namespace AvcSyntax

inductive HeaderRule where
  | typeZero
  | typeReserved
  | typeReservedOrUnspecified
  | idrIsReference
  | neverReference
  | typeMatchesPayload
  deriving DecidableEq, Repr

def HeaderRule.message : HeaderRule → String
  | typeZero => "nal_unit_type 0 is unspecified"
  | typeReserved => "nal_unit_type is reserved"
  | typeReservedOrUnspecified => "nal_unit_type is reserved or unspecified"
  | idrIsReference => "nal_ref_idc must not be 0 for an IDR slice"
  | neverReference => "nal_ref_idc must be 0 for this nal_unit_type"
  | typeMatchesPayload => "nal_unit_type does not match the payload"

inductive NalError where
  /-- The output has no room; `available` is its size. -/
  | bufferTooSmall (available : Nat)
  /-- The bytes that follow two zero bytes are not allowed there. -/
  | illegalEscape (offset : Nat)
  /-- No start code follows the unit. -/
  | notTerminated (start : Nat)
  | unsupportedType (found : UnitType)
  | forbiddenZeroBit
  | invalidHeader (rule : HeaderRule)
  | missingPps (id : Nat)
  | missingSps (id : Nat)
  /-- Data or room ran out inside a field. -/
  | overrun
  /-- A field has a value that is not allowed. -/
  | field (fault : Fault)
  /-- Slice data that is not entropy coded arithmetically stays at its bit offset. -/
  | sliceDataMoved (old new : Nat)
  /-- A unit is not the sequence parameter set that it has to be. -/
  | spsExpected (found : UnitType)
  /-- A number that is computed does not fit its word. -/
  | overflow
  deriving DecidableEq, Repr

namespace NalError

def message : NalError → String
  | bufferTooSmall available => s!"output buffer too small ({available} bytes available)"
  | illegalEscape offset => s!"illegal emulation prevention sequence at offset {offset}"
  | notTerminated start =>
      s!"NAL unit starting at offset {start} is not terminated by a start code"
  | unsupportedType found => "unsupported nal_unit_type: " ++ found.name
  | forbiddenZeroBit => "forbidden_zero_bit is set"
  | invalidHeader rule => "invalid NAL unit header: " ++ rule.message
  | missingPps id => s!"picture parameter set {id} is not available"
  | missingSps id => s!"sequence parameter set {id} is not available"
  | overrun => "bitstream overrun"
  | field fault => "invalid data: " ++ fault.message
  | sliceDataMoved old new =>
      s!"invalid data: CAVLC slice data cannot be moved from bit offset {old} to {new}"
  | spsExpected found =>
      "invalid data: expected a sequence parameter set, found " ++ found.name
  | overflow => Fault.overflow.message

/-- How a fault of a single field is reported for its unit. -/
def ofFault (fault : Fault) : NalError :=
  match fault.kind with
  | .endOfData | .bufferFull => overrun
  | .invalidValue => field fault
  | .overflow => overflow

end NalError

/-- An action that reads a part of a NAL unit. -/
abbrev Decode := EStateM NalError Reader

/-- An action that writes a part of a NAL unit. -/
abbrev Encode := EStateM NalError Writer

/-- Runs an action whose faults are reported for the whole unit. -/
def reportFaults {σ α : Type} (p : EStateM Fault σ α) : EStateM NalError σ α := fun s =>
  match p s with
  | .ok a s => .ok a s
  | .error fault s => .error (.ofFault fault) s

instance : MonadLift (EStateM Fault Reader) (EStateM NalError Reader) := ⟨reportFaults⟩

instance : MonadLift (EStateM Fault Writer) (EStateM NalError Writer) := ⟨reportFaults⟩

end AvcSyntax

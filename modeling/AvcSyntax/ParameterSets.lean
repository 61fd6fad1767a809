import AvcSyntax.Nal.Error
import AvcSyntax.Pps.Basic
import AvcSyntax.Sps.Dimensions

/-!
# The parameter sets known to a stream

A picture parameter set names a sequence parameter set, and slices name a picture parameter set.
A later set takes the place of an earlier one with the same number. Two collections that give
the same sets for all numbers are equal.
-/
namespace AvcSyntax

structure ParameterSets where
  sps : UInt8 → Option Sps := fun _ => none
  pps : UInt8 → Option Pps := fun _ => none

namespace ParameterSets

def empty : ParameterSets := {}

/-- Stores a sequence parameter set, whose number has to be at most 31. -/
def insertSps (sets : ParameterSets) (s : Sps) : Except NalError ParameterSets :=
  match rangeFault? "seq_parameter_set_id" 0 31 s.id.toNat with
  | some fault => .error (.field fault)
  | none => .ok { sets with sps := fun id => if id = s.id then some s else sets.sps id }

def insertPps (sets : ParameterSets) (p : Pps) : ParameterSets :=
  { sets with pps := fun id => if id = p.id then some p else sets.pps id }

/-- All numbers that a parameter set can have. -/
def allIds : List UInt8 := (List.range 256).map Nat.toUInt8

/-- The numbers of the sequence parameter sets in ascending order. -/
def spsIds (sets : ParameterSets) : List UInt8 := allIds.filter fun id => (sets.sps id).isSome

/-- The numbers of the picture parameter sets in ascending order. -/
def ppsIds (sets : ParameterSets) : List UInt8 := allIds.filter fun id => (sets.pps id).isSome

/-- The picture parameter set with a number and the sequence parameter set that it names. -/
def resolve (sets : ParameterSets) (ppsId : UInt8) : Except NalError (Pps × Sps) :=
  match sets.pps ppsId with
  | none => .error (.missingPps ppsId.toNat)
  | some p =>
    match sets.sps p.spsId with
    | none => .error (.missingSps p.spsId.toNat)
    | some s => .ok (p, s)

/-- The chroma format of a sequence, 1 if the sequence is not known. -/
def chromaFormatIdc (sets : ParameterSets) (spsId : UInt8) : UInt8 :=
  match sets.sps spsId with
  | some s => s.chromaFormatIdc
  | none => 1

end ParameterSets

end AvcSyntax

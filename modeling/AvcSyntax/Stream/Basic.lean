import AvcSyntax.Nal.ByteStream
import AvcSyntax.Stream.NalUnit

/-!
# Streams of NAL units

A stream keeps the parameter sets that its units bring along. A unit that cannot be read brings
none. A `Session` action reads units in order; it keeps the stream also when it fails.
-/
namespace AvcSyntax

structure Stream where
  config : StreamConfig := {}
  parameterSets : ParameterSets := {}

/-- An action on a stream that may fail. -/
abbrev Session := EStateM NalError Stream

namespace Stream

def storeSps (s : Sps) : Session Unit := do
  let sets ← (← get).parameterSets.insertSps s
  modify fun stream => { stream with parameterSets := sets }

def storePps (p : Pps) : Session Unit :=
  modify fun stream => { stream with parameterSets := stream.parameterSets.insertPps p }

/-- Reads a unit and stores the parameter set that it may hold. -/
def readUnit (bytes : List UInt8) : Session NalUnit := do
  let stream ← get
  let u ← NalUnit.decode stream.config stream.parameterSets bytes
  match u.payload with
  | .sps s => storeSps s
  | .pps p => storePps p
  | _ => pure ()
  return u

/-- Reads units in order up to the first that cannot be read. -/
def readUnits : List (List UInt8) → Session (List NalUnit)
  | [] => return []
  | bytes :: rest => do
    let u ← readUnit bytes
    return u :: (← readUnits rest)

def readByteStream (bytes : List UInt8) : Session (List NalUnit) := readUnits (unitsOf bytes)

/-- The bytes of a unit under the parameter sets of a stream. -/
def writeUnit (s : Stream) (u : NalUnit) : Except NalError (List UInt8) :=
  u.encode s.config s.parameterSets

/-- Writes a unit to an output under the parameter sets of a stream. -/
def writeUnitInto (s : Stream) (u : NalUnit) (o : Output) : Except NalError Output :=
  u.encodeInto s.config s.parameterSets o

end Stream

end AvcSyntax

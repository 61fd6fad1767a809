import AvcSyntax.AccessUnitDelimiter
import AvcSyntax.Nal.Escaping
import AvcSyntax.Nal.Header
import AvcSyntax.Pps.Coding
import AvcSyntax.Sei
import AvcSyntax.Slice.Layer
import AvcSyntax.Stream.Config

/-!
# NAL units

A NAL unit is a header and a payload of the type that the header gives. `NalUnit.decode` reads
one from its bytes and `NalUnit.encode` writes one, both under the parameter sets known so far.
-/
namespace AvcSyntax

inductive NalPayload where
  | slice (layer : SliceLayer)
  | sei (messages : List SeiMessage)
  | sps (sps : Sps)
  | pps (pps : Pps)
  | accessUnitDelimiter (delimiter : AccessUnitDelimiter)
  | endOfSequence
  | endOfStream
  deriving DecidableEq, Repr

/-- A NAL unit. Nothing ties the payload to the type in the header until it is written. -/
structure NalUnit where
  header : NalHeader
  payload : NalPayload
  deriving DecidableEq, Repr

namespace NalPayload

/-- Whether units of a type hold such a payload. -/
def fits (p : NalPayload) (t : UnitType) : Bool :=
  match p with
  | slice _ => t.isSlice
  | sei _ => t == .sei
  | sps _ => t == .sps
  | pps _ => t == .pps
  | accessUnitDelimiter _ => t == .accessUnitDelimiter
  | endOfSequence => t == .endOfSequence
  | endOfStream => t == .endOfStream

/-- Reads the end of a payload. Some units lack it, which only a strict reader minds. -/
def parseEnd (strict : Bool) : Decode Unit := do
  if (← get).atEnd && !strict then return ()
  else Parse.trailingBits strict

def parse (strict : Bool) (sets : ParameterSets) (header : NalHeader) : Decode NalPayload := do
  match header.unitType with
  | .nonIdrSlice | .idrSlice | .auxiliarySlice =>
    return slice (← SliceLayer.parse header sets strict)
  | .sei => do
    let messages ← SeiMessage.parseAll
    parseEnd strict
    return sei messages
  | .sps => do
    let s ← Sps.parse
    parseEnd strict
    return sps s
  | .pps => do
    let p ← Pps.parse sets
    parseEnd strict
    return pps p
  | .accessUnitDelimiter => do
    let d ← AccessUnitDelimiter.parse
    parseEnd strict
    return accessUnitDelimiter d
  | .endOfSequence => return endOfSequence
  | .endOfStream => return endOfStream
  | other => throw (.unsupportedType other)

def build (sets : ParameterSets) (header : NalHeader) : NalPayload → Encode Unit
  | slice layer => layer.build header sets
  | sei messages => do
    (Code.concat (messages.map SeiMessage.code)).write
    Build.trailingBits
  | sps s => do
    s.code.write
    Build.trailingBits
  | pps p => do
    (p.code sets).write
    Build.trailingBits
  | accessUnitDelimiter d => do
    d.code.write
    Build.trailingBits
  | endOfSequence | endOfStream => return ()

/-- The number of bytes to set aside for the parts of a payload whose length has no bound. -/
def unboundedSize : NalPayload → Nat
  | slice layer =>
    match layer.data with
    | some data => data.bytes.length
    | none => 0
  | sei messages => (messages.map SeiMessage.size).foldr (· + ·) 0
  | pps p =>
    match p.sliceGroups with
    | some groups => groups.explicitMapSize
    | none => 0
  | _ => 0

end NalPayload

namespace NalUnit

/-- The number of bytes to set aside for all other parts of a unit. -/
def boundedSize : Nat := 16 * 1024

/-- Reads a unit from its bytes without the escapes. -/
def parse (config : StreamConfig) (sets : ParameterSets) : Decode NalUnit := do
  let header ← NalHeader.parse
  if config.strictHeader then header.validate
  let payload ← NalPayload.parse config.strictTrailingBits sets header
  if (← get).overrun then throw .overrun
  return { header, payload }

def decode (config : StreamConfig) (sets : ParameterSets) (bytes : List UInt8) :
    Except NalError NalUnit := do
  let plain ← unescape bytes
  let trace := if config.traceBits then some #[] else none
  match parse config sets { data := plain.toArray, trace } with
  | .ok unit _ => return unit
  | .error e _ => throw e

/-- Writes a unit without the escapes and gives the number of bytes. -/
def build (sets : ParameterSets) (u : NalUnit) : Encode Nat := do
  u.header.code.write
  u.payload.build sets u.header
  if (← get).overrun then throw .overrun
  Build.finish

/-- The bytes of a unit without the escapes. -/
def encodePlain (config : StreamConfig) (sets : ParameterSets) (u : NalUnit) :
    Except NalError (List UInt8) := do
  if !u.payload.fits u.header.unitType then throw (.invalidHeader .typeMatchesPayload)
  let w := Writer.zeroed (boundedSize + u.payload.unboundedSize)
  let trace := if config.traceBits then some #[] else none
  match u.build sets { w with trace } with
  | .ok size w => return (w.data.extract 0 size).toList
  | .error e _ => throw e

def encode (config : StreamConfig) (sets : ParameterSets) (u : NalUnit) :
    Except NalError (List UInt8) := do
  escape (← u.encodePlain config sets)

def encodeInto (config : StreamConfig) (sets : ParameterSets) (u : NalUnit) (o : Output) :
    Except NalError Output := do
  escapeInto (← u.encodePlain config sets) o

end NalUnit

end AvcSyntax

import AvcSyntax.Nal.Trailing
import AvcSyntax.Slice.Header

/-!
# Slices

A slice is its header and the coded macroblocks behind it, which are kept as they are: the bits
up to the next byte boundary and the bytes from there to the end. Written behind a header that
ends at the same bit offset the data come out as they were. At any other offset only
arithmetically coded data can be written, for these begin at a byte boundary behind one bits.
-/
namespace AvcSyntax

structure SliceData where
  alignmentBits : UInt8 := 0
  alignmentBitCount : UInt8 := 0
  bytes : List UInt8 := []
  deriving DecidableEq, Repr

/-- A slice. Without data it ends with its header. -/
structure SliceLayer where
  header : SliceHeader := {}
  data : Option SliceData := none
  deriving DecidableEq, Repr

/-- Writes `count` one bits, each as a field of its own. -/
def Build.ones : (count : Nat) → Build Unit
  | 0 => return ()
  | count + 1 => do
    Build.flag true
    Build.ones count

namespace SliceData

/-- Reads everything up to the end. -/
def parse : Parse SliceData := do
  let r ← get
  let count := if r.isAligned then 0 else r.bitsLeftInByte
  let bits ← Parse.u count
  let bytes := (← get).alignedBytes
  Parse.skip (← get).remaining
  return { alignmentBits := bits.toUInt8, alignmentBitCount := count.toUInt8, bytes }

def build (d : SliceData) (pps : Pps) : Encode Unit := do
  let w ← get
  let count := if w.isAligned then 0 else 8 - w.pos % 8
  if count = d.alignmentBitCount.toNat then
    Build.u count d.alignmentBits.toNat
  else if pps.entropyCodingMode then
    Build.ones count
  else
    let old ← (difference 8 d.alignmentBitCount.toNat : Build Nat)
    throw (.sliceDataMoved (old % 8) (w.pos % 8))
  Build.bytes d.bytes

end SliceData

namespace SliceLayer

/-- Behind a header that no data follow there has to be a stop bit. -/
def parse (nal : NalHeader) (sets : ParameterSets) (strict : Bool) : Decode SliceLayer := do
  let header ← SliceHeader.parse nal sets
  let (pps, _) ← sets.resolve header.ppsId
  if ← Parse.moreData then
    let data ← SliceData.parse
    return { header, data := some data }
  else
    Parse.sliceTrailingBits pps.entropyCodingMode strict
    return { header }

def build (s : SliceLayer) (nal : NalHeader) (sets : ParameterSets) : Encode Unit := do
  s.header.build nal sets
  match s.data with
  | none => Build.trailingBits
  | some data => do
    let (pps, _) ← sets.resolve s.header.ppsId
    data.build pps

end SliceLayer

end AvcSyntax

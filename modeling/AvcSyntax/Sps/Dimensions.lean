import AvcSyntax.Arithmetic
import AvcSyntax.Sps.Basic

/-!
# Picture dimensions of a sequence

Sizes are those of 64-bit words: sums and products that do not fit become the largest word, and
a picture that is cropped away completely has size 0. Only the count of macroblocks in a row or
column, one more than its field, may overflow, and with it everything that is computed from it.
-/
namespace AvcSyntax

namespace Sps

/-- The chroma format, 1 if none is given. -/
def chromaFormatIdc (s : Sps) : UInt8 :=
  match s.sampleFormat with
  | some f => f.chromaFormatIdc
  | none => 1

/-- Whether the colour planes are coded as pictures of their own. -/
def separateColourPlanes (s : Sps) : Bool :=
  match s.sampleFormat with
  | some f => f.separateColourPlanes
  | none => false

/-- The chroma format of the coded pictures, 0 if they have one plane each. -/
def chromaArrayType (s : Sps) : UInt8 := if s.separateColourPlanes then 0 else s.chromaFormatIdc

/-- One more than the largest frame number. -/
def maxFrameNum (s : Sps) : Except Fault Nat :=
  shiftLeft 32 1 (s.log2MaxFrameNumMinus4.toNat + 4)

def widthInMbs (s : Sps) : Except Fault Nat := natWord 64 (s.picWidthInMbsMinus1.toNat + 1)

def heightInMapUnits (s : Sps) : Except Fault Nat :=
  natWord 64 (s.picHeightInMapUnitsMinus1.toNat + 1)

def sizeInMapUnits (s : Sps) : Except Fault Nat := do
  let columns ← s.widthInMbs
  let rows ← s.heightInMapUnits
  return saturate (columns * rows)

/-- The number of rows of a frame that one map unit covers. -/
def rowsPerMapUnit (s : Sps) : Nat := if s.frameMbsOnly then 1 else 2

/-- The number of macroblocks in a column of a frame. -/
def frameHeightInMbs (s : Sps) : Except Fault Nat := do
  return saturate (s.rowsPerMapUnit * (← s.heightInMapUnits))

/-- The number of luma samples that one unit of horizontal cropping removes. -/
def cropUnitX (s : Sps) : Nat :=
  if s.chromaArrayType = 1 ∨ s.chromaArrayType = 2 then 2 else 1

/-- The number of luma samples that one unit of vertical cropping removes. -/
def cropUnitY (s : Sps) : Nat :=
  (if s.chromaArrayType = 1 then 2 else 1) * s.rowsPerMapUnit

/-- A size less what two crop offsets remove. -/
def cropped (size unit : Nat) (first second : UInt64) : Nat :=
  size - saturate (saturate (first.toNat + second.toNat) * unit)

/-- The width of the cropped picture in luma samples. -/
def width (s : Sps) : Except Fault Nat := do
  let full := saturate ((← s.widthInMbs) * 16)
  match s.cropping with
  | some c => return cropped full s.cropUnitX c.left c.right
  | none => return full

/-- The height of the cropped picture in luma samples. -/
def height (s : Sps) : Except Fault Nat := do
  let full := saturate ((← s.frameHeightInMbs) * 16)
  match s.cropping with
  | some c => return cropped full s.cropUnitY c.top c.bottom
  | none => return full

def frameRate? (s : Sps) : Option Float := do (← (← s.vui).timing).frameRate?

end Sps

end AvcSyntax

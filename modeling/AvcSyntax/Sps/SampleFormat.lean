import AvcSyntax.ScalingMatrix

/-!
# Sample formats

The part of a sequence parameter set that only the high profiles code: chroma format, bit depths
and scaling lists. All other profiles have the default format.
-/
namespace AvcSyntax

structure SampleFormat where
  chromaFormatIdc : UInt8 := 1
  /-- Coded only in chroma format 3. -/
  separateColourPlanes : Bool := false
  bitDepthLumaMinus8 : UInt8 := 0
  bitDepthChromaMinus8 : UInt8 := 0
  losslessAtZeroQp : Bool := false
  scalingMatrix : Option ScalingMatrix := none
  deriving DecidableEq, Repr

namespace SampleFormat

/-- The number of scaling lists of a sequence in a chroma format. -/
def scalingListCount (chromaFormatIdc : UInt8) : Nat := if chromaFormatIdc = 3 then 12 else 8

def parse : Parse SampleFormat := do
  let chromaFormatIdc := (← Parse.ueUpTo "chroma_format_idc" 3).toUInt8
  let separateColourPlanes ← if chromaFormatIdc = 3 then Parse.flag else pure false
  let bitDepthLumaMinus8 ← Parse.ueUpTo "bit_depth_luma_minus8" 6
  let bitDepthChromaMinus8 ← Parse.ueUpTo "bit_depth_chroma_minus8" 6
  let losslessAtZeroQp ← Parse.flag
  let scalingMatrix ←
    Parse.optional (ScalingMatrix.parse (scalingListCount chromaFormatIdc))
  return {
    chromaFormatIdc
    separateColourPlanes
    bitDepthLumaMinus8 := bitDepthLumaMinus8.toUInt8
    bitDepthChromaMinus8 := bitDepthChromaMinus8.toUInt8
    losslessAtZeroQp
    scalingMatrix }

def code (f : SampleFormat) : Code :=
  .ue f.chromaFormatIdc.toNat ++
  .onlyIf (f.chromaFormatIdc = 3) (.flag f.separateColourPlanes) ++
  .ue f.bitDepthLumaMinus8.toNat ++
  .ue f.bitDepthChromaMinus8.toNat ++
  .flag f.losslessAtZeroQp ++
  .optional (·.code (scalingListCount f.chromaFormatIdc)) f.scalingMatrix

end SampleFormat

end AvcSyntax

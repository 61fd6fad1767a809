import AvcSyntax.Sps.PicOrderCount
import AvcSyntax.Sps.SampleFormat
import AvcSyntax.Vui.Basic

/-!
# Sequence parameter sets

What all pictures of a sequence have in common. The profile decides whether the sample format is
coded: of a high profile without one the default format is written, and the format of any other
profile is not written at all.
-/
namespace AvcSyntax

/-- How much of the coded picture is cut off at each side, in crop units. -/
structure FrameCropping where
  left : UInt64 := 0
  right : UInt64 := 0
  top : UInt64 := 0
  bottom : UInt64 := 0
  deriving DecidableEq, Repr

namespace FrameCropping

def parse : Parse FrameCropping := do
  let left ← Parse.ue
  let right ← Parse.ue
  let top ← Parse.ue
  let bottom ← Parse.ue
  return {
    left := left.toUInt64, right := right.toUInt64, top := top.toUInt64
    bottom := bottom.toUInt64 }

def code (c : FrameCropping) : Code :=
  .ue c.left.toNat ++ .ue c.right.toNat ++ .ue c.top.toNat ++ .ue c.bottom.toNat

end FrameCropping

structure Sps where
  profileIdc : UInt8 := 66
  constraintSet0 : Bool := false
  constraintSet1 : Bool := false
  constraintSet2 : Bool := false
  constraintSet3 : Bool := false
  constraintSet4 : Bool := false
  constraintSet5 : Bool := false
  reservedZero2Bits : UInt8 := 0
  levelIdc : UInt8 := 0
  id : UInt8 := 0
  sampleFormat : Option SampleFormat := none
  log2MaxFrameNumMinus4 : UInt8 := 0
  picOrderCount : PicOrderCount := default
  maxNumRefFrames : UInt8 := 0
  gapsInFrameNumAllowed : Bool := false
  picWidthInMbsMinus1 : UInt64 := 0
  picHeightInMapUnitsMinus1 : UInt64 := 0
  frameMbsOnly : Bool := true
  /-- Coded only if there may be fields. -/
  mbAdaptiveFrameField : Bool := false
  direct8x8Inference : Bool := false
  cropping : Option FrameCropping := none
  vui : Option VuiParameters := none
  deriving DecidableEq, Repr

namespace Sps

/-- The profiles whose parameter sets code a sample format. -/
def highProfiles : List UInt8 := [100, 110, 122, 244, 44, 83, 86, 118, 128, 138, 139, 134, 135]

def isHighProfile (profileIdc : UInt8) : Bool := highProfiles.contains profileIdc

def parse : Parse Sps := do
  let profileIdc ← Parse.octet 8
  let constraintSet0 ← Parse.flag
  let constraintSet1 ← Parse.flag
  let constraintSet2 ← Parse.flag
  let constraintSet3 ← Parse.flag
  let constraintSet4 ← Parse.flag
  let constraintSet5 ← Parse.flag
  let reservedZero2Bits ← Parse.octet 2
  let levelIdc ← Parse.octet 8
  let id ← Parse.ueUpTo "seq_parameter_set_id" 31
  let sampleFormat ← if isHighProfile profileIdc then some <$> SampleFormat.parse else pure none
  let log2MaxFrameNumMinus4 ← Parse.ueUpTo "log2_max_frame_num_minus4" 12
  let picOrderCount ← PicOrderCount.parse
  let maxNumRefFrames ← Parse.ueUpTo "max_num_ref_frames" 16
  let gapsInFrameNumAllowed ← Parse.flag
  let picWidthInMbsMinus1 ← Parse.ue
  let picHeightInMapUnitsMinus1 ← Parse.ue
  let frameMbsOnly ← Parse.flag
  let mbAdaptiveFrameField ← if frameMbsOnly then pure false else Parse.flag
  let direct8x8Inference ← Parse.flag
  let cropping ← Parse.optional FrameCropping.parse
  let vui ← Parse.optional VuiParameters.parse
  return {
    profileIdc, constraintSet0, constraintSet1, constraintSet2, constraintSet3, constraintSet4,
    constraintSet5, reservedZero2Bits, levelIdc
    id := id.toUInt8
    sampleFormat
    log2MaxFrameNumMinus4 := log2MaxFrameNumMinus4.toUInt8
    picOrderCount
    maxNumRefFrames := maxNumRefFrames.toUInt8
    gapsInFrameNumAllowed
    picWidthInMbsMinus1 := picWidthInMbsMinus1.toUInt64
    picHeightInMapUnitsMinus1 := picHeightInMapUnitsMinus1.toUInt64
    frameMbsOnly, mbAdaptiveFrameField, direct8x8Inference, cropping, vui }

def code (s : Sps) : Code :=
  .inRange "self.seq_parameter_set_id" 0 31 s.id.toNat ++
  .u 8 s.profileIdc.toNat ++
  .flag s.constraintSet0 ++
  .flag s.constraintSet1 ++
  .flag s.constraintSet2 ++
  .flag s.constraintSet3 ++
  .flag s.constraintSet4 ++
  .flag s.constraintSet5 ++
  .u 2 (s.reservedZero2Bits.toNat % 4) ++
  .u 8 s.levelIdc.toNat ++
  .ue s.id.toNat ++
  .onlyIf (isHighProfile s.profileIdc) (s.sampleFormat.getD {}).code ++
  .ue s.log2MaxFrameNumMinus4.toNat ++
  s.picOrderCount.code ++
  .ue s.maxNumRefFrames.toNat ++
  .flag s.gapsInFrameNumAllowed ++
  .ue s.picWidthInMbsMinus1.toNat ++
  .ue s.picHeightInMapUnitsMinus1.toNat ++
  .flag s.frameMbsOnly ++
  .onlyIf (!s.frameMbsOnly) (.flag s.mbAdaptiveFrameField) ++
  .flag s.direct8x8Inference ++
  .optional FrameCropping.code s.cropping ++
  .optional VuiParameters.code s.vui

end Sps

end AvcSyntax

import AvcSyntax.Vui.Display
import AvcSyntax.Vui.Timing

/-!
# Video usability information

What a sequence parameter set may say beyond what decoding needs: how to show the pictures, when,
and which bounds the stream keeps. Each part is there or absent on its own.
-/
namespace AvcSyntax

/-- Bounds that a stream keeps; the defaults are those of a stream that states none. -/
structure BitstreamRestriction where
  motionVectorsOverPicBoundaries : Bool := true
  maxBytesPerPicDenom : UInt8 := 2
  maxBitsPerMbDenom : UInt8 := 1
  log2MaxMvLengthHorizontal : UInt8 := 15
  log2MaxMvLengthVertical : UInt8 := 15
  maxNumReorderFrames : UInt32 := 16
  maxDecFrameBuffering : UInt32 := 16
  deriving DecidableEq, Repr

namespace BitstreamRestriction

def parse : Parse BitstreamRestriction := do
  let motionVectorsOverPicBoundaries ← Parse.flag
  let maxBytesPerPicDenom ← Parse.ueUpTo "max_bytes_per_pic_denom" 16
  let maxBitsPerMbDenom ← Parse.ueUpTo "max_bits_per_mb_denom" 16
  let log2MaxMvLengthHorizontal ← Parse.ueUpTo "log2_max_mv_length_horizontal" 16
  let log2MaxMvLengthVertical ← Parse.ueUpTo "log2_max_mv_length_vertical" 16
  let maxNumReorderFrames ← Parse.ueUpTo "max_num_reorder_frames" 16
  let maxDecFrameBuffering ← Parse.ueUpTo "max_dec_frame_buffering" 16
  return {
    motionVectorsOverPicBoundaries
    maxBytesPerPicDenom := maxBytesPerPicDenom.toUInt8
    maxBitsPerMbDenom := maxBitsPerMbDenom.toUInt8
    log2MaxMvLengthHorizontal := log2MaxMvLengthHorizontal.toUInt8
    log2MaxMvLengthVertical := log2MaxMvLengthVertical.toUInt8
    maxNumReorderFrames := maxNumReorderFrames.toUInt32
    maxDecFrameBuffering := maxDecFrameBuffering.toUInt32 }

def code (b : BitstreamRestriction) : Code :=
  .flag b.motionVectorsOverPicBoundaries ++
  .ue b.maxBytesPerPicDenom.toNat ++
  .ue b.maxBitsPerMbDenom.toNat ++
  .ue b.log2MaxMvLengthHorizontal.toNat ++
  .ue b.log2MaxMvLengthVertical.toNat ++
  .ue b.maxNumReorderFrames.toNat ++
  .ue b.maxDecFrameBuffering.toNat

end BitstreamRestriction

structure VuiParameters where
  aspectRatio : Option AspectRatio := none
  overscanAppropriate : Option Bool := none
  videoSignal : Option VideoSignal := none
  chromaLocation : Option ChromaLocation := none
  timing : Option TimingInfo := none
  nalHrd : Option HrdParameters := none
  vclHrd : Option HrdParameters := none
  /-- Coded only if there are parameters of a reference decoder. -/
  lowDelayHrd : Bool := false
  picStructPresent : Bool := false
  restriction : Option BitstreamRestriction := none
  deriving DecidableEq, Repr

namespace VuiParameters

def hasHrd (v : VuiParameters) : Bool := v.nalHrd.isSome || v.vclHrd.isSome

def parse : Parse VuiParameters := do
  let aspectRatio ← Parse.optional AspectRatio.parse
  let overscanAppropriate ← Parse.optional Parse.flag
  let videoSignal ← Parse.optional VideoSignal.parse
  let chromaLocation ← Parse.optional ChromaLocation.parse
  let timing ← Parse.optional TimingInfo.parse
  let nalHrd ← Parse.optional HrdParameters.parse
  let vclHrd ← Parse.optional HrdParameters.parse
  let lowDelayHrd ← if nalHrd.isSome || vclHrd.isSome then Parse.flag else pure false
  let picStructPresent ← Parse.flag
  let restriction ← Parse.optional BitstreamRestriction.parse
  return {
    aspectRatio, overscanAppropriate, videoSignal, chromaLocation, timing, nalHrd, vclHrd,
    lowDelayHrd, picStructPresent, restriction }

def code (v : VuiParameters) : Code :=
  .optional AspectRatio.code v.aspectRatio ++
  .optional Code.flag v.overscanAppropriate ++
  .optional VideoSignal.code v.videoSignal ++
  .optional ChromaLocation.code v.chromaLocation ++
  .optional TimingInfo.code v.timing ++
  .optional HrdParameters.code v.nalHrd ++
  .optional HrdParameters.code v.vclHrd ++
  .onlyIf v.hasHrd (.flag v.lowDelayHrd) ++
  .flag v.picStructPresent ++
  .optional BitstreamRestriction.code v.restriction

end VuiParameters

end AvcSyntax

import AvcSyntax.Sps.Basic

/-!
# Changes to sequence parameter sets

A fixup replaces fields that keep decoders from showing pictures as soon as they arrive: level,
number of reference frames, profile, colour information and the stated bounds of the stream. A
profile that does not code a sample format drops it.
-/
namespace AvcSyntax

inductive RestrictionChange where
  | keep
  | remove
  /-- States that a single frame is buffered. -/
  | lowLatency
  deriving DecidableEq, Repr

/-- The fields to replace; those without a value are kept. -/
structure SpsFixup where
  levelIdc : Option UInt8 := none
  maxNumRefFrames : Option UInt8 := none
  profileIdc : Option UInt8 := none
  stripVideoSignal : Bool := false
  stripChromaLocation : Bool := false
  restriction : RestrictionChange := .keep
  deriving DecidableEq, Repr

/-- The level whose buffer suffices for a picture size at sixty frames a second. -/
def levelForResolution? (width height : UInt32) : Option UInt8 :=
  if width = 1280 ∧ height = 720 then some 32
  else if width = 1920 ∧ height = 1080 then some 42
  else none

/-- Bounds under which a single frame is buffered. Bounds that a stream states already are kept
where they have nothing to do with buffering. -/
def BitstreamRestriction.lowLatency (stated : Option BitstreamRestriction) :
    BitstreamRestriction :=
  let base := stated.getD {
    motionVectorsOverPicBoundaries := true
    log2MaxMvLengthHorizontal := 16
    log2MaxMvLengthVertical := 16
    maxNumReorderFrames := 0 }
  { base with maxDecFrameBuffering := 1, maxBytesPerPicDenom := 2, maxBitsPerMbDenom := 1 }

namespace SpsFixup

/-- Sets the level for a picture size, if that size has one. -/
def withResolution (f : SpsFixup) (width height : UInt32) : SpsFixup :=
  match levelForResolution? width height with
  | some level => { f with levelIdc := some level }
  | none => f

/-- The fixup for showing pictures of a size as soon as they arrive. -/
def lowLatency (width height : UInt32) : SpsFixup :=
  { withResolution {} width height with
    maxNumRefFrames := some 1
    stripVideoSignal := true
    stripChromaLocation := true
    restriction := .lowLatency }

def stripVui (f : SpsFixup) (v : VuiParameters) : VuiParameters :=
  { v with
    videoSignal := if f.stripVideoSignal then none else v.videoSignal
    chromaLocation := if f.stripChromaLocation then none else v.chromaLocation }

/-- The changed usability information. Stated bounds make room for themselves. -/
def applyVui (f : SpsFixup) (vui : Option VuiParameters) : Option VuiParameters :=
  let stripped := vui.map f.stripVui
  match f.restriction with
  | .keep => stripped
  | .remove => stripped.map fun v => { v with restriction := none }
  | .lowLatency =>
    let v := stripped.getD {}
    some { v with restriction := some (.lowLatency v.restriction) }

def apply (f : SpsFixup) (s : Sps) : Sps :=
  { s with
    levelIdc := f.levelIdc.getD s.levelIdc
    maxNumRefFrames := f.maxNumRefFrames.getD s.maxNumRefFrames
    profileIdc := f.profileIdc.getD s.profileIdc
    sampleFormat :=
      match f.profileIdc with
      | some profile => if Sps.isHighProfile profile then s.sampleFormat else none
      | none => s.sampleFormat
    vui := f.applyVui s.vui }

end SpsFixup

end AvcSyntax

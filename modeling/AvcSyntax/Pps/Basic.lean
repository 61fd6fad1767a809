import AvcSyntax.Pps.SliceGroups
import AvcSyntax.ScalingMatrix

/-!
# Picture parameter sets

What the slices of a picture have in common. The last part of the record, which only later
profiles know, has no mark of its presence.
-/
namespace AvcSyntax

/-- The part of a picture parameter set that only later profiles know. -/
structure PpsExtension where
  transform8x8Mode : Bool := false
  scalingMatrix : Option ScalingMatrix := none
  secondChromaQpIndexOffset : Int32 := 0
  deriving DecidableEq, Repr

/-- The number of scaling lists of a picture in a chroma format. -/
def PpsExtension.scalingListCount (transform8x8Mode : Bool) (chromaFormatIdc : UInt8) : Nat :=
  if !transform8x8Mode then 6 else if chromaFormatIdc = 3 then 12 else 8

structure Pps where
  id : UInt8 := 0
  spsId : UInt8 := 0
  /-- Whether slice data is coded arithmetically. -/
  entropyCodingMode : Bool := false
  bottomFieldPicOrderInFramePresent : Bool := false
  sliceGroups : Option SliceGroups := none
  numRefIdxL0DefaultActiveMinus1 : UInt8 := 0
  numRefIdxL1DefaultActiveMinus1 : UInt8 := 0
  weightedPred : Bool := false
  weightedBipredIdc : UInt8 := 0
  picInitQpMinus26 : Int32 := 0
  picInitQsMinus26 : Int32 := 0
  chromaQpIndexOffset : Int32 := 0
  deblockingFilterControlPresent : Bool := false
  constrainedIntraPred : Bool := false
  redundantPicCntPresent : Bool := false
  extension : Option PpsExtension := none
  deriving DecidableEq, Repr

namespace Pps

/-- The number of map units by which a changing slice group map grows per cycle. -/
def sliceGroupChangeRate? (p : Pps) : Option UInt32 := p.sliceGroups.bind SliceGroups.changeRate?

/-- Whether blocks of 8 by 8 samples may be transformed as a whole. -/
def transform8x8Mode (p : Pps) : Bool :=
  match p.extension with
  | some e => e.transform8x8Mode
  | none => false

end Pps

end AvcSyntax

import AvcSyntax.Nal.Header
import AvcSyntax.ParameterSets
import AvcSyntax.Slice.PredWeightTable
import AvcSyntax.Slice.RefListModification
import AvcSyntax.Slice.RefPicMarking

/-!
# Slice headers

Which fields a slice header has, and how wide they are, depends on the type of the slice, on the
header of its NAL unit and on the parameter sets that it names. A field that is not coded has its
default value; counts of reference pictures that are not coded come from the picture parameter
set.
-/
namespace AvcSyntax

structure SlicePicOrder where
  lsb : UInt32 := 0
  deltaBottom : Int32 := 0
  delta0 : Int32 := 0
  delta1 : Int32 := 0
  deriving DecidableEq, Repr

/-- The numbers of active reference pictures less one. -/
structure RefCounts where
  overridden : Bool := false
  l0Minus1 : UInt8 := 0
  l1Minus1 : UInt8 := 0
  deriving DecidableEq, Repr

structure SliceDeblocking where
  disableIdc : UInt8 := 0
  alphaC0OffsetDiv2 : Int8 := 0
  betaOffsetDiv2 : Int8 := 0
  deriving DecidableEq, Repr

structure SliceHeader where
  firstMb : UInt32 := 0
  type : SliceType := .p
  allSlicesSameType : Bool := false
  ppsId : UInt8 := 0
  colourPlaneId : UInt8 := 0
  frameNum : UInt32 := 0
  fieldPic : Bool := false
  bottomField : Bool := false
  idrPicId : UInt32 := 0
  picOrder : SlicePicOrder := {}
  redundantPicCnt : UInt8 := 0
  directSpatialMvPred : Bool := false
  refCounts : RefCounts := {}
  refListModification : RefListModification := {}
  predWeightTable : Option PredWeightTable := none
  refPicMarking : Option RefPicMarking := none
  cabacInitIdc : UInt8 := 0
  qpDelta : Int32 := 0
  spForSwitch : Bool := false
  qsDelta : Int32 := 0
  deblocking : SliceDeblocking := {}
  groupChangeCycle : UInt32 := 0
  deriving DecidableEq, Repr

namespace SliceType

/-- Whether slices of the type have reference pictures of their own count. -/
def hasRefCounts (t : SliceType) : Bool := t == .p || t == .sp || t == .b

/-- Whether slices of the type have a table of weights under a picture parameter set. -/
def hasWeights (t : SliceType) (pps : Pps) : Bool :=
  (pps.weightedPred && (t == .p || t == .sp)) || (pps.weightedBipredIdc == 1 && t == .b)

end SliceType

namespace SliceHeader

def hasPredWeightTable (h : SliceHeader) (pps : Pps) : Bool := h.type.hasWeights pps

/-- The numbers of active reference pictures less one. -/
def effectiveRefCounts (h : SliceHeader) (pps : Pps) : UInt8 × UInt8 :=
  if h.refCounts.overridden then
    (h.refCounts.l0Minus1,
      if h.type = .b then h.refCounts.l1Minus1 else pps.numRefIdxL1DefaultActiveMinus1)
  else (pps.numRefIdxL0DefaultActiveMinus1, pps.numRefIdxL1DefaultActiveMinus1)

def isFirst (h : SliceHeader) : Bool := h.firstMb == 0

end SliceHeader

def Sps.bitDepthLumaMinus8 (s : Sps) : UInt8 :=
  match s.sampleFormat with
  | some f => f.bitDepthLumaMinus8
  | none => 0

/-- The smallest and the largest quantiser change that keep the quantiser in its range. -/
def qpDeltaLimits (sps : Sps) (pps : Pps) : Except Fault (Int × Int) := do
  let depthOffset ← intWord 64 (6 * sps.bitDepthLumaMinus8.toNat)
  let initial ← intWord 64 (26 + pps.picInitQpMinus26.toInt)
  let lowest ← intWord 64 (-depthOffset)
  return (← intWord 64 (lowest - initial), ← intWord 64 (51 - initial))

/-- Searches from `bits` on, through `room` more widths, for one that moves `rate` to `target` or
beyond. -/
def searchWidth (rate target : Nat) : (room bits : Nat) → Except Fault Nat
  | 0, bits => return bits
  | room + 1, bits => do
    if (← shiftLeft 64 rate bits) < target then
      searchWidth rate target room (← natWord 8 (bits + 1))
    else return bits

/-- The number of bits of the count of slice group changes: the least number `n` up to 32 such
that `2 ^ n` cycles of `rate` map units and one more cover a picture of `size` map units. -/
def groupChangeCycleBits (size : Nat) (rate : UInt32) : Except Fault Nat :=
  let rate := max rate.toNat 1
  searchWidth rate (saturate (size + rate)) 32 0

/-- The width of the count under a sequence parameter set. -/
def Sps.changeCycleBits (sps : Sps) (rate : UInt32) : Except Fault Nat := do
  groupChangeCycleBits (← sps.sizeInMapUnits) rate

/-- The width of a field that is four bits wider than its number says, up to twelve. -/
def widthAbove4 (quantity : String) (minus4 : UInt8) : Except Fault Nat :=
  match rangeFault? quantity 0 12 minus4.toNat with
  | some fault => .error fault
  | none => natWord 8 (minus4.toNat + 4)

def frameNumBits (sps : Sps) : Except Fault Nat :=
  widthAbove4 "log2_max_frame_num_minus4" sps.log2MaxFrameNumMinus4

def orderLsbBits (log2Minus4 : UInt8) : Except Fault Nat :=
  widthAbove4 "log2_max_pic_order_cnt_lsb_minus4" log2Minus4

/-- A field whose width is known only if a parameter set is in order. -/
def Code.sized (width : Except Fault Nat) (value : Nat) : Code :=
  .checked width fun width => .u width value

/-- Reads a signed code whose number fits 32 bits, the smallest of them left out. -/
def Parse.int32 : Parse Int32 := do
  return .ofInt (← Parse.seWithin "value" (-0x7fffffff) 0x7fffffff)

namespace SlicePicOrder

/-- Reads the place in output order; `hasBottom` tells whether the other field has a difference
of its own. -/
def parse (count : PicOrderCount) (hasBottom : Bool) : Parse SlicePicOrder := do
  match count with
  | .lowBits log2 => do
    let lsb ← Parse.u (← orderLsbBits log2)
    let deltaBottom ← if hasBottom then Parse.int32 else pure 0
    return { lsb := lsb.toUInt32, deltaBottom }
  | .cycle c =>
    if c.deltaAlwaysZero then return {}
    else do
      let delta0 ← Parse.int32
      let delta1 ← if hasBottom then Parse.int32 else pure 0
      return { delta0, delta1 }
  | .decodingOrder => return {}

def code (o : SlicePicOrder) (count : PicOrderCount) (hasBottom : Bool) : Code :=
  match count with
  | .lowBits log2 =>
    .sized (orderLsbBits log2) o.lsb.toNat ++ .onlyIf hasBottom (.se o.deltaBottom.toInt)
  | .cycle c =>
    .onlyIf (!c.deltaAlwaysZero)
      (.se o.delta0.toInt ++ .onlyIf hasBottom (.se o.delta1.toInt))
  | .decodingOrder => .empty

end SlicePicOrder

namespace RefCounts

/-- Reads the counts of a slice; those not coded come from the picture parameter set. -/
def parse (type : SliceType) (pps : Pps) : Parse RefCounts := do
  let overridden ← if type.hasRefCounts then Parse.flag else pure false
  if overridden then
    let l0 ← Parse.ueUpTo "num_ref_idx_active_minus1" 31
    let l1Minus1 ←
      if type = .b then Nat.toUInt8 <$> Parse.ueUpTo "num_ref_idx_active_minus1" 31
      else pure pps.numRefIdxL1DefaultActiveMinus1
    return { overridden, l0Minus1 := l0.toUInt8, l1Minus1 }
  else
    return {
      l0Minus1 := pps.numRefIdxL0DefaultActiveMinus1
      l1Minus1 := pps.numRefIdxL1DefaultActiveMinus1 }

def code (c : RefCounts) (type : SliceType) : Code :=
  .onlyIf type.hasRefCounts <|
    .flag c.overridden ++
    .onlyIf c.overridden (
      .inRange "self.num_ref_idx_l0_active_minus1" 0 31 c.l0Minus1.toNat ++
      .ue c.l0Minus1.toNat ++
      .onlyIf (type = .b) (
        .inRange "self.num_ref_idx_l1_active_minus1" 0 31 c.l1Minus1.toNat ++
        .ue c.l1Minus1.toNat))

end RefCounts

namespace SliceDeblocking

def parseOffset : Parse Int8 := do return .ofInt (← Parse.seWithin "offset_div2" (-6) 6)

def parse : Parse SliceDeblocking := do
  let disableIdc := (← Parse.ueUpTo "disable_deblocking_filter_idc" 2).toUInt8
  if disableIdc = 1 then return { disableIdc }
  else
    let alphaC0OffsetDiv2 ← parseOffset
    let betaOffsetDiv2 ← parseOffset
    return { disableIdc, alphaC0OffsetDiv2, betaOffsetDiv2 }

def code (d : SliceDeblocking) : Code :=
  .inRange "self.disable_deblocking_filter_idc" 0 2 d.disableIdc.toNat ++
  .ue d.disableIdc.toNat ++
  .onlyIf (d.disableIdc ≠ 1) (.se d.alphaC0OffsetDiv2.toInt ++ .se d.betaOffsetDiv2.toInt)

end SliceDeblocking

namespace SliceHeader

/-- Reads the fields that come before any parameter set is needed. -/
def parseOpening : Parse SliceHeader := do
  let firstMb ← Parse.ueUpTo "first_mb_in_slice" 0xffffffff
  let (type, allSlicesSameType) ← SliceType.ofCode (← Parse.ue)
  let ppsId ← Parse.ueUpTo "pic_parameter_set_id" 255
  return { firstMb := firstMb.toUInt32, type, allSlicesSameType, ppsId := ppsId.toUInt8 }

/-- Reads which of the separately coded colour planes a slice belongs to. -/
def parseColourPlane : Parse Nat := do
  let id ← Parse.u 2
  Parse.inRange "colour_plane_id" 0 2 id
  return id

/-- Reads how far a changing slice group map has grown; no other map has that field. -/
def parseChangeCycle (pps : Pps) (sps : Sps) : Parse Nat :=
  match pps.sliceGroupChangeRate? with
  | some rate => do Parse.u (← sps.changeCycleBits rate)
  | none => return 0

/-- Reads the fields behind the opening under the parameter sets that it names. -/
def parseBody (nal : NalHeader) (pps : Pps) (sps : Sps) (opening : SliceHeader) :
    Parse SliceHeader := do
  let type := opening.type
  let isIdr := nal.unitType.isIdr
  let colourPlaneId ← if sps.separateColourPlanes then parseColourPlane else pure 0
  let frameNum ← Parse.u (← frameNumBits sps)
  let fieldPic ← if sps.frameMbsOnly then pure false else Parse.flag
  let bottomField ← if fieldPic then Parse.flag else pure false
  let idrPicId ← if isIdr then Parse.ueUpTo "idr_pic_id" 65535 else pure 0
  let picOrder ←
    SlicePicOrder.parse sps.picOrderCount (pps.bottomFieldPicOrderInFramePresent && !fieldPic)
  let redundantPicCnt ←
    if pps.redundantPicCntPresent then Parse.ueUpTo "redundant_pic_cnt" 127 else pure 0
  let directSpatialMvPred ← if type = .b then Parse.flag else pure false
  let refCounts ← RefCounts.parse type pps
  let refListModification ← RefListModification.parse type
  let predWeightTable ←
    if type.hasWeights pps then
      some <$> PredWeightTable.parse sps.chromaArrayType refCounts.l0Minus1
        (if type = .b then some refCounts.l1Minus1 else none)
    else pure none
  let refPicMarking ← if nal.refIdc ≠ 0 then some <$> RefPicMarking.parse isIdr else pure none
  let cabacInitIdc ←
    if pps.entropyCodingMode && !type.isIntra then Parse.ueUpTo "cabac_init_idc" 2 else pure 0
  let (minDelta, maxDelta) ← qpDeltaLimits sps pps
  let qpDelta ← Parse.seWithin "slice_qp_delta" minDelta maxDelta
  let spForSwitch ← if type = .sp then Parse.flag else pure false
  let qsDelta ← if type.isSwitching then Parse.seWithin "slice_qs_delta" (-51) 51 else pure 0
  let deblocking ←
    if pps.deblockingFilterControlPresent then SliceDeblocking.parse else pure {}
  let groupChangeCycle ← parseChangeCycle pps sps
  return {
    firstMb := opening.firstMb
    type
    allSlicesSameType := opening.allSlicesSameType
    ppsId := opening.ppsId
    colourPlaneId := colourPlaneId.toUInt8
    frameNum := frameNum.toUInt32
    fieldPic
    bottomField
    idrPicId := idrPicId.toUInt32
    picOrder
    redundantPicCnt := redundantPicCnt.toUInt8
    directSpatialMvPred
    refCounts
    refListModification
    predWeightTable
    refPicMarking
    cabacInitIdc := cabacInitIdc.toUInt8
    qpDelta := .ofInt qpDelta
    spForSwitch
    qsDelta := .ofInt qsDelta
    deblocking
    groupChangeCycle := groupChangeCycle.toUInt32 }

def parse (nal : NalHeader) (sets : ParameterSets) : Decode SliceHeader := do
  let opening ← parseOpening
  let (pps, sps) ← sets.resolve opening.ppsId
  parseBody nal pps sps opening

/-- The code of the fields that come before any parameter set is needed. -/
def openingCode (h : SliceHeader) : Code :=
  .ue h.firstMb.toNat ++
  .checked (h.type.toCode h.allSlicesSameType) .ue ++
  .ue h.ppsId.toNat

def changeCycleCode (pps : Pps) (sps : Sps) (cycle : UInt32) : Code :=
  match pps.sliceGroupChangeRate? with
  | some rate => .sized (sps.changeCycleBits rate) cycle.toNat
  | none => .empty

/-- The code of the fields behind the opening under the parameter sets that it names. -/
def bodyCode (h : SliceHeader) (nal : NalHeader) (pps : Pps) (sps : Sps) : Code :=
  let isIdr := nal.unitType.isIdr
  let isField := !sps.frameMbsOnly && h.fieldPic
  let (l0Minus1, l1Minus1) := h.effectiveRefCounts pps
  .onlyIf sps.separateColourPlanes
    (.inRange "self.colour_plane_id" 0 2 h.colourPlaneId.toNat ++ .u 2 h.colourPlaneId.toNat) ++
  .sized (frameNumBits sps) h.frameNum.toNat ++
  .onlyIf (!sps.frameMbsOnly)
    (.flag h.fieldPic ++ .onlyIf h.fieldPic (.flag h.bottomField)) ++
  .onlyIf isIdr
    (.inRange "self.idr_pic_id" 0 65535 h.idrPicId.toNat ++ .ue h.idrPicId.toNat) ++
  h.picOrder.code sps.picOrderCount (pps.bottomFieldPicOrderInFramePresent && !isField) ++
  .onlyIf pps.redundantPicCntPresent
    (.inRange "self.redundant_pic_cnt" 0 127 h.redundantPicCnt.toNat ++
      .ue h.redundantPicCnt.toNat) ++
  .onlyIf (h.type = .b) (.flag h.directSpatialMvPred) ++
  h.refCounts.code h.type ++
  h.refListModification.code h.type ++
  .onlyIf (h.hasPredWeightTable pps)
    ((h.predWeightTable.getD {}).code sps.chromaArrayType l0Minus1
      (if h.type = .b then some l1Minus1 else none)) ++
  .onlyIf (nal.refIdc ≠ 0) ((h.refPicMarking.getD (.defaultFor isIdr)).code isIdr) ++
  .onlyIf (pps.entropyCodingMode && !h.type.isIntra)
    (.inRange "self.cabac_init_idc" 0 2 h.cabacInitIdc.toNat ++ .ue h.cabacInitIdc.toNat) ++
  .se h.qpDelta.toInt ++
  .onlyIf (h.type = .sp) (.flag h.spForSwitch) ++
  .onlyIf h.type.isSwitching (.se h.qsDelta.toInt) ++
  .onlyIf pps.deblockingFilterControlPresent h.deblocking.code ++
  changeCycleCode pps sps h.groupChangeCycle

/-- The code of a slice header, if the parameter sets that it names are known. -/
def code (h : SliceHeader) (nal : NalHeader) (sets : ParameterSets) : Except NalError Code := do
  let (pps, sps) ← sets.resolve h.ppsId
  return h.openingCode ++ h.bodyCode nal pps sps

def build (h : SliceHeader) (nal : NalHeader) (sets : ParameterSets) : Encode Unit := do
  let code ← h.code nal sets
  code.write

end SliceHeader

end AvcSyntax

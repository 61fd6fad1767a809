import AvcSyntax.Nal.Trailing
import AvcSyntax.ParameterSets

/-!
# Reading and writing picture parameter sets

The extension of a picture parameter set is there exactly if more data follows in front of the
stop bit. How many scaling lists it codes depends on the chroma format of the sequence.
-/
namespace AvcSyntax

namespace PpsExtension

def parse (chromaFormatIdc : UInt8) : Parse PpsExtension := do
  let transform8x8Mode ← Parse.flag
  let scalingMatrix ←
    Parse.optional (ScalingMatrix.parse (scalingListCount transform8x8Mode chromaFormatIdc))
  let offset ← Parse.seWithin "second_chroma_qp_index_offset" (-12) 12
  return { transform8x8Mode, scalingMatrix, secondChromaQpIndexOffset := .ofInt offset }

def code (chromaFormatIdc : UInt8) (e : PpsExtension) : Code :=
  .flag e.transform8x8Mode ++
  .optional (·.code (scalingListCount e.transform8x8Mode chromaFormatIdc)) e.scalingMatrix ++
  .se e.secondChromaQpIndexOffset.toInt

end PpsExtension

namespace Pps

def parse (sets : ParameterSets) : Parse Pps := do
  let id ← Parse.ueUpTo "pic_parameter_set_id" 255
  let spsId := (← Parse.ueUpTo "seq_parameter_set_id" 31).toUInt8
  let entropyCodingMode ← Parse.flag
  let bottomFieldPicOrderInFramePresent ← Parse.flag
  let groupsMinus1 ← Parse.ueUpTo "num_slice_groups_minus1" 7
  let sliceGroups ←
    if 0 < groupsMinus1 then some <$> SliceGroups.parse groupsMinus1.toUInt8 else pure none
  let numRefIdxL0 ← Parse.ueUpTo "num_ref_idx_l0_default_active_minus1" 31
  let numRefIdxL1 ← Parse.ueUpTo "num_ref_idx_l1_default_active_minus1" 31
  let weightedPred ← Parse.flag
  let weightedBipredIdc ← Parse.octet 2
  let picInitQpMinus26 ← Parse.seWithin "pic_init_qp_minus26" (-62) 25
  let picInitQsMinus26 ← Parse.seWithin "pic_init_qs_minus26" (-26) 25
  let chromaQpIndexOffset ← Parse.seWithin "chroma_qp_index_offset" (-12) 12
  let deblockingFilterControlPresent ← Parse.flag
  let constrainedIntraPred ← Parse.flag
  let redundantPicCntPresent ← Parse.flag
  let extension ←
    if ← Parse.moreData then some <$> PpsExtension.parse (sets.chromaFormatIdc spsId)
    else pure none
  return {
    id := id.toUInt8
    spsId
    entropyCodingMode
    bottomFieldPicOrderInFramePresent
    sliceGroups
    numRefIdxL0DefaultActiveMinus1 := numRefIdxL0.toUInt8
    numRefIdxL1DefaultActiveMinus1 := numRefIdxL1.toUInt8
    weightedPred
    weightedBipredIdc
    picInitQpMinus26 := .ofInt picInitQpMinus26
    picInitQsMinus26 := .ofInt picInitQsMinus26
    chromaQpIndexOffset := .ofInt chromaQpIndexOffset
    deblockingFilterControlPresent
    constrainedIntraPred
    redundantPicCntPresent
    extension }

/-- The count of slice groups less one, and their map if there is more than one group. -/
def sliceGroupsCode : Option SliceGroups → Code
  | none => .ue 0
  | some g =>
    .inRange "slice_groups.num_slice_groups_minus1" 1 7 g.countMinus1.toNat ++
    .ue g.countMinus1.toNat ++
    g.code

def code (sets : ParameterSets) (p : Pps) : Code :=
  .inRange "self.seq_parameter_set_id" 0 31 p.spsId.toNat ++
  .inRange "self.num_ref_idx_l0_default_active_minus1" 0 31
    p.numRefIdxL0DefaultActiveMinus1.toNat ++
  .inRange "self.num_ref_idx_l1_default_active_minus1" 0 31
    p.numRefIdxL1DefaultActiveMinus1.toNat ++
  .ue p.id.toNat ++
  .ue p.spsId.toNat ++
  .flag p.entropyCodingMode ++
  .flag p.bottomFieldPicOrderInFramePresent ++
  sliceGroupsCode p.sliceGroups ++
  .ue p.numRefIdxL0DefaultActiveMinus1.toNat ++
  .ue p.numRefIdxL1DefaultActiveMinus1.toNat ++
  .flag p.weightedPred ++
  .u 2 p.weightedBipredIdc.toNat ++
  .se p.picInitQpMinus26.toInt ++
  .se p.picInitQsMinus26.toInt ++
  .se p.chromaQpIndexOffset.toInt ++
  .flag p.deblockingFilterControlPresent ++
  .flag p.constrainedIntraPred ++
  .flag p.redundantPicCntPresent ++
  match p.extension with
  | none => .empty
  | some e => e.code (sets.chromaFormatIdc p.spsId)

end Pps

end AvcSyntax

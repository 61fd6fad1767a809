import AvcSyntax.Proofs.Canonical.SliceFields
import AvcSyntax.Proofs.Slice.Header

/-!
# Canonical slice headers

Which fields of a slice header are coded depends on its type, on the header of its unit and on
two parameter sets. The canonical form of a header under them has the default value in each field
that is not coded, takes the counts of reference pictures that are not coded from the picture
parameter set, and has an entry in its table of weights for every active reference picture.

What a header in range was built as is read back as its canonical form, wherever in a buffer it
was built and whatever follows it there.
-/
namespace AvcSyntax

namespace SliceHeader

variable {h : SliceHeader} {nal : NalHeader} {pps : Pps} {sps : Sps}

/-- What reading checks of the coded fields and writing does not. -/
structure InRange (h : SliceHeader) (pps : Pps) (sps : Sps) : Prop where
  picOrder : h.picOrder.InRange
    (pps.bottomFieldPicOrderInFramePresent && !(!sps.frameMbsOnly && h.fieldPic))
    sps.picOrderCount
  predWeightTable : h.type.hasWeights pps = true →
    ∀ t ∈ h.predWeightTable, t.InRange sps.chromaArrayType
  qpDelta : (qpDeltaRange sps pps).1 ≤ h.qpDelta.toInt ∧
    h.qpDelta.toInt ≤ (qpDeltaRange sps pps).2
  qsDelta : h.type.isSwitching = true → -51 ≤ h.qsDelta.toInt ∧ h.qsDelta.toInt ≤ 51
  deblocking : pps.deblockingFilterControlPresent = true → h.deblocking.InRange

/-- The header as it is coded under the header of a unit and the parameter sets that it names. -/
def canonical (h : SliceHeader) (nal : NalHeader) (pps : Pps) (sps : Sps) : SliceHeader :=
  let isIdr := nal.unitType.isIdr
  let fieldPic := !sps.frameMbsOnly && h.fieldPic
  let refCounts := h.refCounts.canonical h.type pps
  { h with
    colourPlaneId := if sps.separateColourPlanes then h.colourPlaneId else 0
    fieldPic
    bottomField := fieldPic && h.bottomField
    idrPicId := if isIdr then h.idrPicId else 0
    picOrder := h.picOrder.canonical (pps.bottomFieldPicOrderInFramePresent && !fieldPic)
      sps.picOrderCount
    redundantPicCnt := if pps.redundantPicCntPresent then h.redundantPicCnt else 0
    directSpatialMvPred := h.type = .b && h.directSpatialMvPred
    refCounts
    refListModification := h.refListModification.canonical h.type
    predWeightTable :=
      if h.type.hasWeights pps then
        some ((h.predWeightTable.getD {}).canonical sps.chromaArrayType refCounts.l0Minus1
          (if h.type = .b then some refCounts.l1Minus1 else none))
      else none
    refPicMarking :=
      if nal.refIdc ≠ 0 then some (h.refPicMarking.getD (.defaultFor isIdr)) else none
    cabacInitIdc := if pps.entropyCodingMode && !h.type.isIntra then h.cabacInitIdc else 0
    spForSwitch := h.type = .sp && h.spForSwitch
    qsDelta := if h.type.isSwitching then h.qsDelta else 0
    deblocking := if pps.deblockingFilterControlPresent then h.deblocking.canonical else {}
    groupChangeCycle := if pps.sliceGroupChangeRate?.isSome then h.groupChangeCycle else 0 }

/-- Where the counts are coded, those in use are those of the canonical form. -/
theorem effectiveRefCounts_canonical (htype : h.type.hasRefCounts = true) :
    h.effectiveRefCounts pps = ((h.refCounts.canonical h.type pps).l0Minus1,
      (h.refCounts.canonical h.type pps).l1Minus1) := by
  unfold effectiveRefCounts
  by_cases hset : h.refCounts.overridden = true
  · rw [if_pos hset, RefCounts.canonical_of_overridden htype hset]
  · rw [if_neg hset, RefCounts.canonical_of_default fun hboth => hset hboth.2]

theorem changeCycleCode_kept (cycle : UInt32) :
    changeCycleCode pps sps (if pps.sliceGroupChangeRate?.isSome then cycle else 0) =
      changeCycleCode pps sps cycle := by
  unfold changeCycleCode
  cases hrate : pps.sliceGroupChangeRate? with
  | none => rfl
  | some rate => rw [Option.isSome_some, if_pos rfl]

theorem changeCycleWellFormed_kept {cycle : UInt32}
    (hcode : (changeCycleCode pps sps cycle).Writable) :
    ChangeCycleWellFormed pps sps
      (if pps.sliceGroupChangeRate?.isSome then cycle else 0) := by
  constructor
  · intro rate hrate
    rw [Option.mem_def] at hrate
    rw [changeCycleCode, hrate] at hcode
    rw [hrate, Option.isSome_some, if_pos rfl]
    exact .of_writable (fun _ => Sps.changeCycleBits_le) hcode
  · intro hrate
    rw [hrate]
    rfl

/-- The code of the weights for some counts of active reference pictures. -/
def weightsCode (h : SliceHeader) (pps : Pps) (sps : Sps) (counts : UInt8 × UInt8) : Code :=
  .onlyIf (h.hasPredWeightTable pps) ((h.predWeightTable.getD {}).code sps.chromaArrayType
    counts.1 (if h.type = .b then some counts.2 else none))

theorem weightsCode_canonical
    (hcode : (h.weightsCode pps sps (h.effectiveRefCounts pps)).Writable) :
    (h.canonical nal pps sps).weightsCode pps sps ((h.refCounts.canonical h.type pps).l0Minus1,
      (h.refCounts.canonical h.type pps).l1Minus1) =
    h.weightsCode pps sps (h.effectiveRefCounts pps) := by
  refine Code.onlyIf_congr fun hset => ?_
  have htype : h.type.hasRefCounts = true := SliceType.hasRefCounts_of_hasWeights hset
  have hsome : (h.canonical nal pps sps).predWeightTable = some _ := if_pos hset
  rw [effectiveRefCounts_canonical htype] at hcode ⊢
  rw [hsome]
  exact PredWeightTable.code_canonical (Code.writable_onlyIf.mp hcode hset).1

/-- The flags of a field picture; the second is coded only behind the first. -/
theorem fieldCode_canonical :
    Code.onlyIf (!sps.frameMbsOnly) (.flag (h.canonical nal pps sps).fieldPic ++
      .onlyIf (h.canonical nal pps sps).fieldPic
        (.flag (h.canonical nal pps sps).bottomField)) =
    Code.onlyIf (!sps.frameMbsOnly)
      (.flag h.fieldPic ++ .onlyIf h.fieldPic (.flag h.bottomField)) := by
  refine Code.onlyIf_congr fun hframe => ?_
  have hfield : (h.canonical nal pps sps).fieldPic = h.fieldPic := by
    simp only [canonical, hframe, Bool.true_and]
  have hbottom : (h.canonical nal pps sps).bottomField = (h.fieldPic && h.bottomField) := by
    rw [← hfield]
    rfl
  rw [hfield, hbottom, Code.onlyIf_flag]

/-- Nothing of a header that can be written is lost in its canonical form. -/
theorem bodyCode_canonical (hcode : (h.bodyCode nal pps sps).Writable) :
    (h.canonical nal pps sps).bodyCode nal pps sps = h.bodyCode nal pps sps := by
  rcases heff : h.effectiveRefCounts pps with ⟨l0Minus1, l1Minus1⟩
  simp only [bodyCode, heff, Code.append_assoc, Code.writable_append] at hcode
  obtain ⟨-, -, -, -, -, -, -, hcounts, -, hweights, -⟩ := hcode
  have hcounts_eq : (h.canonical nal pps sps).effectiveRefCounts pps = _ :=
    effectiveRefCounts_eq (RefCounts.wellFormed_canonical hcounts.1)
  have hfield : (!sps.frameMbsOnly && (h.canonical nal pps sps).fieldPic) =
      (!sps.frameMbsOnly && h.fieldPic) := Bool.and_self_left ..
  have hwritten : (h.weightsCode pps sps (h.effectiveRefCounts pps)).Writable := by
    rw [heff]
    exact hweights
  have htable : (h.canonical nal pps sps).weightsCode pps sps _ = _ :=
    weightsCode_canonical hwritten
  rw [heff] at htable
  simp only [bodyCode, heff, hcounts_eq, hfield, Code.append_assoc]
  refine Code.append_congr (Code.onlyIf_kept (fun n : UInt8 =>
    .inRange "self.colour_plane_id" 0 2 n.toNat ++ .u 2 n.toNat) _ _) ?_
  refine Code.append_congr rfl ?_
  refine Code.append_congr fieldCode_canonical ?_
  refine Code.append_congr (Code.onlyIf_kept (fun n : UInt32 =>
    .inRange "self.idr_pic_id" 0 65535 n.toNat ++ .ue n.toNat) _ _) ?_
  refine Code.append_congr (SlicePicOrder.code_canonical _ _ _) ?_
  refine Code.append_congr (Code.onlyIf_kept (fun n : UInt8 =>
    .inRange "self.redundant_pic_cnt" 0 127 n.toNat ++ .ue n.toNat) _ _) ?_
  refine Code.append_congr (Code.onlyIf_decide_flag _ _) ?_
  refine Code.append_congr (RefCounts.code_canonical _ _ _) ?_
  refine Code.append_congr (RefListModification.code_canonical _ _) ?_
  refine Code.append_congr htable ?_
  refine Code.append_congr (Code.onlyIf_presence
    (RefPicMarking.code · nal.unitType.isIdr) (fun _ => rfl) _ _) ?_
  refine Code.append_congr (Code.onlyIf_kept (fun n : UInt8 =>
    .inRange "self.cabac_init_idc" 0 2 n.toNat ++ .ue n.toNat) _ _) ?_
  refine Code.append_congr rfl ?_
  refine Code.append_congr (Code.onlyIf_decide_flag _ _) ?_
  refine Code.append_congr (Code.onlyIf_kept (fun n : Int32 => .se n.toInt) _ _) ?_
  refine Code.append_congr ?_ (changeCycleCode_kept _)
  refine (Code.onlyIf_kept SliceDeblocking.code _ _).trans ?_
  rw [SliceDeblocking.code_canonical]

theorem InRange.predWeightTable_getD (hrange : h.InRange pps sps)
    (hset : h.type.hasWeights pps = true) :
    (h.predWeightTable.getD {}).InRange sps.chromaArrayType := by
  cases htable : h.predWeightTable with
  | none => exact PredWeightTable.inRange_default
  | some t => exact hrange.predWeightTable hset t htable

/-- The checks on writing do the rest. -/
theorem InRange.wellFormed (hrange : h.InRange pps sps)
    (hcode : (h.bodyCode nal pps sps).Writable) :
    (h.canonical nal pps sps).WellFormed nal pps sps := by
  rcases heff : h.effectiveRefCounts pps with ⟨l0Minus1, l1Minus1⟩
  simp only [bodyCode, heff, Code.append_assoc, Code.writable_append, Code.writable_onlyIf,
    Code.writable_inRange] at hcode
  obtain ⟨hplane, hframe, -, hidr, horder, hredundant, -, hcounts, hlists, -, hmarking, hcabac,
    -, -, -, hdeblocking, hcycle⟩ := hcode
  constructor
  case colourPlaneId =>
    exact iteInduction (motive := fun n : UInt8 => n.toNat ≤ 2)
      (fun hset => Int.ofNat_le.mp (hplane hset).1.2) fun _ => by decide
  case colourPlaneId_absent => exact fun habsent => if_neg habsent
  case frameNum => exact FitsWidth.of_writable_above4 hframe
  case fieldPic =>
    intro hset
    simp only [canonical, hset, Bool.not_true, Bool.false_and]
  case bottomField =>
    intro hset
    simp only [canonical] at hset ⊢
    simp [hset]
  case idrPicId =>
    exact iteInduction (motive := fun n : UInt32 => n.toNat ≤ 65535)
      (fun hset => Int.ofNat_le.mp (hidr hset).1.2) fun _ => by decide
  case idrPicId_absent => exact fun habsent => if_neg habsent
  case picOrder => exact hrange.picOrder.wellFormed horder
  case redundantPicCnt =>
    exact iteInduction (motive := fun n : UInt8 => n.toNat ≤ 127)
      (fun hset => Int.ofNat_le.mp (hredundant hset).1.2) fun _ => by decide
  case redundantPicCnt_absent => exact fun habsent => if_neg habsent
  case directSpatialMvPred =>
    intro hb
    have hne : h.type ≠ .b := hb
    simp [canonical, hne]
  case refCounts => exact RefCounts.wellFormed_canonical hcounts.1
  case refListModification => exact RefListModification.wellFormed_canonical hlists
  case predWeightTable_isSome => exact Option.isSome_ite.symm
  case predWeightTable =>
    intro t ht
    obtain ⟨hset, hsome⟩ := Option.mem_ite_none_right.mp ht
    obtain rfl := Option.some.inj hsome
    exact (hrange.predWeightTable_getD hset).wellFormed
  case refPicMarking_isSome => exact Option.isSome_ite.symm
  case refPicMarking =>
    intro m hm
    obtain ⟨hset, hsome⟩ := Option.mem_ite_none_right.mp hm
    obtain rfl := Option.some.inj hsome
    exact RefPicMarking.wellFormed_of_writable (hmarking hset)
  case cabacInitIdc =>
    exact iteInduction (motive := fun n : UInt8 => n.toNat ≤ 2)
      (fun hset => Int.ofNat_le.mp (hcabac hset).1.2) fun _ => by decide
  case cabacInitIdc_absent => exact fun habsent => if_neg habsent
  case qpDelta => exact hrange.qpDelta
  case spForSwitch =>
    intro hsp
    have hne : h.type ≠ .sp := hsp
    simp [canonical, hne]
  case qsDelta =>
    exact iteInduction (motive := fun n : Int32 => -51 ≤ n.toInt ∧ n.toInt ≤ 51) hrange.qsDelta
      fun _ => by decide
  case qsDelta_absent => exact fun habsent => if_neg habsent
  case deblocking =>
    exact iteInduction (motive := SliceDeblocking.WellFormed)
      (fun hset => (hrange.deblocking hset).wellFormed (hdeblocking hset))
      fun _ => SliceDeblocking.wellFormed_default
  case deblocking_absent => exact fun habsent => if_neg habsent
  case groupChangeCycle => exact changeCycleWellFormed_kept hcycle

/-- What building a header takes: known parameter sets, and room for its code. -/
theorem exists_write_of_build {sets : ParameterSets} {w v : Writer}
    (hbuild : h.build nal sets w = .ok () v) :
    ∃ pps sps, sets.resolve h.ppsId = .ok (pps, sps) ∧
      (h.openingCode ++ h.bodyCode nal pps sps).write w = .ok () v := by
  obtain ⟨c, s, hcode, hwrite⟩ := bind_eq_ok.mp hbuild
  obtain ⟨hcode, rfl⟩ := liftM_eq_ok.mp hcode
  rw [code] at hcode
  cases hresolve : sets.resolve h.ppsId with
  | error e =>
    rw [hresolve] at hcode
    cases hcode
  | ok found =>
    rw [hresolve] at hcode
    cases hcode
    exact ⟨found.1, found.2, rfl, reportFaults_eq_ok.mp hwrite⟩

theorem bits_code_ne_nil (h : SliceHeader) (body : Code) : (h.openingCode ++ body).bits ≠ [] := by
  have hmax : h.firstMb.toNat ≤ ExpGolomb.maxValue := h.firstMb.toNat_lt.le.trans (by decide)
  have hlength : (Code.ue h.firstMb.toNat).bits.length = ExpGolomb.size h.firstMb.toNat :=
    ExpGolomb.length_bits_code hmax
  have hvalid : (Code.ue h.firstMb.toNat).Valid := ExpGolomb.valid_code hmax
  rw [openingCode, Code.append_assoc, Code.append_assoc, hvalid.bits_append]
  refine List.append_ne_nil_of_left_ne_nil (List.length_pos_iff.mp ?_) _
  rw [hlength, ExpGolomb.size]
  exact Nat.succ_pos _

/-- What a header was built as are the bits of its canonical form. -/
theorem fills_of_build {sets : ParameterSets} {w v : Writer}
    (hbuild : h.build nal sets w = .ok () v) (hsets : sets.resolve h.ppsId = .ok (pps, sps))
    (hrange : h.InRange pps sps) :
    (h.canonical nal pps sps).WellFormed nal pps sps ∧
      w.Fills ((h.canonical nal pps sps).openingCode ++
        (h.canonical nal pps sps).bodyCode nal pps sps).bits v := by
  obtain ⟨_, _, hfound, hwrite⟩ := exists_write_of_build hbuild
  obtain ⟨rfl, rfl⟩ := Prod.mk.inj (Except.ok.inj (hsets.symm.trans hfound))
  have hbody := (Code.writable_append.mp (Code.writable_of_write hwrite)).2
  have hwf := hrange.wellFormed hbody
  have hvalid := valid_code (h := h.canonical nal pps sps) hsets hwf
  rw [bodyCode_canonical hbody] at hvalid ⊢
  exact ⟨hwf, hvalid.fills_of_write hwrite⟩

/-- A header that was built is read back as its canonical form by any reader that stands where it
was written, provided that what only reading checks is in range. Nothing behind it is read. -/
theorem parse_of_build {sets : ParameterSets} {w v : Writer}
    (hbuild : h.build nal sets w = .ok () v)
    (hrange : ∀ pps sps, sets.resolve h.ppsId = .ok (pps, sps) → h.InRange pps sps) :
    ∃ pps sps, sets.resolve h.ppsId = .ok (pps, sps) ∧
      ({ data := v.data, pos := w.pos } : Reader).Follows w v ∧
      ∀ r : Reader, r.Follows w v →
        ∃ s, parse nal sets r = .ok (h.canonical nal pps sps) s ∧ s.pos = v.pos ∧
          s.overrun = r.overrun := by
  obtain ⟨pps, sps, hsets, hwrite⟩ := exists_write_of_build hbuild
  have hbody := (Code.writable_append.mp (Code.writable_of_write hwrite)).2
  have hwf := (hrange pps sps hsets).wellFormed hbody
  have hcode : (h.canonical nal pps sps).openingCode ++
      (h.canonical nal pps sps).bodyCode nal pps sps =
      h.openingCode ++ h.bodyCode nal pps sps := by
    rw [bodyCode_canonical hbody]
    rfl
  have hreads (tail : Bits) : Reads (parse nal sets) (h.openingCode ++ h.bodyCode nal pps sps)
      tail (h.canonical nal pps sps) := hcode ▸ reads_code hsets hwf
  have hfills := (hreads []).valid.fills_of_write hwrite
  have hne := h.bits_code_ne_nil (h.bodyCode nal pps sps)
  exact ⟨pps, sps, hsets, hfills.follows hne, fun r hr => Reads.of_fills hreads hfills hne hr⟩

/-- A slice of an IDR picture that begins inside a byte. It has values in fields that are not
coded for it, fewer weights than active pictures, and no marking. -/
theorem parse_of_build_loose :
    let nal : NalHeader := ⟨3, .idrSlice⟩
    let pps : Pps := {
      numRefIdxL0DefaultActiveMinus1 := 1
      numRefIdxL1DefaultActiveMinus1 := 2
      weightedPred := true }
    let sets : ParameterSets := { sps := fun _ => some {}, pps := fun _ => some pps }
    let weight : PredWeight := { luma := some { weight := 3, offset := -1 } }
    let loose : SliceHeader := {
      colourPlaneId := 2
      fieldPic := true
      idrPicId := 1
      directSpatialMvPred := true
      refCounts := { l0Minus1 := 9, l1Minus1 := 4 }
      predWeightTable := some { lumaLog2WeightDenom := 5, l0 := [weight] }
      cabacInitIdc := 9
      qpDelta := -2
      deblocking := { disableIdc := 3 } }
    let tight : SliceHeader := {
      idrPicId := 1
      refCounts := { l0Minus1 := 1, l1Minus1 := 2 }
      predWeightTable := some { lumaLog2WeightDenom := 5, l0 := [weight, {}] }
      refPicMarking := some (.idr false false)
      qpDelta := -2 }
    let w : Writer := { data := Array.replicate 6 0, pos := 3 }
    let v : Writer := { data := #[28, 16, 6, 204, 192, 80], pos := 44 }
    loose.build nal sets w = .ok () v ∧
      (∀ pps sps, sets.resolve loose.ppsId = .ok (pps, sps) → loose.InRange pps sps) ∧
      ∃ s, parse nal sets { data := v.data, pos := 3 } = .ok tight s ∧ s.pos = 44 := by
  intro nal pps sets weight loose tight w v
  have hbuild : loose.build nal sets w = .ok () v := by cbv
  have hrange : ∀ pps sps, sets.resolve loose.ppsId = .ok (pps, sps) → loose.InRange pps sps := by
    intro pps sps hsets
    obtain ⟨rfl, rfl⟩ := Prod.mk.inj (Except.ok.inj hsets)
    constructor
    case picOrder =>
      intro hset
      cases hset
    case predWeightTable =>
      intro _ t ht
      obtain rfl := Option.some.inj ht
      refine ⟨by decide, fun _ => by decide, ?_, fun _ hmem => absurd hmem List.not_mem_nil⟩
      intro found hfound
      obtain rfl := List.mem_singleton.mp hfound
      refine ⟨?_, fun _ c hc => absurd hc (Option.not_mem_none c)⟩
      intro o ho
      obtain rfl := Option.some.inj ho
      exact ⟨by decide, by decide⟩
    case qpDelta => decide
    case qsDelta =>
      intro hset
      cases hset
    case deblocking =>
      intro hset
      cases hset
  obtain ⟨_, _, hsets, hself, hread⟩ := parse_of_build hbuild hrange
  obtain ⟨rfl, rfl⟩ := Prod.mk.inj (Except.ok.inj hsets)
  have htight : loose.canonical nal pps {} = tight := by decide
  obtain ⟨s, hs, hpos, -⟩ := hread _ hself
  exact ⟨hbuild, hrange, s, htight ▸ hs, hpos⟩

end SliceHeader

end AvcSyntax

import AvcSyntax.Proofs.Pps
import AvcSyntax.Proofs.Slice.Fields
import AvcSyntax.Proofs.Slice.Operations
import AvcSyntax.Proofs.Slice.PredWeightTable
import AvcSyntax.Proofs.Sps

/-!
# Slice headers are read back

Which fields a slice header has depends on the header of its unit and on the parameter sets that
it names. Under the same ones, a header that reading yields is read back from its code, which is
the only one it has.

The change of the quantiser is kept in a word of 32 bits. That is wide enough for the range that
well formed parameter sets leave it, which is why they are asked for where a header is read.
-/
namespace AvcSyntax

variable {tail : Bits}

/-- The smallest and the largest quantiser change, as numbers of any size. -/
def qpDeltaRange (sps : Sps) (pps : Pps) : Int × Int :=
  let depthOffset : Int :=
    match sps.sampleFormat with
    | some f => 6 * f.bitDepthLumaMinus8.toNat
    | none => 0
  let initial := 26 + pps.picInitQpMinus26.toInt
  (-depthOffset - initial, 51 - initial)

/-- No step towards them leaves its word, whatever the parameter sets say. -/
theorem qpDeltaLimits_eq (sps : Sps) (pps : Pps) :
    qpDeltaLimits sps pps = .ok (qpDeltaRange sps pps) := by
  have hlow := pps.picInitQpMinus26.le_toInt
  have hhigh := pps.picInitQpMinus26.toInt_lt
  have hdepth := sps.bitDepthLumaMinus8.toNat_lt
  have hrange : qpDeltaRange sps pps =
      (-(6 * sps.bitDepthLumaMinus8.toNat) - (26 + pps.picInitQpMinus26.toInt),
        51 - (26 + pps.picInitQpMinus26.toInt)) := by
    rw [qpDeltaRange, Sps.bitDepthLumaMinus8]
    cases sps.sampleFormat <;> rfl
  rw [hrange, qpDeltaLimits]
  generalize pps.picInitQpMinus26.toInt = quantiser at hlow hhigh
  generalize sps.bitDepthLumaMinus8.toNat = depth at hdepth
  rw [intWord_eq (n := 6 * depth) (by omega) (by omega), ok_bind,
    intWord_eq (n := 26 + quantiser) (by omega) (by omega), ok_bind,
    intWord_eq (n := -(6 * depth)) (by omega) (by omega), ok_bind,
    intWord_eq (n := -(6 * depth) - (26 + quantiser)) (by omega) (by omega), ok_bind,
    intWord_eq (n := 51 - (26 + quantiser)) (by omega) (by omega)]
  rfl

/-- Whether every change of the quantiser that is allowed fits its word. -/
def QpDeltaFits (pps : Pps) (sps : Sps) : Prop :=
  -2 ^ 31 ≤ (qpDeltaRange sps pps).1 ∧ (qpDeltaRange sps pps).2 < 2 ^ 31

theorem qpDeltaFits {pps : Pps} {sps : Sps} {chromaFormatIdc : UInt8}
    (hpps : pps.WellFormed chromaFormatIdc) (hsps : sps.WellFormed) : QpDeltaFits pps sps := by
  obtain ⟨hlow, hhigh⟩ := hpps.picInitQpMinus26
  simp only [QpDeltaFits, qpDeltaRange]
  rcases hformat : sps.sampleFormat with _ | f
  · simp only
    omega
  · have hdepth := (hsps.sampleFormat f hformat).bitDepthLumaMinus8
    simp only
    omega

/-- Whatever the parameter sets say, every change that is allowed has a code. -/
theorem qpDeltaRange_bounds (pps : Pps) (sps : Sps) :
    -(2 ^ 32 - 1) ≤ (qpDeltaRange sps pps).1 ∧ (qpDeltaRange sps pps).2 ≤ 2 ^ 32 - 1 := by
  have hlow := pps.picInitQpMinus26.le_toInt
  have hhigh := pps.picInitQpMinus26.toInt_lt
  simp only [qpDeltaRange]
  rcases sps.sampleFormat with _ | f
  · simp only
    omega
  · have hdepth := f.bitDepthLumaMinus8.toNat_lt
    simp only
    omega

theorem SliceType.hasRefCounts_of_hasWeights {type : SliceType} {pps : Pps}
    (h : type.hasWeights pps = true) : type.hasRefCounts = true := by
  cases type <;> simp_all [hasWeights, hasRefCounts]

namespace SliceHeader

structure ChangeCycleWellFormed (pps : Pps) (sps : Sps) (cycle : UInt32) : Prop where
  fits : ∀ rate ∈ pps.sliceGroupChangeRate?, FitsWidth (sps.changeCycleBits rate) cycle.toNat
  absent : pps.sliceGroupChangeRate? = none → cycle = 0

/-- What reading can yield under the header of a unit and the parameter sets that a slice names.
A field that is not coded has its default value. -/
structure WellFormed (h : SliceHeader) (nal : NalHeader) (pps : Pps) (sps : Sps) : Prop where
  colourPlaneId : h.colourPlaneId.toNat ≤ 2
  colourPlaneId_absent : ¬sps.separateColourPlanes = true → h.colourPlaneId = 0
  frameNum : FitsWidth (frameNumBits sps) h.frameNum.toNat
  fieldPic : sps.frameMbsOnly = true → h.fieldPic = false
  bottomField : ¬h.fieldPic = true → h.bottomField = false
  idrPicId : h.idrPicId.toNat ≤ 65535
  idrPicId_absent : ¬nal.unitType.isIdr = true → h.idrPicId = 0
  picOrder : h.picOrder.WellFormed (pps.bottomFieldPicOrderInFramePresent && !h.fieldPic)
    sps.picOrderCount
  redundantPicCnt : h.redundantPicCnt.toNat ≤ 127
  redundantPicCnt_absent : ¬pps.redundantPicCntPresent = true → h.redundantPicCnt = 0
  directSpatialMvPred : h.type ≠ .b → h.directSpatialMvPred = false
  refCounts : h.refCounts.WellFormed h.type pps
  refListModification : h.refListModification.WellFormed h.type
  predWeightTable_isSome : h.type.hasWeights pps = true ↔ h.predWeightTable.isSome = true
  predWeightTable : ∀ t ∈ h.predWeightTable, t.WellFormed sps.chromaArrayType
    h.refCounts.l0Minus1 (if h.type = .b then some h.refCounts.l1Minus1 else none)
  refPicMarking_isSome : nal.refIdc ≠ 0 ↔ h.refPicMarking.isSome = true
  refPicMarking : ∀ m ∈ h.refPicMarking, m.WellFormed nal.unitType.isIdr
  cabacInitIdc : h.cabacInitIdc.toNat ≤ 2
  cabacInitIdc_absent : ¬(pps.entropyCodingMode && !h.type.isIntra) = true → h.cabacInitIdc = 0
  qpDelta : (qpDeltaRange sps pps).1 ≤ h.qpDelta.toInt ∧
    h.qpDelta.toInt ≤ (qpDeltaRange sps pps).2
  spForSwitch : h.type ≠ .sp → h.spForSwitch = false
  qsDelta : -51 ≤ h.qsDelta.toInt ∧ h.qsDelta.toInt ≤ 51
  qsDelta_absent : ¬h.type.isSwitching = true → h.qsDelta = 0
  deblocking : h.deblocking.WellFormed
  deblocking_absent : ¬pps.deblockingFilterControlPresent = true → h.deblocking = {}
  groupChangeCycle : ChangeCycleWellFormed pps sps h.groupChangeCycle

variable {h : SliceHeader} {nal : NalHeader} {pps : Pps} {sps : Sps}

theorem effectiveRefCounts_eq (hcounts : h.refCounts.WellFormed h.type pps) :
    h.effectiveRefCounts pps = (h.refCounts.l0Minus1, h.refCounts.l1Minus1) := by
  unfold effectiveRefCounts
  by_cases hset : h.refCounts.overridden = true
  · rw [if_pos hset]
    by_cases hb : h.type = .b
    · rw [if_pos hb]
    · rw [if_neg hb, hcounts.l1Minus1_eq fun hboth => hb hboth.2]
  · rw [if_neg hset, hcounts.l0Minus1_eq (by simpa using hset),
      hcounts.l1Minus1_eq fun hboth => hset hboth.1]

/-- Without the checks, which hold, and with the counts in place. -/
theorem bodyCode_eq (hwf : h.WellFormed nal pps sps) :
    h.bodyCode nal pps sps =
      .onlyIf sps.separateColourPlanes (.u 2 h.colourPlaneId.toNat) ++
      .sized (frameNumBits sps) h.frameNum.toNat ++
      .onlyIf (!sps.frameMbsOnly) (.flag h.fieldPic) ++
      .onlyIf h.fieldPic (.flag h.bottomField) ++
      .onlyIf nal.unitType.isIdr (.ue h.idrPicId.toNat) ++
      h.picOrder.code sps.picOrderCount (pps.bottomFieldPicOrderInFramePresent && !h.fieldPic) ++
      .onlyIf pps.redundantPicCntPresent (.ue h.redundantPicCnt.toNat) ++
      .onlyIf (h.type = .b) (.flag h.directSpatialMvPred) ++
      h.refCounts.code h.type ++
      h.refListModification.code h.type ++
      .onlyIf (h.type.hasWeights pps) ((h.predWeightTable.getD {}).code sps.chromaArrayType
        h.refCounts.l0Minus1 (if h.type = .b then some h.refCounts.l1Minus1 else none)) ++
      .onlyIf (nal.refIdc ≠ 0)
        ((h.refPicMarking.getD (.defaultFor nal.unitType.isIdr)).code nal.unitType.isIdr) ++
      .onlyIf (pps.entropyCodingMode && !h.type.isIntra) (.ue h.cabacInitIdc.toNat) ++
      .se h.qpDelta.toInt ++
      .onlyIf (h.type = .sp) (.flag h.spForSwitch) ++
      .onlyIf h.type.isSwitching (.se h.qsDelta.toInt) ++
      .onlyIf pps.deblockingFilterControlPresent h.deblocking.code ++
      changeCycleCode pps sps h.groupChangeCycle := by
  have hplane := hwf.colourPlaneId
  have hidr := hwf.idrPicId
  have hredundant := hwf.redundantPicCnt
  have hcabac := hwf.cabacInitIdc
  have hplane : Code.inRange "self.colour_plane_id" 0 2 h.colourPlaneId.toNat = .empty :=
    Code.inRange_eq_empty (by omega) (by omega)
  have hidr : Code.inRange "self.idr_pic_id" 0 65535 h.idrPicId.toNat = .empty :=
    Code.inRange_eq_empty (by omega) (by omega)
  have hredundant : Code.inRange "self.redundant_pic_cnt" 0 127 h.redundantPicCnt.toNat =
      .empty := Code.inRange_eq_empty (by omega) (by omega)
  have hcabac : Code.inRange "self.cabac_init_idc" 0 2 h.cabacInitIdc.toNat = .empty :=
    Code.inRange_eq_empty (by omega) (by omega)
  have hfield : (!sps.frameMbsOnly && h.fieldPic) = h.fieldPic := by
    cases hframe : sps.frameMbsOnly with
    | false => rfl
    | true => rw [hwf.fieldPic hframe]; rfl
  have hflags : Code.onlyIf (!sps.frameMbsOnly)
      (.flag h.fieldPic ++ .onlyIf h.fieldPic (.flag h.bottomField)) =
      .onlyIf (!sps.frameMbsOnly) (.flag h.fieldPic) ++
        .onlyIf h.fieldPic (.flag h.bottomField) :=
    Code.onlyIf_append_onlyIf (fun hframe => hwf.fieldPic (by simpa using hframe)) _ _
  simp only [bodyCode, effectiveRefCounts_eq hwf.refCounts, hplane, hidr, hredundant, hcabac,
    hfield, hflags, Code.empty_append, Code.append_assoc, hasPredWeightTable]

theorem reads_colourPlane {n : Nat} (hn : n ≤ 2) : Reads parseColourPlane (.u 2 n) tail n := by
  rw [← Code.append_empty (.u 2 n)]
  exact (Parse.reads_u (by decide) (by omega)).bind
    ((Parse.reads_inRange (by omega) (by omega)).bind_pure rfl)

theorem accepts_colourPlane : Accepts parseColourPlane fun n c => n ≤ 2 ∧ c = .u 2 n := by
  refine (Parse.accepts_u (by decide)).bind ?_
  rintro n _ ⟨-, rfl⟩
  refine Parse.accepts_inRange.bind ?_
  rintro - _ ⟨⟨-, hn⟩, rfl⟩
  exact Accepts.pure ⟨by omega, Code.append_empty _⟩

theorem reads_changeCycle {cycle : UInt32} (h : ChangeCycleWellFormed pps sps cycle) :
    Reads (parseChangeCycle pps sps) (changeCycleCode pps sps cycle) tail cycle.toNat := by
  rw [parseChangeCycle, changeCycleCode]
  cases hrate : pps.sliceGroupChangeRate? with
  | none =>
    rw [h.absent hrate]
    exact Reads.pure 0
  | some rate => exact Parse.reads_sized (h.fits rate hrate)

theorem accepts_changeCycle :
    Accepts (parseChangeCycle pps sps) fun n c => ∃ cycle : UInt32, n = cycle.toNat ∧
      ChangeCycleWellFormed pps sps cycle ∧ c = changeCycleCode pps sps cycle := by
  simp only [parseChangeCycle, changeCycleCode]
  cases hrate : pps.sliceGroupChangeRate? with
  | none => exact Accepts.pure ⟨0, rfl, ⟨by simp [hrate], fun _ => rfl⟩, rfl⟩
  | some rate =>
    apply (Parse.accepts_sized fun _ => Sps.changeCycleBits_le).mono
    rintro n _ ⟨hfits, rfl⟩
    have hword : n.toUInt32.toNat = n := hfits.toNat_toUInt32
    exact ⟨n.toUInt32, hword.symm, ⟨by simpa [hrate, hword] using hfits, by simp [hrate]⟩,
      by rw [hword]⟩

/-- What is read of a header before any parameter set is needed. -/
def opening (h : SliceHeader) : SliceHeader :=
  { firstMb := h.firstMb, type := h.type, allSlicesSameType := h.allSlicesSameType
    ppsId := h.ppsId }

theorem reads_body (hwf : h.WellFormed nal pps sps) :
    Reads (parseBody nal pps sps h.opening) (h.bodyCode nal pps sps) tail h := by
  rw [bodyCode_eq hwf]
  simp only [Code.append_assoc]
  simp only [parseBody, ite_bind]
  refine (Reads.onlyIf (fun _ => reads_colourPlane hwf.colourPlaneId) fun habsent => ?_).bind ?_
  · rw [hwf.colourPlaneId_absent habsent]
    rfl
  rw [← bind_assoc]
  refine (Parse.reads_sized hwf.frameNum).bind ?_
  refine (Reads.unless (fun _ => Parse.reads_flag _) hwf.fieldPic).bind ?_
  refine (Reads.onlyIf (fun _ => Parse.reads_flag _) hwf.bottomField).bind ?_
  refine (Reads.onlyIf (fun _ => Parse.reads_ueUpTo hwf.idrPicId) fun habsent => ?_).bind ?_
  · rw [hwf.idrPicId_absent habsent]
    rfl
  refine (SlicePicOrder.reads_code hwf.picOrder).bind ?_
  refine (Reads.onlyIf (fun _ => Parse.reads_ueUpTo hwf.redundantPicCnt)
    fun habsent => ?_).bind ?_
  · rw [hwf.redundantPicCnt_absent habsent]
    rfl
  refine (Reads.onlyIf (fun _ => Parse.reads_flag _) hwf.directSpatialMvPred).bind ?_
  refine (RefCounts.reads_code hwf.refCounts).bind ?_
  refine (RefListModification.reads_code hwf.refListModification).bind ?_
  refine (Reads.presence hwf.predWeightTable_isSome
    (fun t ht => PredWeightTable.reads_code (hwf.predWeightTable t ht)) {}).bind ?_
  refine (Reads.presence hwf.refPicMarking_isSome
    (fun m hm => RefPicMarking.reads_code (hwf.refPicMarking m hm)) _).bind ?_
  refine (Reads.onlyIf (fun _ => Parse.reads_ueUpTo hwf.cabacInitIdc) fun habsent => ?_).bind ?_
  · rw [hwf.cabacInitIdc_absent habsent]
    rfl
  rw [check_bind (qpDeltaLimits_eq sps pps)]
  refine (Parse.reads_seWithin hwf.qpDelta.1 hwf.qpDelta.2 (qpDeltaRange_bounds pps sps).1
    (qpDeltaRange_bounds pps sps).2).bind ?_
  refine (Reads.onlyIf (fun _ => Parse.reads_flag _) hwf.spForSwitch).bind ?_
  refine (Reads.onlyIf (fun _ => Parse.reads_seWithin hwf.qsDelta.1 hwf.qsDelta.2)
    fun habsent => ?_).bind ?_
  · rw [hwf.qsDelta_absent habsent]
    rfl
  refine (Reads.onlyIf (fun _ => SliceDeblocking.reads_code hwf.deblocking)
    hwf.deblocking_absent).bind ?_
  refine (reads_changeCycle hwf.groupChangeCycle).bind_pure ?_
  simp only [opening, Nat.toUInt8, UInt8.ofNat_toNat, Nat.toUInt32, UInt32.ofNat_toNat,
    Int32.ofInt_toInt]

/-- Nothing else is read behind an opening. -/
theorem accepts_body (hfits : QpDeltaFits pps sps) (opening : SliceHeader) :
    Accepts (parseBody nal pps sps opening) fun h c =>
      h.WellFormed nal pps sps ∧ h.opening = opening.opening ∧ c = h.bodyCode nal pps sps := by
  simp only [parseBody, ite_bind]
  refine Accepts.bind (Accepts.onlyIf8 fun _ => accepts_colourPlane) ?_
  rintro _ _ ⟨plane, rfl, hplane, hplane_absent, rfl⟩
  rw [← bind_assoc]
  refine Accepts.bind Parse.accepts_sizedAbove4 ?_
  rintro frameNum _ ⟨hframeNum, rfl⟩
  refine (Accepts.unless fun _ => Parse.accepts_flag.always).bind ?_
  rintro fieldPic _ ⟨⟨-, hfieldPic⟩, rfl⟩
  refine (Accepts.onlyIf fun _ => Parse.accepts_flag.always).bind ?_
  rintro bottomField _ ⟨⟨-, hbottomField⟩, rfl⟩
  refine Accepts.bind (Accepts.onlyIf32 fun _ => Parse.accepts_ueUpTo) ?_
  rintro _ _ ⟨idrPicId, rfl, hidrPicId, hidrPicId_absent, rfl⟩
  refine (SlicePicOrder.accepts_parse _).bind ?_
  rintro picOrder _ ⟨hpicOrder, rfl⟩
  refine Accepts.bind (Accepts.onlyIf8 fun _ => Parse.accepts_ueUpTo) ?_
  rintro _ _ ⟨redundant, rfl, hredundant, hredundant_absent, rfl⟩
  refine (Accepts.onlyIf fun _ => Parse.accepts_flag.always).bind ?_
  rintro direct _ ⟨⟨-, hdirect⟩, rfl⟩
  refine RefCounts.accepts_parse.bind ?_
  rintro refCounts _ ⟨hrefCounts, rfl⟩
  refine (RefListModification.accepts_parse _).bind ?_
  rintro modification _ ⟨hmodification, rfl⟩
  refine (Accepts.presence (fun _ => PredWeightTable.accepts_parse) {}).bind ?_
  rintro weights _ ⟨hweights_isSome, hweights, rfl⟩
  refine (Accepts.presence (fun _ => RefPicMarking.accepts_parse _)
    (.defaultFor nal.unitType.isIdr)).bind ?_
  rintro marking _ ⟨hmarking_isSome, hmarking, rfl⟩
  refine Accepts.bind (Accepts.onlyIf8 fun _ => Parse.accepts_ueUpTo) ?_
  rintro _ _ ⟨cabac, rfl, hcabac, hcabac_absent, rfl⟩
  rw [check_bind (qpDeltaLimits_eq sps pps)]
  refine Accepts.bind (Parse.accepts_seWithin32 hfits.1 hfits.2) ?_
  rintro _ _ ⟨qpDelta, rfl, hqpDelta, rfl⟩
  refine (Accepts.onlyIf fun _ => Parse.accepts_flag.always).bind ?_
  rintro spForSwitch _ ⟨⟨-, hspForSwitch⟩, rfl⟩
  refine Accepts.bind (Accepts.onlyIfInt32 fun _ => Parse.accepts_seWithin) ?_
  rintro _ _ ⟨qsDelta, rfl, hqsDelta, hqsDelta_absent, rfl⟩
  refine (Accepts.onlyIf fun _ => SliceDeblocking.accepts_parse).bind ?_
  rintro deblocking _ ⟨⟨hdeblocking, hdeblocking_absent⟩, rfl⟩
  refine accepts_changeCycle.bind ?_
  rintro _ _ ⟨cycle, rfl, hcycle, rfl⟩
  have hword : frameNum.toUInt32.toNat = frameNum := hframeNum.toNat_toUInt32
  simp only [Nat.toUInt8, UInt8.ofNat_toNat, Nat.toUInt32, UInt32.ofNat_toNat, Int32.ofInt_toInt]
  have hdeblocking_wf : deblocking.WellFormed := by
    by_cases hset : pps.deblockingFilterControlPresent = true
    · exact hdeblocking hset
    · exact hdeblocking_absent hset ▸ SliceDeblocking.wellFormed_default
  refine Accepts.pure ((and_iff_left_of_imp fun hwf => ⟨rfl, ?_⟩).mpr ?_)
  · exact ⟨hplane, hplane_absent, hword.symm ▸ hframeNum, hfieldPic, hbottomField, hidrPicId,
      hidrPicId_absent, hpicOrder, hredundant, hredundant_absent, hdirect, hrefCounts,
      hmodification, hweights_isSome, hweights, hmarking_isSome, hmarking, hcabac, hcabac_absent,
      hqpDelta, hspForSwitch, hqsDelta, hqsDelta_absent, hdeblocking_wf, hdeblocking_absent,
      hcycle⟩
  · rw [bodyCode_eq hwf]
    simp only [Code.append_assoc, Code.append_empty, hword]
    rfl

theorem reads_opening (h : SliceHeader) : Reads parseOpening h.openingCode tail h.opening := by
  have hfirst := h.firstMb.toNat_lt
  have hpps := h.ppsId.toNat_lt
  simp only [openingCode, Code.append_assoc]
  refine (Parse.reads_ueUpTo (by omega)).bind ?_
  obtain ⟨code, hle, hcode, htype⟩ := h.type.exists_toCode h.allSlicesSameType
  rw [Code.checked_eq hcode]
  refine (Parse.reads_ue (hle.trans (by decide))).bind ?_
  apply (Reads.ofExcept htype).look
  refine (Parse.reads_ueUpTo (by omega)).bind_pure ?_
  simp only [opening, Nat.toUInt8, UInt8.ofNat_toNat, Nat.toUInt32, UInt32.ofNat_toNat]

theorem accepts_opening :
    Accepts parseOpening fun o c => o.opening = o ∧ c = o.openingCode := by
  refine Accepts.bind Parse.accepts_ueUpTo32 ?_
  rintro _ _ ⟨firstMb, rfl, -, rfl⟩
  refine Parse.accepts_ue.bind ?_
  rintro type _ ⟨-, rfl⟩
  refine (Accepts.ofExcept _).bind ?_
  rintro ⟨type, allSlices⟩ _ ⟨htype, rfl⟩
  refine Accepts.bind Parse.accepts_ueUpTo8 ?_
  rintro _ _ ⟨ppsId, rfl, -, rfl⟩
  simp only [Nat.toUInt8, UInt8.ofNat_toNat, Nat.toUInt32, UInt32.ofNat_toNat]
  refine Accepts.pure ⟨rfl, ?_⟩
  simp only [openingCode, Code.checked_eq (SliceType.toCode_of_ofCode htype), Code.append_assoc,
    Code.append_empty, Code.empty_append]

variable {sets : ParameterSets}

theorem reads_code (hsets : sets.resolve h.ppsId = .ok (pps, sps))
    (hwf : h.WellFormed nal pps sps) :
    Reads (parse nal sets) (h.openingCode ++ h.bodyCode nal pps sps) tail h := by
  refine (reads_opening h).report.bind ?_
  exact (Reads.ofExcept hsets).look (reads_body hwf).report

theorem valid_code (hsets : sets.resolve h.ppsId = .ok (pps, sps))
    (hwf : h.WellFormed nal pps sps) : (h.openingCode ++ h.bodyCode nal pps sps).Valid :=
  (reads_code hsets hwf : Reads (parse nal sets) _ [] h).valid

theorem accepts_parse (hfits : ∀ id pps sps, sets.resolve id = .ok (pps, sps) →
    QpDeltaFits pps sps) :
    Accepts (parse nal sets) fun h c => ∃ pps sps, sets.resolve h.ppsId = .ok (pps, sps) ∧
      h.WellFormed nal pps sps ∧ c = h.openingCode ++ h.bodyCode nal pps sps := by
  refine accepts_opening.report.bind ?_
  rintro o _ ⟨ho, rfl⟩
  refine (Accepts.ofExcept _).bind ?_
  rintro ⟨pps, sps⟩ _ ⟨hsets, rfl⟩
  apply (accepts_body (hfits _ _ _ hsets) o).report.mono
  rintro h _ ⟨hwf, hopening, rfl⟩
  rw [ho] at hopening
  subst hopening
  exact ⟨pps, sps, hsets, hwf, by rw [Code.empty_append]; rfl⟩

/-- With a table of weights there are at most 32 active pictures a list, or writing stops. -/
theorem effectiveRefCounts_le (hfault : (h.refCounts.code h.type).fault = none)
    (hl0 : pps.numRefIdxL0DefaultActiveMinus1.toNat ≤ 31)
    (hl1 : pps.numRefIdxL1DefaultActiveMinus1.toNat ≤ 31)
    (hweights : h.type.hasWeights pps = true) :
    (h.effectiveRefCounts pps).1.toNat ≤ 31 ∧ (h.effectiveRefCounts pps).2.toNat ≤ 31 := by
  have htype := SliceType.hasRefCounts_of_hasWeights hweights
  unfold effectiveRefCounts
  by_cases hset : h.refCounts.overridden = true
  · obtain ⟨hle0, hle1⟩ := RefCounts.le_of_fault hfault htype hset
    rw [if_pos hset]
    refine ⟨hle0, ?_⟩
    by_cases hb : h.type = .b
    · simp only [if_pos hb]
      exact hle1 hb
    · simp only [if_neg hb]
      exact hl1
  · rw [if_neg hset]
    exact ⟨hl0, hl1⟩

theorem atMost_changeCycleCode (cycle : UInt32) : (changeCycleCode pps sps cycle).AtMost 32 := by
  unfold changeCycleCode
  cases pps.sliceGroupChangeRate? with
  | none => exact Nat.zero_le _
  | some rate => exact Code.atMost_sized (fun _ => Sps.changeCycleBits_le) _

theorem atMost_bodyCode (h : SliceHeader) (nal : NalHeader) (pps : Pps) (sps : Sps)
    (hl0 : pps.numRefIdxL0DefaultActiveMinus1.toNat ≤ 31)
    (hl1 : pps.numRefIdxL1DefaultActiveMinus1.toNat ≤ 31) :
    (h.bodyCode nal pps sps).AtMost 60000 := by
  simp only [bodyCode, Code.append_assoc]
  apply Code.AtMost.next (.onlyIf fun _ => .guard fun _ _ => Code.atMost_u 2 _) (by decide)
  apply Code.AtMost.next (Code.atMost_sized (fun _ => widthAbove4_le) _) (by decide)
  refine Code.AtMost.next (.onlyIf fun _ =>
    (Code.atMost_flag _).append (.onlyIf fun _ => Code.atMost_flag _)) (by decide) ?_
  apply Code.AtMost.next (.onlyIf fun _ => .guard fun _ _ => Code.atMost_ue _) (by decide)
  apply Code.AtMost.next (h.picOrder.atMost_code _) (by decide)
  apply Code.AtMost.next (.onlyIf fun _ => .guard fun _ _ => Code.atMost_ue _) (by decide)
  apply Code.AtMost.next (.onlyIf fun _ => Code.atMost_flag _) (by decide)
  -- The table of weights is bounded only if the counts in front of it could be written.
  refine Code.AtMost.next_of (h.refCounts.atMost_code h.type) (by decide) fun hfault => ?_
  refine Code.AtMost.next (h.refListModification.atMost_code _) (by decide) ?_
  refine Code.AtMost.next (.onlyIf fun hset => ?_) (show 26000 ≤ _ by decide) ?_
  · obtain ⟨hle0, hle1⟩ := effectiveRefCounts_le hfault hl0 hl1 hset
    refine PredWeightTable.atMost_code _ hle0 fun n hn => ?_
    split at hn <;> cases hn
    exact hle1
  apply Code.AtMost.next (.onlyIf fun _ => RefPicMarking.atMost_code _ _) (by decide)
  apply Code.AtMost.next (.onlyIf fun _ => .guard fun _ _ => Code.atMost_ue _) (by decide)
  apply Code.AtMost.next (Code.atMost_se _) (by decide)
  apply Code.AtMost.next (.onlyIf fun _ => Code.atMost_flag _) (by decide)
  apply Code.AtMost.next (.onlyIf fun _ => Code.atMost_se _) (by decide)
  apply Code.AtMost.next (.onlyIf fun _ => h.deblocking.atMost_code) (by decide)
  exact (atMost_changeCycleCode _).mono (by decide)

theorem atMost_openingCode (h : SliceHeader) : h.openingCode.AtMost 195 :=
  ((Code.atMost_ue _).append (.checked fun code _ => Code.atMost_ue code)).append
    (Code.atMost_ue _)

end SliceHeader

end AvcSyntax

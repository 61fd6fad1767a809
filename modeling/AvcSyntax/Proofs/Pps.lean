import AvcSyntax.Pps.Coding
import AvcSyntax.Proofs.Nal.Trailing
import AvcSyntax.Proofs.ScalingMatrix

/-!
# Picture parameter sets are read back

Which picture parameter sets reading can yield depends on the chroma format of the sequence that
they name. In front of a stop bit the code of each of them is read back, and without a scaling
matrix that code is the only one. The extension is read exactly if it was written, for it takes
at least one bit in front of the stop bit.
-/
namespace AvcSyntax

variable {tail : Bits}

namespace SliceGroups

theorem reads_parseUInt32 (n : UInt32) : Reads parseUInt32 (.ue n.toNat) tail n := by
  have hn := n.toNat_lt
  refine (Parse.reads_ueUpTo (by omega) (by decide)).bind_pure ?_
  simp

theorem accepts_parseUInt32 : Accepts parseUInt32 fun n c => c = .ue n.toNat := by
  refine Accepts.bind Parse.accepts_ueUpTo32 ?_
  rintro _ _ ⟨n, rfl, -, rfl⟩
  simp only [Nat.toUInt32, UInt32.ofNat_toNat]
  exact Accepts.pure (Code.append_empty _)

theorem idBits_le (countMinus1 : UInt8) : idBits countMinus1 ≤ 8 := by
  have hlt := countMinus1.toNat_lt
  unfold idBits
  split
  · decide
  · rename_i hne
    have hne : countMinus1.toNat ≠ 0 := fun h => hne (UInt8.toNat_inj.mp h)
    have := (Nat.log2_lt hne).mpr hlt
    omega

end SliceGroups

/-- Whether reading can yield a map for a count of groups less one. -/
def SliceGroupMap.WellFormed (countMinus1 : UInt8) : SliceGroupMap → Prop
  | .interleaved runs => runs.length = countMinus1.toNat + 1
  | .dispersed => True
  | .foreground topLeft bottomRight =>
    topLeft.length = countMinus1.toNat ∧ bottomRight.length = countMinus1.toNat
  | .changing type _ _ => 3 ≤ type.toNat ∧ type.toNat ≤ 5
  | .explicit ids =>
    (1 ≤ ids.length ∧ ids.length ≤ SliceGroups.maxMapUnits) ∧
      ∀ id ∈ ids, id.toNat < 2 ^ SliceGroups.idBits countMinus1

namespace SliceGroups

structure WellFormed (g : SliceGroups) : Prop where
  countMinus1_pos : 1 ≤ g.countMinus1.toNat
  countMinus1_le : g.countMinus1.toNat ≤ 7
  map : g.map.WellFormed g.countMinus1

theorem type_le {count : UInt8} {map : SliceGroupMap} (h : map.WellFormed count) :
    map.type.toNat ≤ 6 := by
  cases map with
  | changing type _ _ => exact h.2.trans (by decide)
  | _ => simp [SliceGroupMap.type]

theorem reads_map {count : UInt8} {map : SliceGroupMap} (h : map.WellFormed count) :
    Reads (parse count) (.ue map.type.toNat ++ mapCode count.toNat map) tail ⟨count, map⟩ := by
  refine (Parse.reads_ueUpTo (type_le h)).bind ?_
  cases map with
  | interleaved runs =>
    have hruns : runs.length = count.toNat + 1 := h
    refine Reads.check ?_ (by omega) (by omega)
    have htimes : Reads (Parse.times (count.toNat + 1) parseUInt32)
        (.concat (runs.map fun run => .ue run.toNat)) tail runs :=
      hruns ▸ Parse.reads_times fun n _ _ => reads_parseUInt32 n
    exact htimes.bind_pure rfl
  | dispersed => exact Reads.pure _
  | foreground topLeft bottomRight =>
    obtain ⟨htop, hbottom⟩ := h
    have hcorners : (topLeft.zip bottomRight).length = count.toNat := by
      rw [List.length_zip, htop, hbottom, Nat.min_self]
    simp only [mapCode, Code.append_assoc]
    refine Reads.check (Reads.check ?_ (by omega) (by omega)) (by omega) (by omega)
    have hcorner (c : UInt32 × UInt32) (tail : Bits) :
        Reads (do return (← parseUInt32, ← parseUInt32)) (.ue c.1.toNat ++ .ue c.2.toNat) tail c :=
      (reads_parseUInt32 c.1).bind ((reads_parseUInt32 c.2).bind_pure rfl)
    have htimes : Reads (Parse.times count.toNat do return (← parseUInt32, ← parseUInt32))
        (.concat ((topLeft.zip bottomRight).map fun c => .ue c.1.toNat ++ .ue c.2.toNat)) tail
        (topLeft.zip bottomRight) :=
      hcorners ▸ Parse.reads_times fun c _ tail => hcorner c tail
    refine htimes.bind_pure ?_
    rw [List.map_fst_zip (by omega), List.map_snd_zip (by omega)]
  | changing type direction rate =>
    have htype : type.toNat = 3 ∨ type.toNat = 4 ∨ type.toNat = 5 := by
      obtain ⟨hlow, hhigh⟩ := h
      omega
    have hrest : Reads
        (do
          let direction ← Parse.flag
          let rate ← parseUInt32
          pure (⟨count, .changing type.toNat.toUInt8 direction rate⟩ : SliceGroups))
        (mapCode count.toNat (.changing type direction rate)) tail
        ⟨count, .changing type direction rate⟩ := by
      simp only [mapCode, Code.append_assoc]
      refine Reads.check ?_ (by omega) (by omega)
      refine (Parse.reads_flag _).bind ((reads_parseUInt32 rate).bind_pure ?_)
      simp
    simp only [SliceGroupMap.type]
    rcases htype with htype | htype | htype <;> rw [htype] at hrest ⊢ <;> exact hrest
  | explicit ids =>
    obtain ⟨⟨hpos, hle⟩, hids⟩ := h
    have hwidth := idBits_le count
    have hcount : ids.length - 1 + 1 = ids.length := by omega
    have hgroups : count.toNat.toUInt8 = count := by simp
    simp only [mapCode, hgroups, ← Code.concat_u, Code.append_assoc]
    refine Reads.check ?_ (by omega) (by omega)
    have hsize : ids.length - 1 ≤ maxMapUnits - 1 := by omega
    have hids : Reads (Parse.times (ids.length - 1 + 1) (Parse.octet (idBits count)))
        (.concat (ids.map fun id => .u (idBits count) id.toNat)) tail ids :=
      hcount.symm ▸ Parse.reads_times fun id hid _ => Parse.reads_octet (by omega) (hids id hid)
    exact (Parse.reads_ueUpTo hsize (by decide)).bind (hids.bind_pure rfl)

theorem reads_code {g : SliceGroups} (h : g.WellFormed) :
    Reads (parse g.countMinus1) g.code tail g := reads_map h.map

theorem accepts_parse (count : UInt8) : Accepts (parse count) fun g c =>
    g.countMinus1 = count ∧ g.map.WellFormed count ∧ c = g.code := by
  refine Parse.accepts_ueUpTo.bind ?_
  rintro type _ ⟨htype, rfl⟩
  match type with
  | 0 =>
    refine (Parse.accepts_times accepts_parseUInt32.always _).bind ?_
    rintro runs _ ⟨hruns, -, rfl⟩
    refine Accepts.pure ⟨rfl, hruns, ?_⟩
    simp only [code, mapCode, Code.append_empty]
    rw [Code.inRange_eq_empty (by omega) (by omega), Code.empty_append]
    rfl
  | 1 => exact Accepts.pure ⟨rfl, trivial, rfl⟩
  | 2 =>
    have hcorner : Accepts (do return (← parseUInt32, ← parseUInt32) : Parse (UInt32 × UInt32))
        fun c d => True ∧ d = Code.ue c.1.toNat ++ .ue c.2.toNat := by
      refine accepts_parseUInt32.bind ?_
      rintro topLeft _ rfl
      refine accepts_parseUInt32.bind ?_
      rintro bottomRight _ rfl
      exact Accepts.pure ⟨trivial, by rw [Code.append_empty]⟩
    refine (Parse.accepts_times hcorner _).bind ?_
    rintro corners _ ⟨hcorners, -, rfl⟩
    have hzip : (corners.map Prod.fst).zip (corners.map Prod.snd) = corners := by
      rw [List.zip_map']
      exact List.map_id _
    refine Accepts.pure ⟨rfl, ⟨by simpa using hcorners, by simpa using hcorners⟩, ?_⟩
    simp only [code, mapCode, hzip, List.length_map, Code.append_empty]
    rw [Code.inRange_eq_empty (by omega) (by omega), Code.inRange_eq_empty (by omega) (by omega),
      Code.empty_append, Code.empty_append]
    rfl
  | 6 =>
    refine Parse.accepts_ueUpTo.bind ?_
    rintro sizeMinus1 _ ⟨hsize, rfl⟩
    refine (Parse.accepts_times (Parse.accepts_octet (idBits_le count)) _).bind ?_
    rintro ids _ ⟨hids, hfit, rfl⟩
    have hpos : 0 < maxMapUnits := by decide
    have hgroups : count.toNat.toUInt8 = count := by simp
    have hminus : ids.length - 1 = sizeMinus1 := by omega
    refine Accepts.pure ⟨rfl, ⟨⟨by omega, by omega⟩, hfit⟩, ?_⟩
    simp only [code, mapCode, hgroups, ← Code.concat_u, hminus, Code.append_assoc,
      Code.append_empty]
    rw [Code.inRange_eq_empty (by omega) (by omega), Code.empty_append]
    rfl
  | 3 | 4 | 5 =>
    refine Parse.accepts_flag.bind ?_
    rintro direction _ rfl
    refine accepts_parseUInt32.bind ?_
    rintro rate _ rfl
    refine Accepts.pure ⟨rfl, ⟨by decide, by decide⟩, ?_⟩
    simp only [code, mapCode, Code.append_assoc, Code.append_empty]
    rw [Code.inRange_eq_empty (by decide) (by decide), Code.empty_append]
    rfl

/-- Only the numbers of an explicit map have no fixed bound. -/
theorem atMost_code (g : SliceGroups) : g.code.AtMost (34000 + 8 * g.explicitMapSize) := by
  obtain ⟨count, map⟩ := g
  have hcount := count.toNat_lt
  have hmap : (mapCode count.toNat map).AtMost
      (33900 + 8 * explicitMapSize { countMinus1 := count, map }) := by
    cases map with
    | interleaved runs =>
      refine Code.AtMost.guard fun _ hruns => ?_
      have hconcat := Code.AtMost.concat fun (n : UInt32) (_ : n ∈ runs) => Code.atMost_ue n.toNat
      exact hconcat.mono (by omega)
    | dispersed => exact Nat.zero_le _
    | foreground topLeft bottomRight =>
      simp only [mapCode, Code.append_assoc]
      refine Code.AtMost.guard fun _ htop => Code.AtMost.guard fun _ _ => ?_
      have hconcat := Code.AtMost.concat fun (c : UInt32 × UInt32)
        (_ : c ∈ topLeft.zip bottomRight) =>
          (Code.atMost_ue c.1.toNat).append (Code.atMost_ue c.2.toNat)
      refine hconcat.mono ?_
      rw [List.length_zip]
      omega
    | changing type direction rate =>
      exact (((Code.atMost_inRange _ _ _ _).append (Code.atMost_flag _)).append
        (Code.atMost_ue _)).mono (by omega)
    | explicit ids =>
      have hgroups : count.toNat.toUInt8 = count := by simp
      simp only [mapCode, hgroups, ← Code.concat_u]
      have hconcat := Code.AtMost.concat fun (n : UInt8) (_ : n ∈ ids) =>
        Code.atMost_u (idBits count) n.toNat
      apply (((Code.atMost_inRange _ _ _ _).append (Code.atMost_ue _)).append hconcat).mono
      simp only [explicitMapSize]
      omega
  exact ((Code.atMost_ue _).append hmap).mono (by omega)

end SliceGroups

namespace PpsExtension

structure WellFormed (e : PpsExtension) (chromaFormatIdc : UInt8) : Prop where
  scalingMatrix : ∀ m ∈ e.scalingMatrix,
    m.WellFormed (scalingListCount e.transform8x8Mode chromaFormatIdc)
  secondChromaQpIndexOffset_ge : -12 ≤ e.secondChromaQpIndexOffset.toInt
  secondChromaQpIndexOffset_le : e.secondChromaQpIndexOffset.toInt ≤ 12

variable {chromaFormatIdc : UInt8}

theorem reads_code {e : PpsExtension} (h : e.WellFormed chromaFormatIdc) :
    Reads (parse chromaFormatIdc) (e.code chromaFormatIdc) tail e := by
  simp only [code, Code.append_assoc]
  refine (Parse.reads_flag _).bind ?_
  refine (Parse.reads_optional fun m hm =>
    ScalingMatrix.reads_code (h.scalingMatrix m hm)).bind ?_
  refine (Parse.reads_seWithin h.secondChromaQpIndexOffset_ge
    h.secondChromaQpIndexOffset_le).bind_pure ?_
  simp only [Int32.ofInt_toInt]

theorem accepts_parse : Accepts (parse chromaFormatIdc) fun e c =>
    e.WellFormed chromaFormatIdc ∧ (e.scalingMatrix = none → c = e.code chromaFormatIdc) := by
  refine Parse.accepts_flag.bind ?_
  rintro transform _ rfl
  refine (Parse.accepts_optional_of (ScalingMatrix.accepts_parse _)).bind ?_
  rintro matrix d hmatrix
  refine Accepts.bind Parse.accepts_seWithin32 ?_
  rintro _ _ ⟨offset, rfl, ⟨hlow, hhigh⟩, rfl⟩
  simp only [Int32.ofInt_toInt]
  refine Accepts.pure ⟨⟨?_, hlow, hhigh⟩, ?_⟩
  · rintro m rfl
    obtain ⟨_, hm, _⟩ := hmatrix
    exact hm
  · rintro rfl
    obtain rfl : d = .flag false := hmatrix
    simp only [code, Code.append_assoc, Code.append_empty]
    rfl

/-- The extension takes at least the bit of its first flag. -/
theorem bits_code_ne_nil (e : PpsExtension) : (e.code chromaFormatIdc).bits ≠ [] := by
  simp only [code, Code.append_assoc]
  rw [(Code.valid_flag _).bits_append, Code.bits_flag]
  simp

theorem atMost_code (e : PpsExtension) : (e.code chromaFormatIdc).AtMost 33000 :=
  (((Code.atMost_flag _).append (Code.AtMost.optional fun m _ => m.atMost_code _)).append
    (Code.atMost_se _)).mono (by decide)

end PpsExtension

namespace Pps

structure WellFormed (p : Pps) (chromaFormatIdc : UInt8) : Prop where
  spsId : p.spsId.toNat ≤ 31
  sliceGroups : ∀ g ∈ p.sliceGroups, g.WellFormed
  numRefIdxL0DefaultActiveMinus1 : p.numRefIdxL0DefaultActiveMinus1.toNat ≤ 31
  numRefIdxL1DefaultActiveMinus1 : p.numRefIdxL1DefaultActiveMinus1.toNat ≤ 31
  weightedBipredIdc : p.weightedBipredIdc.toNat < 2 ^ 2
  picInitQpMinus26 : -62 ≤ p.picInitQpMinus26.toInt ∧ p.picInitQpMinus26.toInt ≤ 25
  picInitQsMinus26 : -26 ≤ p.picInitQsMinus26.toInt ∧ p.picInitQsMinus26.toInt ≤ 25
  chromaQpIndexOffset : -12 ≤ p.chromaQpIndexOffset.toInt ∧ p.chromaQpIndexOffset.toInt ≤ 12
  extension : ∀ e ∈ p.extension, e.WellFormed chromaFormatIdc

variable {sets : ParameterSets} {p : Pps}

theorem reads_sliceGroups {groups : Option SliceGroups} (h : ∀ g ∈ groups, g.WellFormed) :
    Reads (do
      let groupsMinus1 ← Parse.ueUpTo "num_slice_groups_minus1" 7
      if 0 < groupsMinus1 then some <$> SliceGroups.parse groupsMinus1.toUInt8 else pure none)
      (sliceGroupsCode groups) tail groups := by
  cases groups with
  | none =>
    apply (Parse.reads_ueUpTo (by decide)).last
    rw [if_neg (by decide)]
  | some g =>
    have hg := h g rfl
    have hpos := hg.countMinus1_pos
    have hle := hg.countMinus1_le
    simp only [sliceGroupsCode, Code.append_assoc]
    refine Reads.check ?_ (by omega) (by omega)
    refine (Parse.reads_ueUpTo hle).bind ?_
    have hcount : g.countMinus1.toNat.toUInt8 = g.countMinus1 := by simp
    rw [if_pos (by omega), hcount]
    exact (SliceGroups.reads_code hg).map

theorem accepts_sliceGroups :
    Accepts (do
      let groupsMinus1 ← Parse.ueUpTo "num_slice_groups_minus1" 7
      if 0 < groupsMinus1 then some <$> SliceGroups.parse groupsMinus1.toUInt8 else pure none)
      fun groups c => (∀ g ∈ groups, g.WellFormed) ∧ c = sliceGroupsCode groups := by
  refine Accepts.bind Parse.accepts_ueUpTo8 ?_
  rintro _ _ ⟨count, rfl, hcount, rfl⟩
  refine Accepts.ite (fun hpos => Accepts.map ?_) fun hzero => ?_
  · have hword : count.toNat.toUInt8 = count := by simp
    rw [hword]
    apply (SliceGroups.accepts_parse count).mono
    rintro g _ ⟨rfl, hmap, rfl⟩
    refine ⟨by simpa using ⟨hpos, hcount, hmap⟩, ?_⟩
    rw [sliceGroupsCode, Code.inRange_eq_empty (by omega) (by omega), Code.empty_append]
  · have hword : count.toNat = 0 := by omega
    refine Accepts.pure ⟨by simp, ?_⟩
    rw [hword, Code.append_empty, sliceGroupsCode]

/-- The code of the extension, which is there only if it is given. -/
def extensionCode (chromaFormatIdc : UInt8) : Option PpsExtension → Code
  | none => .empty
  | some e => e.code chromaFormatIdc

theorem reads_extension {chromaFormatIdc : UInt8} {extension : Option PpsExtension}
    (h : ∀ e ∈ extension, e.WellFormed chromaFormatIdc) (zeros : Nat) :
    Reads (do
      if ← Parse.moreData then some <$> PpsExtension.parse chromaFormatIdc else pure none)
      (extensionCode chromaFormatIdc extension) (Bits.stop zeros) extension := by
  apply Parse.reads_moreData.look
  cases extension with
  | none =>
    have hmore : Bits.hasMore ((extensionCode chromaFormatIdc none).bits ++ Bits.stop zeros) =
        false := Bits.hasMore_stop zeros
    rw [hmore]
    exact Reads.pure none
  | some e =>
    have hmore : Bits.hasMore ((e.code chromaFormatIdc).bits ++ Bits.stop zeros) = true :=
      Bits.hasMore_append_stop e.bits_code_ne_nil zeros
    rw [extensionCode, hmore]
    exact (PpsExtension.reads_code (h e rfl)).map

theorem accepts_extension (chromaFormatIdc : UInt8) :
    Accepts (do
      if ← Parse.moreData then some <$> PpsExtension.parse chromaFormatIdc else pure none)
      fun extension c => (∀ e ∈ extension, e.WellFormed chromaFormatIdc) ∧
        ((∀ e ∈ extension, e.scalingMatrix = none) →
          c = extensionCode chromaFormatIdc extension) := by
  refine Parse.accepts_moreData.bind ?_
  rintro more _ rfl
  refine Accepts.ite (fun _ => Accepts.map (PpsExtension.accepts_parse.mono ?_)) fun _ => ?_
  · rintro e c ⟨he, hc⟩
    exact ⟨by simpa using he, fun hmatrix => hc (by simpa using hmatrix)⟩
  · exact Accepts.pure ⟨by simp, fun _ => rfl⟩

theorem code_eq (sets : ParameterSets) (p : Pps) :
    p.code sets =
      .inRange "self.seq_parameter_set_id" 0 31 p.spsId.toNat ++
      .inRange "self.num_ref_idx_l0_default_active_minus1" 0 31
        p.numRefIdxL0DefaultActiveMinus1.toNat ++
      .inRange "self.num_ref_idx_l1_default_active_minus1" 0 31
        p.numRefIdxL1DefaultActiveMinus1.toNat ++
      .ue p.id.toNat ++
      .ue p.spsId.toNat ++
      .flag p.entropyCodingMode ++
      .flag p.bottomFieldPicOrderInFramePresent ++
      sliceGroupsCode p.sliceGroups ++
      .ue p.numRefIdxL0DefaultActiveMinus1.toNat ++
      .ue p.numRefIdxL1DefaultActiveMinus1.toNat ++
      .flag p.weightedPred ++
      .u 2 p.weightedBipredIdc.toNat ++
      .se p.picInitQpMinus26.toInt ++
      .se p.picInitQsMinus26.toInt ++
      .se p.chromaQpIndexOffset.toInt ++
      .flag p.deblockingFilterControlPresent ++
      .flag p.constrainedIntraPred ++
      .flag p.redundantPicCntPresent ++
      extensionCode (sets.chromaFormatIdc p.spsId) p.extension := rfl

theorem reads_code (h : p.WellFormed (sets.chromaFormatIdc p.spsId)) (zeros : Nat) :
    Reads (parse sets) (p.code sets) (Bits.stop zeros) p := by
  have hspsId := h.spsId
  have hl0 := h.numRefIdxL0DefaultActiveMinus1
  have hl1 := h.numRefIdxL1DefaultActiveMinus1
  have hid := p.id.toNat_lt
  rw [code_eq]
  simp only [Code.append_assoc]
  refine Reads.check ?_ (by omega) (by omega)
  refine Reads.check ?_ (by omega) (by omega)
  refine Reads.check ?_ (by omega) (by omega)
  refine (Parse.reads_ueUpTo (by omega)).bind ?_
  refine (Parse.reads_ueUpTo hspsId).bind ?_
  simp only [Nat.toUInt8, UInt8.ofNat_toNat]
  refine (Parse.reads_flag _).bind ?_
  refine (Parse.reads_flag _).bind ?_
  simp only [ite_bind]
  rw [← bind_assoc]
  refine (reads_sliceGroups h.sliceGroups).bind ?_
  refine (Parse.reads_ueUpTo hl0).bind ?_
  refine (Parse.reads_ueUpTo hl1).bind ?_
  refine (Parse.reads_flag _).bind ?_
  refine (Parse.reads_octet (by decide) h.weightedBipredIdc).bind ?_
  refine (Parse.reads_seWithin h.picInitQpMinus26.1 h.picInitQpMinus26.2).bind ?_
  refine (Parse.reads_seWithin h.picInitQsMinus26.1 h.picInitQsMinus26.2).bind ?_
  refine (Parse.reads_seWithin h.chromaQpIndexOffset.1 h.chromaQpIndexOffset.2).bind ?_
  refine (Parse.reads_flag _).bind ?_
  refine (Parse.reads_flag _).bind ?_
  refine (Parse.reads_flag _).bind ?_
  rw [← bind_assoc]
  refine (reads_extension h.extension zeros).bind_pure ?_
  simp only [UInt8.ofNat_toNat, Int32.ofInt_toInt]

theorem accepts_parse : Accepts (parse sets) fun p c =>
    p.WellFormed (sets.chromaFormatIdc p.spsId) ∧
      ((∀ e ∈ p.extension, e.scalingMatrix = none) → c = p.code sets) := by
  refine Accepts.bind Parse.accepts_ueUpTo8 ?_
  rintro _ _ ⟨id, rfl, -, rfl⟩
  refine Accepts.bind Parse.accepts_ueUpTo8 ?_
  rintro _ _ ⟨spsId, rfl, hspsId, rfl⟩
  simp only [Nat.toUInt8, UInt8.ofNat_toNat]
  refine Parse.accepts_flag.bind ?_
  rintro entropyCodingMode _ rfl
  refine Parse.accepts_flag.bind ?_
  rintro bottomField _ rfl
  simp only [ite_bind]
  rw [← bind_assoc]
  refine accepts_sliceGroups.bind ?_
  rintro sliceGroups _ ⟨hsliceGroups, rfl⟩
  refine Accepts.bind Parse.accepts_ueUpTo8 ?_
  rintro _ _ ⟨l0, rfl, hl0, rfl⟩
  refine Accepts.bind Parse.accepts_ueUpTo8 ?_
  rintro _ _ ⟨l1, rfl, hl1, rfl⟩
  refine Parse.accepts_flag.bind ?_
  rintro weightedPred _ rfl
  refine Accepts.bind (Parse.accepts_octet (by decide)) ?_
  rintro weightedBipred _ ⟨hweightedBipred, rfl⟩
  refine Accepts.bind Parse.accepts_seWithin32 ?_
  rintro _ _ ⟨qp, rfl, hqp, rfl⟩
  refine Accepts.bind Parse.accepts_seWithin32 ?_
  rintro _ _ ⟨qs, rfl, hqs, rfl⟩
  refine Accepts.bind Parse.accepts_seWithin32 ?_
  rintro _ _ ⟨chromaQp, rfl, hchromaQp, rfl⟩
  refine Parse.accepts_flag.bind ?_
  rintro deblocking _ rfl
  refine Parse.accepts_flag.bind ?_
  rintro constrained _ rfl
  refine Parse.accepts_flag.bind ?_
  rintro redundant _ rfl
  rw [← bind_assoc]
  refine (accepts_extension _).bind ?_
  rintro extension d ⟨hextension, hd⟩
  simp only [UInt8.ofNat_toNat, Int32.ofInt_toInt]
  refine Accepts.pure ⟨⟨hspsId, hsliceGroups, hl0, hl1, hweightedBipred, hqp, hqs, hchromaQp,
    hextension⟩, fun hmatrix => ?_⟩
  rw [code_eq]
  simp only [hd hmatrix, Code.append_assoc, Code.append_empty]
  rw [Code.inRange_eq_empty (by omega) (by omega), Code.empty_append,
    Code.inRange_eq_empty (by omega) (by omega), Code.empty_append,
    Code.inRange_eq_empty (by omega) (by omega), Code.empty_append]

def explicitMapSize (p : Pps) : Nat :=
  match p.sliceGroups with
  | some groups => groups.explicitMapSize
  | none => 0

theorem atMost_sliceGroupsCode (p : Pps) :
    (sliceGroupsCode p.sliceGroups).AtMost (34100 + 8 * p.explicitMapSize) := by
  unfold explicitMapSize
  cases p.sliceGroups with
  | none => exact (Code.atMost_ue 0).mono (by omega)
  | some g =>
    refine (((Code.atMost_inRange _ _ _ _).append (Code.atMost_ue _)).append
      g.atMost_code).mono ?_
    simp only
    omega

theorem atMost_extensionCode (chromaFormatIdc : UInt8) (extension : Option PpsExtension) :
    (extensionCode chromaFormatIdc extension).AtMost 33000 := by
  cases extension with
  | none => exact Nat.zero_le _
  | some e => exact e.atMost_code

theorem atMost_code (sets : ParameterSets) (p : Pps) :
    (p.code sets).AtMost (70000 + 8 * p.explicitMapSize) := by
  simp only [code_eq, Code.append_assoc]
  apply Code.AtMost.next (Code.atMost_inRange _ _ _ _) (by omega)
  apply Code.AtMost.next (Code.atMost_inRange _ _ _ _) (by omega)
  apply Code.AtMost.next (Code.atMost_inRange _ _ _ _) (by omega)
  apply Code.AtMost.next (Code.atMost_ue _) (by omega)
  apply Code.AtMost.next (Code.atMost_ue _) (by omega)
  apply Code.AtMost.next (Code.atMost_flag _) (by omega)
  apply Code.AtMost.next (Code.atMost_flag _) (by omega)
  apply Code.AtMost.next p.atMost_sliceGroupsCode (by omega)
  apply Code.AtMost.next (Code.atMost_ue _) (by omega)
  apply Code.AtMost.next (Code.atMost_ue _) (by omega)
  apply Code.AtMost.next (Code.atMost_flag _) (by omega)
  apply Code.AtMost.next (Code.atMost_u 2 _) (by omega)
  apply Code.AtMost.next (Code.atMost_se _) (by omega)
  apply Code.AtMost.next (Code.atMost_se _) (by omega)
  apply Code.AtMost.next (Code.atMost_se _) (by omega)
  apply Code.AtMost.next (Code.atMost_flag _) (by omega)
  apply Code.AtMost.next (Code.atMost_flag _) (by omega)
  apply Code.AtMost.next (Code.atMost_flag _) (by omega)
  exact (atMost_extensionCode _ _).mono (by omega)

end Pps

end AvcSyntax

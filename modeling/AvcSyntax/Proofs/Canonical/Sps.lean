import AvcSyntax.Proofs.Sps

/-!
# Canonical sequence parameter sets

A record can hold more than is written: fields that its flags leave out, scaling lists behind the
coded ones, and the values of a list that stands for the default one. Its canonical form holds
what its code tells and nothing else. Both have the same code, and if the coded fields are in
range, which is all that `InRange` asks, the canonical form is what reading can yield.

The records that hold nothing but coded fields are canonical as they are. For them the range of
the fields is their `WellFormed`.
-/
namespace AvcSyntax

open ExpGolomb

variable {n : Nat}

namespace ScalingList

/-- The values of a list count only if it does not stand for the default list. -/
def InRange (l : ScalingList n) : Prop := l.useDefault = false → 0 ∉ l.values

instance (l : ScalingList n) : Decidable l.InRange :=
  inferInstanceAs (Decidable (l.useDefault = false → 0 ∉ l.values))

def canonical (l : ScalingList n) : ScalingList n := if l.useDefault then flat n 8 true else l

theorem code_canonical (l : ScalingList n) : l.canonical.code = l.code := by
  unfold canonical
  split
  · rename_i hdefault
    have hflat : (flat n 8 true).useDefault = true := rfl
    rw [code, code, if_pos hdefault, if_pos hflat]
  · rfl

theorem InRange.wellFormed {l : ScalingList n} (h : l.InRange) : l.canonical.WellFormed := by
  unfold canonical
  split
  · exact ⟨by simp [flat], fun _ => rfl⟩
  · rename_i hdefault
    exact ⟨h (by simpa using hdefault), fun hset => absurd hset hdefault⟩

end ScalingList

namespace ScalingSlots

/-- Only the first `count` lists are coded. -/
def InRange (slots : ScalingSlots n) (count : Nat) : Prop :=
  ∀ i (h : i < 6), i < count → ∀ l ∈ slots[i], l.InRange

instance (slots : ScalingSlots n) (count : Nat) : Decidable (slots.InRange count) :=
  inferInstanceAs (Decidable (∀ i (h : i < 6), i < count → ∀ l ∈ slots[i], l.InRange))

def canonical (slots : ScalingSlots n) (count : Nat) : ScalingSlots n :=
  Vector.ofFn fun i => if i.val < count then slots[i].map ScalingList.canonical else none

theorem getElem_canonical (slots : ScalingSlots n) (count i : Nat) (h : i < 6) :
    (slots.canonical count)[i] =
      if i < count then slots[i].map ScalingList.canonical else none := by
  rw [canonical, Vector.getElem_ofFn]
  rfl

theorem codes_canonical (slots : ScalingSlots n) (count : Nat) :
    ((slots.canonical count).toList.take count).map (Code.optional ScalingList.code) =
      (slots.toList.take count).map (Code.optional ScalingList.code) := by
  apply List.ext_getElem
  · simp
  · intro i hi _
    have hcount : i < count ∧ i < 6 := by simpa using hi
    simp only [List.getElem_map, List.getElem_take, Vector.getElem_toList, getElem_canonical,
      if_pos hcount.1]
    exact Code.optional_map ScalingList.code_canonical _

theorem InRange.wellFormed {slots : ScalingSlots n} {count : Nat} (h : slots.InRange count) :
    (slots.canonical count).WellFormed count := by
  constructor
  · intro o ho l hl
    obtain ⟨i, hi, rfl⟩ := List.getElem_of_mem ho
    have hslot : i < 6 := by simpa using hi
    rw [Vector.getElem_toList, getElem_canonical] at hl
    by_cases hcount : i < count
    · rw [if_pos hcount] at hl
      obtain ⟨found, hfound, rfl⟩ := Option.mem_map.mp hl
      exact (h i hslot hcount found hfound).wellFormed
    · rw [if_neg hcount] at hl
      cases hl
  · intro i hi hle
    rw [getElem_canonical, if_neg (by omega)]

end ScalingSlots

namespace ScalingMatrix

structure InRange (m : ScalingMatrix) (count : Nat) : Prop where
  lists4x4 : m.lists4x4.InRange count
  lists8x8 : m.lists8x8.InRange (count - 6)

def canonical (m : ScalingMatrix) (count : Nat) : ScalingMatrix where
  lists4x4 := m.lists4x4.canonical count
  lists8x8 := m.lists8x8.canonical (count - 6)

theorem code_canonical (m : ScalingMatrix) (count : Nat) :
    (m.canonical count).code count = m.code count := by
  simp only [code, canonical, ScalingSlots.codes_canonical]

theorem InRange.wellFormed {m : ScalingMatrix} {count : Nat} (h : m.InRange count)
    (hcount : count ≤ 12) : (m.canonical count).WellFormed count :=
  ⟨hcount, h.lists4x4.wellFormed, h.lists8x8.wellFormed⟩

end ScalingMatrix

namespace SampleFormat

structure InRange (f : SampleFormat) : Prop where
  chromaFormatIdc : f.chromaFormatIdc.toNat ≤ 3
  bitDepthLumaMinus8 : f.bitDepthLumaMinus8.toNat ≤ 6
  bitDepthChromaMinus8 : f.bitDepthChromaMinus8.toNat ≤ 6
  scalingMatrix : ∀ m ∈ f.scalingMatrix, m.InRange (scalingListCount f.chromaFormatIdc)

def canonical (f : SampleFormat) : SampleFormat :=
  { f with
    separateColourPlanes := f.chromaFormatIdc = 3 && f.separateColourPlanes
    scalingMatrix := f.scalingMatrix.map (·.canonical (scalingListCount f.chromaFormatIdc)) }

theorem scalingListCount_le (chromaFormatIdc : UInt8) : scalingListCount chromaFormatIdc ≤ 12 := by
  unfold scalingListCount
  split <;> decide

theorem code_canonical (f : SampleFormat) : f.canonical.code = f.code := by
  have hplanes : Code.onlyIf (f.canonical.chromaFormatIdc = 3)
      (.flag f.canonical.separateColourPlanes) =
      .onlyIf (f.chromaFormatIdc = 3) (.flag f.separateColourPlanes) :=
    Code.onlyIf_decide_flag _ _
  have hmatrix : Code.optional (·.code (scalingListCount f.canonical.chromaFormatIdc))
      f.canonical.scalingMatrix =
      .optional (·.code (scalingListCount f.chromaFormatIdc)) f.scalingMatrix :=
    Code.optional_map (fun m => m.code_canonical _) _
  rw [code, code, hplanes, hmatrix]
  rfl

theorem InRange.wellFormed {f : SampleFormat} (h : f.InRange) : f.canonical.WellFormed where
  chromaFormatIdc := h.chromaFormatIdc
  separateColourPlanes := by
    intro hchroma
    have hne : f.chromaFormatIdc ≠ 3 := hchroma
    simp [canonical, hne]
  bitDepthLumaMinus8 := h.bitDepthLumaMinus8
  bitDepthChromaMinus8 := h.bitDepthChromaMinus8
  scalingMatrix := by
    intro m hm
    obtain ⟨found, hfound, rfl⟩ := Option.mem_map.mp hm
    exact (h.scalingMatrix found hfound).wellFormed (scalingListCount_le _)

end SampleFormat

namespace AspectRatio

/-- Width and height are coded only with the number that announces them. -/
def canonical (a : AspectRatio) : AspectRatio := if a.idc = extended then a else { idc := a.idc }

theorem code_canonical (a : AspectRatio) : a.canonical.code = a.code := by
  unfold canonical
  split
  · rfl
  · rename_i hidc
    rw [code, code, Code.onlyIf_false hidc, Code.onlyIf_false hidc]

theorem wellFormed_canonical (a : AspectRatio) : a.canonical.WellFormed := by
  unfold canonical
  split
  · rename_i hidc
    exact fun hne => absurd hidc hne
  · exact fun _ => ⟨rfl, rfl⟩

end AspectRatio

namespace VuiParameters

structure InRange (v : VuiParameters) : Prop where
  chromaLocation : ∀ l ∈ v.chromaLocation, l.WellFormed
  nalHrd : ∀ h ∈ v.nalHrd, h.WellFormed
  vclHrd : ∀ h ∈ v.vclHrd, h.WellFormed
  restriction : ∀ b ∈ v.restriction, b.WellFormed

def canonical (v : VuiParameters) : VuiParameters :=
  { v with
    aspectRatio := v.aspectRatio.map AspectRatio.canonical
    lowDelayHrd := v.hasHrd && v.lowDelayHrd }

theorem code_canonical (v : VuiParameters) : v.canonical.code = v.code := by
  have hratio : Code.optional AspectRatio.code v.canonical.aspectRatio =
      .optional AspectRatio.code v.aspectRatio := Code.optional_map AspectRatio.code_canonical _
  have hdelay : Code.onlyIf v.canonical.hasHrd (.flag v.canonical.lowDelayHrd) =
      .onlyIf v.hasHrd (.flag v.lowDelayHrd) := Code.onlyIf_flag _ _
  rw [code, code, hratio, hdelay]
  rfl

theorem InRange.wellFormed {v : VuiParameters} (h : v.InRange) : v.canonical.WellFormed where
  aspectRatio := by
    intro a ha
    obtain ⟨found, -, rfl⟩ := Option.mem_map.mp ha
    exact found.wellFormed_canonical
  chromaLocation := h.chromaLocation
  nalHrd := h.nalHrd
  vclHrd := h.vclHrd
  lowDelayHrd := by
    intro hnone
    have hhrd : ¬v.hasHrd = true := hnone
    simp [canonical, hhrd]
  restriction := h.restriction

end VuiParameters

namespace Sps

/-- The coded fields are in the ranges that reading checks. The sample format is coded only by
the high profiles, and of the two reserved bits only the lowest bits are. -/
structure InRange (s : Sps) : Prop where
  id : s.id.toNat ≤ 31
  sampleFormat : isHighProfile s.profileIdc = true → ∀ f ∈ s.sampleFormat, f.InRange
  log2MaxFrameNumMinus4 : s.log2MaxFrameNumMinus4.toNat ≤ 12
  picOrderCount : s.picOrderCount.WellFormed
  maxNumRefFrames : s.maxNumRefFrames.toNat ≤ 16
  picWidthInMbsMinus1 : s.picWidthInMbsMinus1.toNat ≤ maxValue
  picHeightInMapUnitsMinus1 : s.picHeightInMapUnitsMinus1.toNat ≤ maxValue
  cropping : ∀ c ∈ s.cropping, c.WellFormed
  vui : ∀ v ∈ s.vui, v.InRange

def canonical (s : Sps) : Sps :=
  { s with
    reservedZero2Bits := s.reservedZero2Bits % 4
    sampleFormat :=
      if isHighProfile s.profileIdc then some (s.sampleFormat.getD {}).canonical else none
    mbAdaptiveFrameField := !s.frameMbsOnly && s.mbAdaptiveFrameField
    vui := s.vui.map VuiParameters.canonical }

theorem code_canonical (s : Sps) : s.canonical.code = s.code := by
  have hreserved : s.canonical.reservedZero2Bits.toNat % 4 = s.reservedZero2Bits.toNat % 4 := by
    rw [canonical, UInt8.toNat_mod]
    exact Nat.mod_mod _ _
  have hformat : Code.onlyIf (isHighProfile s.canonical.profileIdc)
      (s.canonical.sampleFormat.getD {}).code =
      .onlyIf (isHighProfile s.profileIdc) (s.sampleFormat.getD {}).code :=
    Code.onlyIf_presence SampleFormat.code (fun _ => SampleFormat.code_canonical _) _ _
  have hadaptive : Code.onlyIf (!s.canonical.frameMbsOnly)
      (.flag s.canonical.mbAdaptiveFrameField) =
      .onlyIf (!s.frameMbsOnly) (.flag s.mbAdaptiveFrameField) := Code.onlyIf_flag _ _
  have hvui : Code.optional VuiParameters.code s.canonical.vui =
      .optional VuiParameters.code s.vui := Code.optional_map VuiParameters.code_canonical _
  rw [code, code, hreserved, hformat, hadaptive, hvui]
  rfl

theorem InRange.wellFormed {s : Sps} (h : s.InRange) : s.canonical.WellFormed where
  reservedZero2Bits := by
    have hmod : (s.reservedZero2Bits % 4).toNat = s.reservedZero2Bits.toNat % 4 :=
      UInt8.toNat_mod ..
    rw [canonical, hmod]
    exact Nat.mod_lt _ (by decide)
  id := h.id
  isHighProfile := by
    cases hhigh : isHighProfile s.profileIdc <;> simp [canonical, hhigh]
  sampleFormat := by
    intro f hf
    by_cases hhigh : isHighProfile s.profileIdc = true
    · obtain rfl : (s.sampleFormat.getD {}).canonical = f := by simpa [canonical, hhigh] using hf
      apply SampleFormat.InRange.wellFormed
      cases hformat : s.sampleFormat with
      | none => exact ⟨by decide, by decide, by decide, by simp⟩
      | some found => exact h.sampleFormat hhigh found hformat
    · simp [canonical, hhigh] at hf
  log2MaxFrameNumMinus4 := h.log2MaxFrameNumMinus4
  picOrderCount := h.picOrderCount
  maxNumRefFrames := h.maxNumRefFrames
  picWidthInMbsMinus1 := h.picWidthInMbsMinus1
  picHeightInMapUnitsMinus1 := h.picHeightInMapUnitsMinus1
  mbAdaptiveFrameField := by
    intro hframes
    have hset : s.frameMbsOnly = true := hframes
    simp [canonical, hset]
  cropping := h.cropping
  vui := by
    intro v hv
    obtain ⟨found, hfound, rfl⟩ := Option.mem_map.mp hv
    exact (h.vui found hfound).wellFormed

end Sps

end AvcSyntax

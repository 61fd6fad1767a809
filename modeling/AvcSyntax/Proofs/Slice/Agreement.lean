import AvcSyntax.Fixup.Basic
import AvcSyntax.Pps.Coding
import AvcSyntax.Slice.Layer
import Mathlib

/-!
# What slices need of a sequence parameter set

Slices and picture parameter sets are read and written under the sequence parameter set that they
name, but only a few of its fields matter. Sequence parameter sets agree if these fields do, and
collections of parameter sets if those under each number do. Under collections that agree every
slice and every picture parameter set is read and written in the same way, with the same errors.

A fixup that keeps to the high profiles changes none of these fields, nor those that give the size
of the pictures and their rate.
-/
namespace AvcSyntax

namespace Sps

/-- Whether two parameter sets have the fields in common that slices are coded by. -/
structure Agrees (s t : Sps) : Prop where
  sampleFormat : s.sampleFormat = t.sampleFormat
  log2MaxFrameNumMinus4 : s.log2MaxFrameNumMinus4 = t.log2MaxFrameNumMinus4
  picOrderCount : s.picOrderCount = t.picOrderCount
  picWidthInMbsMinus1 : s.picWidthInMbsMinus1 = t.picWidthInMbsMinus1
  picHeightInMapUnitsMinus1 : s.picHeightInMapUnitsMinus1 = t.picHeightInMapUnitsMinus1
  frameMbsOnly : s.frameMbsOnly = t.frameMbsOnly

namespace Agrees

theorem refl (s : Sps) : s.Agrees s := ⟨rfl, rfl, rfl, rfl, rfl, rfl⟩

variable {s t : Sps}

theorem chromaFormatIdc (h : s.Agrees t) : s.chromaFormatIdc = t.chromaFormatIdc := by
  rw [Sps.chromaFormatIdc, h.sampleFormat, Sps.chromaFormatIdc]

theorem separateColourPlanes (h : s.Agrees t) :
    s.separateColourPlanes = t.separateColourPlanes := by
  rw [Sps.separateColourPlanes, h.sampleFormat, Sps.separateColourPlanes]

theorem chromaArrayType (h : s.Agrees t) : s.chromaArrayType = t.chromaArrayType := by
  rw [Sps.chromaArrayType, h.separateColourPlanes, h.chromaFormatIdc, Sps.chromaArrayType]

theorem widthInMbs (h : s.Agrees t) : s.widthInMbs = t.widthInMbs := by
  rw [Sps.widthInMbs, h.picWidthInMbsMinus1, Sps.widthInMbs]

theorem heightInMapUnits (h : s.Agrees t) : s.heightInMapUnits = t.heightInMapUnits := by
  rw [Sps.heightInMapUnits, h.picHeightInMapUnitsMinus1, Sps.heightInMapUnits]

theorem sizeInMapUnits (h : s.Agrees t) : s.sizeInMapUnits = t.sizeInMapUnits := by
  rw [Sps.sizeInMapUnits, h.widthInMbs, h.heightInMapUnits, Sps.sizeInMapUnits]

theorem rowsPerMapUnit (h : s.Agrees t) : s.rowsPerMapUnit = t.rowsPerMapUnit := by
  rw [Sps.rowsPerMapUnit, h.frameMbsOnly, Sps.rowsPerMapUnit]

/-- The size of the pictures depends on the cropping as well. -/
theorem width (h : s.Agrees t) (hcropping : s.cropping = t.cropping) : s.width = t.width := by
  rw [Sps.width, Sps.cropUnitX, h.widthInMbs, h.chromaArrayType, hcropping, Sps.width,
    Sps.cropUnitX]

theorem height (h : s.Agrees t) (hcropping : s.cropping = t.cropping) : s.height = t.height := by
  rw [Sps.height, Sps.frameHeightInMbs, Sps.cropUnitY, h.heightInMapUnits, h.chromaArrayType,
    h.rowsPerMapUnit, hcropping, Sps.height, Sps.frameHeightInMbs, Sps.cropUnitY]

theorem frameNumBits (h : s.Agrees t) : AvcSyntax.frameNumBits s = AvcSyntax.frameNumBits t := by
  rw [AvcSyntax.frameNumBits, h.log2MaxFrameNumMinus4, AvcSyntax.frameNumBits]

theorem qpDeltaLimits (h : s.Agrees t) (pps : Pps) :
    AvcSyntax.qpDeltaLimits s pps = AvcSyntax.qpDeltaLimits t pps := by
  rw [AvcSyntax.qpDeltaLimits, Sps.bitDepthLumaMinus8, h.sampleFormat, AvcSyntax.qpDeltaLimits,
    Sps.bitDepthLumaMinus8]

theorem changeCycleBits (h : s.Agrees t) (rate : UInt32) :
    s.changeCycleBits rate = t.changeCycleBits rate := by
  rw [Sps.changeCycleBits, h.sizeInMapUnits, Sps.changeCycleBits]

theorem parseChangeCycle (h : s.Agrees t) (pps : Pps) :
    SliceHeader.parseChangeCycle pps s = SliceHeader.parseChangeCycle pps t := by
  simp only [SliceHeader.parseChangeCycle, h.changeCycleBits]

theorem changeCycleCode (h : s.Agrees t) (pps : Pps) (cycle : UInt32) :
    SliceHeader.changeCycleCode pps s cycle = SliceHeader.changeCycleCode pps t cycle := by
  simp only [SliceHeader.changeCycleCode, h.changeCycleBits]

theorem parseBody (h : s.Agrees t) (nal : NalHeader) (pps : Pps) (opening : SliceHeader) :
    SliceHeader.parseBody nal pps s opening = SliceHeader.parseBody nal pps t opening := by
  simp only [SliceHeader.parseBody, h.separateColourPlanes, h.frameNumBits, h.frameMbsOnly,
    h.picOrderCount, h.chromaArrayType, h.qpDeltaLimits, h.parseChangeCycle]

theorem bodyCode (h : s.Agrees t) (header : SliceHeader) (nal : NalHeader) (pps : Pps) :
    header.bodyCode nal pps s = header.bodyCode nal pps t := by
  simp only [SliceHeader.bodyCode, h.separateColourPlanes, h.frameNumBits, h.frameMbsOnly,
    h.picOrderCount, h.chromaArrayType, h.changeCycleCode]

end Agrees

end Sps

namespace ParameterSets

/-- Whether two collections have the same picture parameter sets, and under each number sequence
parameter sets that agree. -/
structure Agrees (sets other : ParameterSets) : Prop where
  sps : ∀ id, Option.Rel Sps.Agrees (sets.sps id) (other.sps id)
  pps : sets.pps = other.pps

namespace Agrees

variable {sets other : ParameterSets}

/-- What a slice names is missing in both, or agrees. -/
theorem resolve_cases (h : sets.Agrees other) (id : UInt8) :
    (∃ e, sets.resolve id = .error e ∧ other.resolve id = .error e) ∨
      ∃ p s t, sets.resolve id = .ok (p, s) ∧ other.resolve id = .ok (p, t) ∧ s.Agrees t := by
  simp only [resolve, h.pps]
  cases other.pps id with
  | none => exact .inl ⟨_, rfl, rfl⟩
  | some p =>
    have hsps := h.sps p.spsId
    dsimp only
    generalize sets.sps p.spsId = found, other.sps p.spsId = other at hsps ⊢
    cases hsps with
    | none => exact .inl ⟨_, rfl, rfl⟩
    | some hagrees => exact .inr ⟨p, _, _, rfl, rfl, hagrees⟩

/-- An action behind the lookup that does not tell apart what agrees. -/
theorem bind_resolve {σ α : Type} (h : sets.Agrees other) (id : UInt8)
    {f : Pps × Sps → EStateM NalError σ α}
    (hf : ∀ p s t, Sps.Agrees s t → f (p, s) = f (p, t)) :
    (liftM (sets.resolve id) >>= f : EStateM NalError σ α) = liftM (other.resolve id) >>= f := by
  rcases h.resolve_cases id with ⟨e, hsets, hother⟩ | ⟨p, s, t, hsets, hother, hagrees⟩
  · rw [hsets, hother]
  · rw [hsets, hother]
    exact hf p s t hagrees

theorem chromaFormatIdc (h : sets.Agrees other) (id : UInt8) :
    sets.chromaFormatIdc id = other.chromaFormatIdc id := by
  have hsps := h.sps id
  unfold ParameterSets.chromaFormatIdc
  generalize sets.sps id = found, other.sps id = other at hsps ⊢
  cases hsps with
  | none => rfl
  | some hagrees => exact hagrees.chromaFormatIdc

theorem parse_header (h : sets.Agrees other) (nal : NalHeader) :
    SliceHeader.parse nal sets = SliceHeader.parse nal other := by
  unfold SliceHeader.parse
  apply bind_congr
  intro opening
  apply h.bind_resolve
  intro p s t hagrees
  exact congrArg liftM (hagrees.parseBody nal p opening)

theorem code_header (h : sets.Agrees other) (header : SliceHeader) (nal : NalHeader) :
    header.code nal sets = header.code nal other := by
  unfold SliceHeader.code
  rcases h.resolve_cases header.ppsId with ⟨e, hsets, hother⟩ | ⟨p, s, t, hsets, hother, hagrees⟩
  · rw [hsets, hother]
  · rw [hsets, hother]
    exact congrArg (fun c => Except.ok (header.openingCode ++ c)) (hagrees.bodyCode header nal p)

theorem build_header (h : sets.Agrees other) (header : SliceHeader) (nal : NalHeader) :
    header.build nal sets = header.build nal other := by
  rw [SliceHeader.build, h.code_header, SliceHeader.build]

theorem parse_slice (h : sets.Agrees other) (nal : NalHeader) (strict : Bool) :
    SliceLayer.parse nal sets strict = SliceLayer.parse nal other strict := by
  unfold SliceLayer.parse
  rw [h.parse_header]
  apply bind_congr
  intro header
  apply h.bind_resolve
  intro p s t _
  rfl

theorem build_slice (h : sets.Agrees other) (l : SliceLayer) (nal : NalHeader) :
    l.build nal sets = l.build nal other := by
  unfold SliceLayer.build
  rw [h.build_header]
  apply bind_congr
  intro _
  cases l.data with
  | none => rfl
  | some data =>
    apply h.bind_resolve
    intro p s t _
    rfl

theorem parse_pps (h : sets.Agrees other) : Pps.parse sets = Pps.parse other := by
  simp only [Pps.parse, h.chromaFormatIdc]

theorem code_pps (h : sets.Agrees other) (p : Pps) : p.code sets = p.code other := by
  simp only [Pps.code, h.chromaFormatIdc]

end Agrees

end ParameterSets

namespace SpsFixup

variable {fixup : SpsFixup}

theorem agrees_apply (h : ∀ profile ∈ fixup.profileIdc, Sps.isHighProfile profile = true)
    (s : Sps) : (fixup.apply s).Agrees s := by
  refine ⟨?_, rfl, rfl, rfl, rfl, rfl⟩
  unfold apply
  cases hprofile : fixup.profileIdc with
  | none => rfl
  | some profile => exact if_pos (h profile hprofile)

/-- Bounds that make room for themselves bring no timing along. -/
theorem timing_applyVui (vui : Option VuiParameters) :
    (fixup.applyVui vui).bind VuiParameters.timing = vui.bind VuiParameters.timing := by
  unfold applyVui
  cases fixup.restriction <;> cases vui <;> rfl

theorem frameRate?_apply (s : Sps) : (fixup.apply s).frameRate? = s.frameRate? := by
  have htiming : ∀ t : Sps, t.frameRate? =
      (t.vui.bind VuiParameters.timing).bind TimingInfo.frameRate? := by
    intro t
    unfold Sps.frameRate?
    cases t.vui <;> rfl
  rw [htiming, htiming]
  exact congrArg (·.bind TimingInfo.frameRate?) (timing_applyVui s.vui)

end SpsFixup

namespace ParameterSets

theorem agrees_update {sets : ParameterSets} {id : UInt8} {s t : Sps} (hs : sets.sps id = some s)
    (h : t.Agrees s) : Agrees { sets with sps := Function.update sets.sps id (some t) } sets := by
  refine ⟨fun other => ?_, rfl⟩
  by_cases hid : other = id
  · rw [hid, hs]
    simp only [Function.update_self]
    exact .some h
  · simp only [Function.update_of_ne hid]
    cases sets.sps other with
    | none => exact .none
    | some u => exact .some (Sps.Agrees.refl u)

/-- If a fixup leaves the profile alone or sets a high one, it can be applied to any of the known
sequence parameter sets without an effect on the units that refer to it. Under any header slices
are read and written in the same way, picture parameter sets are, and the size and the rate of the
pictures stay what they were. -/
theorem apply_unobserved (fixup : SpsFixup)
    (hprofile : ∀ profile ∈ fixup.profileIdc, Sps.isHighProfile profile = true)
    (sets : ParameterSets) (id : UInt8) (s : Sps) (hs : sets.sps id = some s) :
    let changed : ParameterSets :=
      { sets with sps := Function.update sets.sps id (some (fixup.apply s)) }
    (∀ nal strict, SliceLayer.parse nal changed strict = SliceLayer.parse nal sets strict) ∧
      (∀ (l : SliceLayer) nal, l.build nal changed = l.build nal sets) ∧
      Pps.parse changed = Pps.parse sets ∧
      (∀ p : Pps, p.code changed = p.code sets) ∧
      (fixup.apply s).width = s.width ∧
      (fixup.apply s).height = s.height ∧
      (fixup.apply s).sizeInMapUnits = s.sizeInMapUnits ∧
      (fixup.apply s).chromaArrayType = s.chromaArrayType ∧
      (fixup.apply s).frameRate? = s.frameRate? := by
  intro changed
  have hsps := SpsFixup.agrees_apply hprofile s
  have hchanged : changed.Agrees sets := agrees_update hs hsps
  exact ⟨hchanged.parse_slice, hchanged.build_slice, hchanged.parse_pps, hchanged.code_pps,
    hsps.width rfl, hsps.height rfl, hsps.sizeInMapUnits, hsps.chromaArrayType,
    SpsFixup.frameRate?_apply s⟩

/-- An interlaced sequence in full chroma, in another high profile and with bounds. -/
theorem apply_unobserved_interlaced :
    let fixup : SpsFixup := { SpsFixup.lowLatency 1280 720 with profileIdc := some 244 }
    let s : Sps :=
      { profileIdc := 110, sampleFormat := some { chromaFormatIdc := 3 }
        picWidthInMbsMinus1 := 79, picHeightInMapUnitsMinus1 := 22, frameMbsOnly := false }
    let sets : ParameterSets := { sps := fun id => if id = 0 then some s else none }
    let changed : ParameterSets :=
      { sets with sps := Function.update sets.sps 0 (some (fixup.apply s)) }
    (∀ profile ∈ fixup.profileIdc, Sps.isHighProfile profile = true) ∧
      sets.sps 0 = some s ∧
      fixup.apply s ≠ s ∧
      (∀ nal strict, SliceLayer.parse nal changed strict = SliceLayer.parse nal sets strict) ∧
      (fixup.apply s).height = s.height := by
  intro fixup s sets changed
  have hprofile : ∀ profile ∈ fixup.profileIdc, Sps.isHighProfile profile = true := by
    intro profile h
    obtain rfl := Option.some.inj h
    decide
  obtain ⟨hparse, -, -, -, -, hheight, -⟩ := apply_unobserved fixup hprofile sets 0 s rfl
  exact ⟨hprofile, rfl, by decide, hparse, hheight⟩

end ParameterSets

end AvcSyntax

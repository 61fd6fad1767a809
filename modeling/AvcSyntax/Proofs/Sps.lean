import AvcSyntax.Proofs.ScalingMatrix
import AvcSyntax.Proofs.Vui
import AvcSyntax.Sps.Basic

/-!
# Sequence parameter sets are read back

For a sequence parameter set and its parts: which values reading can yield, and that the code of
each of them is read back. Without a scaling matrix that code is also the only one. The bounds on
the lengths of the codes hold of all records.
-/
namespace AvcSyntax

open ExpGolomb

variable {tail : Bits}

namespace FrameCropping

structure WellFormed (c : FrameCropping) : Prop where
  left : c.left.toNat ≤ maxValue
  right : c.right.toNat ≤ maxValue
  top : c.top.toNat ≤ maxValue
  bottom : c.bottom.toNat ≤ maxValue

theorem reads_code {c : FrameCropping} (h : c.WellFormed) : Reads parse c.code tail c := by
  simp only [code, Code.append_assoc]
  refine (Parse.reads_ue h.left).bind ((Parse.reads_ue h.right).bind
    ((Parse.reads_ue h.top).bind ((Parse.reads_ue h.bottom).bind_pure ?_)))
  simp

theorem accepts_parse : Accepts parse fun c d => c.WellFormed ∧ d = c.code := by
  refine Parse.accepts_ue64.bind ?_
  rintro _ _ ⟨left, rfl, hleft, rfl⟩
  refine Parse.accepts_ue64.bind ?_
  rintro _ _ ⟨right, rfl, hright, rfl⟩
  refine Parse.accepts_ue64.bind ?_
  rintro _ _ ⟨top, rfl, htop, rfl⟩
  refine Parse.accepts_ue64.bind ?_
  rintro _ _ ⟨bottom, rfl, hbottom, rfl⟩
  simp only [Nat.toUInt64, UInt64.ofNat_toNat]
  refine Accepts.pure ⟨⟨hleft, hright, htop, hbottom⟩, ?_⟩
  simp only [code, Code.append_assoc, Code.append_empty]

theorem atMost_code (c : FrameCropping) : c.code.AtMost 260 :=
  (((Code.atMost_ue _).append (Code.atMost_ue _)).append (Code.atMost_ue _)).append
    (Code.atMost_ue _)

end FrameCropping

/-- Whether a signed number has an Exp-Golomb code. -/
def ExpGolomb.Signed (n : Int) : Prop := -(2 ^ 32 - 1) ≤ n ∧ n ≤ 2 ^ 32 - 1

namespace OrderCycle

structure WellFormed (c : OrderCycle) : Prop where
  offsetForNonRefPic : Signed c.offsetForNonRefPic.toInt
  offsetForTopToBottomField : Signed c.offsetForTopToBottomField.toInt
  length_offsetsForRefFrames : c.offsetsForRefFrames.length ≤ 255
  offsetsForRefFrames : ∀ n ∈ c.offsetsForRefFrames, Signed n.toInt

theorem reads_offset {n : Int64} (h : Signed n.toInt) :
    Reads (Int64.ofInt <$> Parse.se) (.se n.toInt) tail n := by
  have hread : Reads (Int64.ofInt <$> Parse.se) (.se n.toInt) tail (.ofInt n.toInt) :=
    (Parse.reads_se h.1 h.2).map
  rwa [Int64.ofInt_toInt] at hread

theorem accepts_offset :
    Accepts (Int64.ofInt <$> Parse.se) fun n c => Signed n.toInt ∧ c = .se n.toInt := by
  refine Accepts.map (Parse.accepts_se64.mono ?_)
  rintro _ _ ⟨n, rfl, hn, rfl⟩
  rw [Int64.ofInt_toInt]
  exact ⟨hn, rfl⟩

theorem reads_code {c : OrderCycle} (h : c.WellFormed) : Reads parse c.code tail c := by
  have hlength := h.length_offsetsForRefFrames
  simp only [code, Code.append_assoc]
  refine Reads.check ?_ (by omega) (by omega)
  refine (Parse.reads_flag _).bind ?_
  refine (Parse.reads_se h.offsetForNonRefPic.1 h.offsetForNonRefPic.2).bind ?_
  refine (Parse.reads_se h.offsetForTopToBottomField.1 h.offsetForTopToBottomField.2).bind ?_
  refine (Parse.reads_ueUpTo hlength).bind ?_
  refine (Parse.reads_times fun n hn _ => reads_offset (h.offsetsForRefFrames n hn)).bind_pure ?_
  simp only [Int64.ofInt_toInt]

theorem accepts_parse : Accepts parse fun c d => c.WellFormed ∧ d = c.code := by
  refine Parse.accepts_flag.bind ?_
  rintro deltaAlwaysZero _ rfl
  refine Parse.accepts_se64.bind ?_
  rintro _ _ ⟨nonRef, rfl, hnonRef, rfl⟩
  refine Parse.accepts_se64.bind ?_
  rintro _ _ ⟨topToBottom, rfl, htopToBottom, rfl⟩
  refine Parse.accepts_ueUpTo.bind ?_
  rintro count _ ⟨hcount, rfl⟩
  refine (Parse.accepts_times accepts_offset _).bind ?_
  rintro offsets _ ⟨rfl, hoffsets, rfl⟩
  simp only [Int64.ofInt_toInt]
  refine Accepts.pure ⟨⟨hnonRef, htopToBottom, hcount, hoffsets⟩, ?_⟩
  simp only [code, Code.append_assoc, Code.append_empty]
  rw [Code.inRange_eq_empty (by omega) (by omega), Code.empty_append]

theorem atMost_code (c : OrderCycle) : c.code.AtMost 17000 := by
  simp only [code, Code.append_assoc]
  refine Code.AtMost.guard fun _ hlength => ?_
  have hoffsets := Code.AtMost.concat fun (n : Int64) (_ : n ∈ c.offsetsForRefFrames) =>
    Code.atMost_se n.toInt
  refine ((Code.atMost_flag _).append ((Code.atMost_se _).append ((Code.atMost_se _).append
    ((Code.atMost_ue _).append hoffsets)))).mono ?_
  omega

end OrderCycle

namespace PicOrderCount

def WellFormed : PicOrderCount → Prop
  | lowBits log2 => log2.toNat ≤ 12
  | cycle c => c.WellFormed
  | decodingOrder => True

theorem type_le (p : PicOrderCount) : p.type ≤ 2 := by
  cases p <;> simp [type]

theorem reads_code {p : PicOrderCount} (h : p.WellFormed) : Reads parse p.code tail p := by
  refine (Parse.reads_ueUpTo p.type_le).bind ?_
  cases p with
  | lowBits log2 =>
    refine (Parse.reads_ueUpTo h).bind_pure ?_
    simp
  | cycle c => exact (OrderCycle.reads_code h).bind_pure rfl
  | decodingOrder => exact Reads.pure _

theorem accepts_parse : Accepts parse fun p c => p.WellFormed ∧ c = p.code := by
  refine Parse.accepts_ueUpTo.bind ?_
  rintro type _ ⟨htype, rfl⟩
  match type with
  | 0 =>
    refine Accepts.bind Parse.accepts_ueUpTo8 ?_
    rintro _ _ ⟨log2, rfl, hlog2, rfl⟩
    simp only [Nat.toUInt8, UInt8.ofNat_toNat]
    exact Accepts.pure ⟨hlog2, by rw [Code.append_empty]; rfl⟩
  | 1 =>
    refine OrderCycle.accepts_parse.bind ?_
    rintro c _ ⟨hc, rfl⟩
    exact Accepts.pure ⟨hc, by rw [Code.append_empty]; rfl⟩
  | 2 => exact Accepts.pure ⟨trivial, rfl⟩

theorem atMost_code (p : PicOrderCount) : p.code.AtMost 18000 := by
  cases p with
  | lowBits log2 => exact ((Code.atMost_ue _).append (Code.atMost_ue _)).mono (by decide)
  | cycle c => exact ((Code.atMost_ue _).append c.atMost_code).mono (by decide)
  | decodingOrder => exact ((Code.atMost_ue _).append Code.atMost_empty).mono (by decide)

end PicOrderCount

namespace SampleFormat

structure WellFormed (f : SampleFormat) : Prop where
  chromaFormatIdc : f.chromaFormatIdc.toNat ≤ 3
  separateColourPlanes : f.chromaFormatIdc ≠ 3 → f.separateColourPlanes = false
  bitDepthLumaMinus8 : f.bitDepthLumaMinus8.toNat ≤ 6
  bitDepthChromaMinus8 : f.bitDepthChromaMinus8.toNat ≤ 6
  scalingMatrix : ∀ m ∈ f.scalingMatrix, m.WellFormed (scalingListCount f.chromaFormatIdc)

theorem reads_code {f : SampleFormat} (h : f.WellFormed) : Reads parse f.code tail f := by
  simp only [code, Code.append_assoc]
  refine (Parse.reads_ueUpTo h.chromaFormatIdc).bind ?_
  simp only [Nat.toUInt8, UInt8.ofNat_toNat]
  rw [ite_bind]
  refine (Reads.onlyIf (fun _ => Parse.reads_flag _) h.separateColourPlanes).bind ?_
  refine (Parse.reads_ueUpTo h.bitDepthLumaMinus8).bind ?_
  refine (Parse.reads_ueUpTo h.bitDepthChromaMinus8).bind ?_
  refine (Parse.reads_flag _).bind ?_
  refine (Parse.reads_optional fun m hm =>
    ScalingMatrix.reads_code (h.scalingMatrix m hm)).bind_pure ?_
  simp only [UInt8.ofNat_toNat]

theorem accepts_parse : Accepts parse fun f c =>
    f.WellFormed ∧ (f.scalingMatrix = none → c = f.code) := by
  refine Accepts.bind Parse.accepts_ueUpTo8 ?_
  rintro _ _ ⟨chroma, rfl, hchroma, rfl⟩
  simp only [Nat.toUInt8, UInt8.ofNat_toNat]
  rw [ite_bind]
  refine (Accepts.onlyIf fun _ => Parse.accepts_flag.always).bind ?_
  rintro planes _ ⟨⟨-, hplanes⟩, rfl⟩
  refine Accepts.bind Parse.accepts_ueUpTo8 ?_
  rintro _ _ ⟨luma, rfl, hluma, rfl⟩
  refine Accepts.bind Parse.accepts_ueUpTo8 ?_
  rintro _ _ ⟨depthChroma, rfl, hdepthChroma, rfl⟩
  refine Parse.accepts_flag.bind ?_
  rintro lossless _ rfl
  refine (Parse.accepts_optional_of (ScalingMatrix.accepts_parse _)).bind ?_
  rintro matrix d hmatrix
  simp only [UInt8.ofNat_toNat]
  refine Accepts.pure ⟨⟨hchroma, hplanes, hluma, hdepthChroma, ?_⟩, ?_⟩
  · rintro m rfl
    obtain ⟨_, hm, _⟩ := hmatrix
    exact hm
  · rintro rfl
    obtain rfl : d = .flag false := hmatrix
    simp only [code, Code.append_assoc, Code.append_empty]
    rfl

theorem atMost_code (f : SampleFormat) : f.code.AtMost 33000 := by
  simp only [code, Code.append_assoc]
  apply Code.AtMost.next (Code.atMost_ue _) (by decide)
  apply Code.AtMost.next (.onlyIf fun _ => Code.atMost_flag _) (by decide)
  apply Code.AtMost.next (Code.atMost_ue _) (by decide)
  apply Code.AtMost.next (Code.atMost_ue _) (by decide)
  apply Code.AtMost.next (Code.atMost_flag _) (by decide)
  exact Code.AtMost.mono (.optional fun m _ => m.atMost_code _) (by decide)

end SampleFormat

namespace Sps

/-- What reading can yield. The sample format is there exactly if the profile codes one. -/
structure WellFormed (s : Sps) : Prop where
  reservedZero2Bits : s.reservedZero2Bits.toNat < 2 ^ 2
  id : s.id.toNat ≤ 31
  isHighProfile : isHighProfile s.profileIdc = s.sampleFormat.isSome
  sampleFormat : ∀ f ∈ s.sampleFormat, f.WellFormed
  log2MaxFrameNumMinus4 : s.log2MaxFrameNumMinus4.toNat ≤ 12
  picOrderCount : s.picOrderCount.WellFormed
  maxNumRefFrames : s.maxNumRefFrames.toNat ≤ 16
  picWidthInMbsMinus1 : s.picWidthInMbsMinus1.toNat ≤ maxValue
  picHeightInMapUnitsMinus1 : s.picHeightInMapUnitsMinus1.toNat ≤ maxValue
  mbAdaptiveFrameField : s.frameMbsOnly = true → s.mbAdaptiveFrameField = false
  cropping : ∀ c ∈ s.cropping, c.WellFormed
  vui : ∀ v ∈ s.vui, v.WellFormed

theorem reads_code {s : Sps} (h : s.WellFormed) : Reads parse s.code tail s := by
  have hid := h.id
  have hreserved : s.reservedZero2Bits.toNat % 4 = s.reservedZero2Bits.toNat :=
    Nat.mod_eq_of_lt h.reservedZero2Bits
  simp only [code, Code.append_assoc, hreserved]
  refine Reads.check ?_ (by omega) (by omega)
  refine (Parse.reads_octet (by decide) s.profileIdc.toNat_lt).bind ?_
  refine (Parse.reads_flag _).bind ?_
  refine (Parse.reads_flag _).bind ?_
  refine (Parse.reads_flag _).bind ?_
  refine (Parse.reads_flag _).bind ?_
  refine (Parse.reads_flag _).bind ?_
  refine (Parse.reads_flag _).bind ?_
  refine (Parse.reads_octet (by decide) h.reservedZero2Bits).bind ?_
  refine (Parse.reads_octet (by decide) s.levelIdc.toNat_lt).bind ?_
  refine (Parse.reads_ueUpTo hid).bind ?_
  rw [ite_bind]
  refine (Reads.presence (by rw [h.isHighProfile]) (fun f hf =>
    SampleFormat.reads_code (h.sampleFormat f hf)) {}).bind ?_
  refine (Parse.reads_ueUpTo h.log2MaxFrameNumMinus4).bind ?_
  refine (PicOrderCount.reads_code h.picOrderCount).bind ?_
  refine (Parse.reads_ueUpTo h.maxNumRefFrames).bind ?_
  refine (Parse.reads_flag _).bind ?_
  refine (Parse.reads_ue h.picWidthInMbsMinus1).bind ?_
  refine (Parse.reads_ue h.picHeightInMapUnitsMinus1).bind ?_
  refine (Parse.reads_flag _).bind ?_
  rw [ite_bind]
  refine (Reads.unless (fun _ => Parse.reads_flag _) h.mbAdaptiveFrameField).bind ?_
  refine (Parse.reads_flag _).bind ?_
  refine (Parse.reads_optional fun c hc => FrameCropping.reads_code (h.cropping c hc)).bind ?_
  refine (Parse.reads_optional fun v hv => VuiParameters.reads_code (h.vui v hv)).bind_pure ?_
  simp only [Nat.toUInt8, UInt8.ofNat_toNat, Nat.toUInt64, UInt64.ofNat_toNat]

theorem valid_code {s : Sps} (h : s.WellFormed) : s.code.Valid :=
  (reads_code h : Reads parse s.code [] s).valid

theorem accepts_parse : Accepts parse fun s c =>
    s.WellFormed ∧ ((∀ f ∈ s.sampleFormat, f.scalingMatrix = none) → c = s.code) := by
  refine Accepts.bind (Parse.accepts_octet (by decide)) ?_
  rintro profileIdc _ ⟨-, rfl⟩
  refine Parse.accepts_flag.bind ?_
  rintro set0 _ rfl
  refine Parse.accepts_flag.bind ?_
  rintro set1 _ rfl
  refine Parse.accepts_flag.bind ?_
  rintro set2 _ rfl
  refine Parse.accepts_flag.bind ?_
  rintro set3 _ rfl
  refine Parse.accepts_flag.bind ?_
  rintro set4 _ rfl
  refine Parse.accepts_flag.bind ?_
  rintro set5 _ rfl
  refine Accepts.bind (Parse.accepts_octet (by decide)) ?_
  rintro reserved _ ⟨hreserved, rfl⟩
  refine Accepts.bind (Parse.accepts_octet (by decide)) ?_
  rintro levelIdc _ ⟨-, rfl⟩
  refine Accepts.bind Parse.accepts_ueUpTo8 ?_
  rintro _ _ ⟨id, rfl, hid, rfl⟩
  rw [ite_bind]
  refine (Accepts.presence_of (fun _ => SampleFormat.accepts_parse) {}).bind ?_
  rintro format d ⟨hhigh, hformat, hd⟩
  refine Accepts.bind Parse.accepts_ueUpTo8 ?_
  rintro _ _ ⟨log2, rfl, hlog2, rfl⟩
  refine PicOrderCount.accepts_parse.bind ?_
  rintro order _ ⟨horder, rfl⟩
  refine Accepts.bind Parse.accepts_ueUpTo8 ?_
  rintro _ _ ⟨refFrames, rfl, hrefFrames, rfl⟩
  refine Parse.accepts_flag.bind ?_
  rintro gaps _ rfl
  refine Parse.accepts_ue64.bind ?_
  rintro _ _ ⟨width, rfl, hwidth, rfl⟩
  refine Parse.accepts_ue64.bind ?_
  rintro _ _ ⟨height, rfl, hheight, rfl⟩
  refine Parse.accepts_flag.bind ?_
  rintro frameMbsOnly _ rfl
  rw [ite_bind]
  refine (Accepts.unless fun _ => Parse.accepts_flag.always).bind ?_
  rintro adaptive _ ⟨⟨-, hadaptive⟩, rfl⟩
  refine Parse.accepts_flag.bind ?_
  rintro direct _ rfl
  refine (Parse.accepts_optional FrameCropping.accepts_parse).bind ?_
  rintro cropping _ ⟨hcropping, rfl⟩
  refine (Parse.accepts_optional VuiParameters.accepts_parse).bind ?_
  rintro vui _ ⟨hvui, rfl⟩
  simp only [Nat.toUInt8, UInt8.ofNat_toNat, Nat.toUInt64, UInt64.ofNat_toNat]
  refine Accepts.pure ⟨⟨hreserved, hid, Bool.eq_iff_iff.mpr hhigh, hformat, hlog2, horder,
    hrefFrames, hwidth, hheight, hadaptive, hcropping, hvui⟩, fun hmatrix => ?_⟩
  have hmod : reserved.toNat % 4 = reserved.toNat := Nat.mod_eq_of_lt hreserved
  simp only [code, Code.append_assoc, Code.append_empty, hd hmatrix, hmod]
  rw [Code.inRange_eq_empty (by omega) (by omega), Code.empty_append]

theorem atMost_code (s : Sps) : s.code.AtMost 70000 := by
  simp only [code, Code.append_assoc]
  apply Code.AtMost.next (Code.atMost_inRange _ _ _ _) (by decide)
  apply Code.AtMost.next (Code.atMost_u 8 _) (by decide)
  apply Code.AtMost.next (Code.atMost_flag _) (by decide)
  apply Code.AtMost.next (Code.atMost_flag _) (by decide)
  apply Code.AtMost.next (Code.atMost_flag _) (by decide)
  apply Code.AtMost.next (Code.atMost_flag _) (by decide)
  apply Code.AtMost.next (Code.atMost_flag _) (by decide)
  apply Code.AtMost.next (Code.atMost_flag _) (by decide)
  apply Code.AtMost.next (Code.atMost_u 2 _) (by decide)
  apply Code.AtMost.next (Code.atMost_u 8 _) (by decide)
  apply Code.AtMost.next (Code.atMost_ue _) (by decide)
  apply Code.AtMost.next (.onlyIf fun _ => (s.sampleFormat.getD {}).atMost_code) (by decide)
  apply Code.AtMost.next (Code.atMost_ue _) (by decide)
  apply Code.AtMost.next s.picOrderCount.atMost_code (by decide)
  apply Code.AtMost.next (Code.atMost_ue _) (by decide)
  apply Code.AtMost.next (Code.atMost_flag _) (by decide)
  apply Code.AtMost.next (Code.atMost_ue _) (by decide)
  apply Code.AtMost.next (Code.atMost_ue _) (by decide)
  apply Code.AtMost.next (Code.atMost_flag _) (by decide)
  apply Code.AtMost.next (.onlyIf fun _ => Code.atMost_flag _) (by decide)
  apply Code.AtMost.next (Code.atMost_flag _) (by decide)
  apply Code.AtMost.next (.optional fun c _ => c.atMost_code) (by decide)
  exact Code.AtMost.mono (.optional fun v _ => v.atMost_code) (by decide)

end Sps

end AvcSyntax

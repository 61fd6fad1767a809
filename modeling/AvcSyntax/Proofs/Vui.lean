import AvcSyntax.Proofs.Bits.Words
import AvcSyntax.Vui.Basic

/-!
# Video usability information is coded canonically

For each record: which values reading can yield, that its code is read back, and that nothing
else is read as that record. The bounds on the lengths of the codes hold of all records, those
that reading never yields included.
-/
namespace AvcSyntax

variable {tail : Bits}

namespace AspectRatio

/-- Width and height are there only if they are coded. -/
def WellFormed (a : AspectRatio) : Prop := a.idc ≠ extended → a.width = 0 ∧ a.height = 0

theorem reads_code {a : AspectRatio} (h : a.WellFormed) : Reads parse a.code tail a := by
  refine (Parse.reads_word a.idc.toNat_lt).bind ?_
  simp only [Nat.toUInt8, UInt8.ofNat_toNat]
  by_cases hidc : a.idc = extended
  · rw [if_pos hidc, Code.onlyIf_true hidc]
    refine (Parse.reads_word a.width.toNat_lt).bind
      ((Parse.reads_word a.height.toNat_lt).bind_pure ?_)
    simp
  · obtain ⟨hwidth, hheight⟩ := h hidc
    rw [if_neg hidc, Code.onlyIf_false hidc]
    have ha : ({ idc := a.idc } : AspectRatio) = a := by
      cases a
      simp_all
    exact ha ▸ Reads.pure _

theorem accepts_parse : Accepts parse fun a c => a.WellFormed ∧ c = a.code := by
  refine Parse.accepts_word8.bind ?_
  rintro _ _ ⟨idc, rfl, rfl⟩
  simp only [Nat.toUInt8, UInt8.ofNat_toNat]
  refine Accepts.ite (fun hidc => ?_) fun hidc => ?_
  · refine Parse.accepts_word16.bind ?_
    rintro _ _ ⟨width, rfl, rfl⟩
    refine Parse.accepts_word16.bind ?_
    rintro _ _ ⟨height, rfl, rfl⟩
    refine Accepts.pure ⟨fun hne => absurd hidc hne, ?_⟩
    simp [code, hidc]
  · refine Accepts.pure ⟨fun _ => ⟨rfl, rfl⟩, ?_⟩
    simp [code, hidc]

theorem atMost_code (a : AspectRatio) : a.code.AtMost 40 :=
  (Code.atMost_word 1 _).append
    (Code.AtMost.onlyIf fun _ => (Code.atMost_word 2 _).append (Code.atMost_word 2 _))

end AspectRatio

namespace ColourDescription

theorem reads_code (d : ColourDescription) : Reads parse d.code tail d := by
  simp only [code, Code.append_assoc]
  refine (Parse.reads_word d.primaries.toNat_lt).bind
    ((Parse.reads_word d.transfer.toNat_lt).bind
      ((Parse.reads_word d.matrix.toNat_lt).bind_pure ?_))
  simp

theorem accepts_parse : Accepts parse fun d c => c = d.code := by
  refine Parse.accepts_word8.bind ?_
  rintro _ _ ⟨primaries, rfl, rfl⟩
  refine Parse.accepts_word8.bind ?_
  rintro _ _ ⟨transfer, rfl, rfl⟩
  refine Parse.accepts_word8.bind ?_
  rintro _ _ ⟨matrix, rfl, rfl⟩
  apply Accepts.pure
  simp [code, Code.append_assoc]

theorem atMost_code (d : ColourDescription) : d.code.AtMost 24 :=
  ((Code.atMost_word 1 _).append (Code.atMost_word 1 _)).append (Code.atMost_word 1 _)

end ColourDescription

namespace VideoFormat

theorem code_lt (f : VideoFormat) : f.code < 2 ^ 3 := by cases f <;> decide

theorem ofCode_code (f : VideoFormat) : ofCode f.code = f := by cases f <;> rfl

theorem code_ofCode : ∀ n < 2 ^ 3, (ofCode n).code = n := by decide

end VideoFormat

namespace VideoSignal

theorem reads_code (s : VideoSignal) : Reads parse s.code tail s := by
  simp only [code, Code.append_assoc]
  refine (Parse.reads_u (by decide) s.format.code_lt).bind
    ((Parse.reads_flag _).bind
      ((Parse.reads_optional fun d _ => d.reads_code).bind_pure ?_))
  simp [VideoFormat.ofCode_code]

theorem accepts_parse : Accepts parse fun s c => c = s.code := by
  refine (Parse.accepts_u (by decide)).bind ?_
  rintro format _ ⟨hformat, rfl⟩
  refine Parse.accepts_flag.bind ?_
  rintro fullRange _ rfl
  refine (Parse.accepts_optional ColourDescription.accepts_parse.always).bind ?_
  rintro colour _ ⟨-, rfl⟩
  apply Accepts.pure
  simp [code, Code.append_assoc, VideoFormat.code_ofCode format hformat]

theorem atMost_code (s : VideoSignal) : s.code.AtMost 29 :=
  ((Code.atMost_u 3 _).append (Code.atMost_flag _)).append
    (Code.AtMost.optional fun d _ => ColourDescription.atMost_code d)

end VideoSignal

namespace ChromaLocation

structure WellFormed (l : ChromaLocation) : Prop where
  topField : l.topField.toNat ≤ 5
  bottomField : l.bottomField.toNat ≤ 5

theorem reads_code {l : ChromaLocation} (h : l.WellFormed) : Reads parse l.code tail l := by
  unfold code
  refine (Parse.reads_ueUpTo h.topField).bind ((Parse.reads_ueUpTo h.bottomField).bind_pure ?_)
  simp

theorem accepts_parse : Accepts parse fun l c => l.WellFormed ∧ c = l.code := by
  refine Accepts.bind Parse.accepts_ueUpTo8 ?_
  rintro _ _ ⟨top, rfl, htop, rfl⟩
  refine Accepts.bind Parse.accepts_ueUpTo8 ?_
  rintro _ _ ⟨bottom, rfl, hbottom, rfl⟩
  simp only [Nat.toUInt8, UInt8.ofNat_toNat]
  exact Accepts.pure ⟨⟨htop, hbottom⟩, by rw [Code.append_empty, code]⟩

theorem atMost_code (l : ChromaLocation) : l.code.AtMost 130 :=
  (Code.atMost_ue _).append (Code.atMost_ue _)

end ChromaLocation

namespace TimingInfo

theorem reads_code (t : TimingInfo) : Reads parse t.code tail t := by
  simp only [code, Code.append_assoc]
  refine (Parse.reads_word t.unitsInTick.toNat_lt).bind
    ((Parse.reads_word t.timeScale.toNat_lt).bind ((Parse.reads_flag _).bind_pure ?_))
  simp

theorem accepts_parse : Accepts parse fun t c => c = t.code := by
  refine Parse.accepts_word32.bind ?_
  rintro _ _ ⟨unitsInTick, rfl, rfl⟩
  refine Parse.accepts_word32.bind ?_
  rintro _ _ ⟨timeScale, rfl, rfl⟩
  refine Parse.accepts_flag.bind ?_
  rintro fixedFrameRate _ rfl
  apply Accepts.pure
  simp [code, Code.append_assoc]

theorem atMost_code (t : TimingInfo) : t.code.AtMost bitSize :=
  ((Code.atMost_word 4 _).append (Code.atMost_word 4 _)).append (Code.atMost_flag _)

end TimingInfo

namespace DeliverySchedule

structure WellFormed (s : DeliverySchedule) : Prop where
  bitRateValueMinus1 : s.bitRateValueMinus1.toNat ≤ 2 ^ 32 - 2
  cpbSizeValueMinus1 : s.cpbSizeValueMinus1.toNat ≤ 2 ^ 32 - 2

theorem reads_code {s : DeliverySchedule} (h : s.WellFormed) : Reads parse s.code tail s := by
  simp only [code, Code.append_assoc]
  refine (Parse.reads_ueUpTo h.bitRateValueMinus1).bind
    ((Parse.reads_ueUpTo h.cpbSizeValueMinus1).bind ((Parse.reads_flag _).bind_pure ?_))
  simp

theorem accepts_parse : Accepts parse fun s c => s.WellFormed ∧ c = s.code := by
  refine Accepts.bind Parse.accepts_ueUpTo32 ?_
  rintro _ _ ⟨bitRate, rfl, hbitRate, rfl⟩
  refine Accepts.bind Parse.accepts_ueUpTo32 ?_
  rintro _ _ ⟨cpbSize, rfl, hcpbSize, rfl⟩
  refine Parse.accepts_flag.bind ?_
  rintro constantBitRate _ rfl
  simp only [Nat.toUInt32, UInt32.ofNat_toNat]
  refine Accepts.pure ⟨⟨hbitRate, hcpbSize⟩, ?_⟩
  simp only [code, Code.append_assoc, Code.append_empty]

theorem atMost_code (s : DeliverySchedule) : s.code.AtMost 131 :=
  ((Code.atMost_ue _).append (Code.atMost_ue _)).append (Code.atMost_flag _)

end DeliverySchedule

namespace HrdParameters

structure WellFormed (h : HrdParameters) : Prop where
  bitRateScale : h.bitRateScale.toNat < 2 ^ 4
  cpbSizeScale : h.cpbSizeScale.toNat < 2 ^ 4
  schedules_nonempty : 1 ≤ h.schedules.length
  length_schedules : h.schedules.length ≤ 32
  schedules : ∀ s ∈ h.schedules, s.WellFormed
  initialCpbRemovalDelayLengthMinus1 : h.initialCpbRemovalDelayLengthMinus1.toNat < 2 ^ 5
  cpbRemovalDelayLengthMinus1 : h.cpbRemovalDelayLengthMinus1.toNat < 2 ^ 5
  dpbOutputDelayLengthMinus1 : h.dpbOutputDelayLengthMinus1.toNat < 2 ^ 5
  timeOffsetLength : h.timeOffsetLength.toNat < 2 ^ 5

theorem reads_code {p : HrdParameters} (h : p.WellFormed) : Reads parse p.code tail p := by
  have hcount : p.schedules.length - 1 ≤ 31 := by have := h.length_schedules; omega
  have hlength : p.schedules.length - 1 + 1 = p.schedules.length := by
    have := h.schedules_nonempty
    omega
  have hcheck := h.schedules_nonempty
  have hcheck' := h.length_schedules
  simp only [code, Code.append_assoc]
  refine Reads.check ?_ (by omega) (by omega)
  refine (Parse.reads_ueUpTo hcount).bind ?_
  rw [hlength]
  refine (Parse.reads_octet (by decide) h.bitRateScale).bind ?_
  refine (Parse.reads_octet (by decide) h.cpbSizeScale).bind ?_
  refine (Parse.reads_times fun s hs _ => DeliverySchedule.reads_code (h.schedules s hs)).bind ?_
  refine (Parse.reads_octet (by decide) h.initialCpbRemovalDelayLengthMinus1).bind ?_
  refine (Parse.reads_octet (by decide) h.cpbRemovalDelayLengthMinus1).bind ?_
  refine (Parse.reads_octet (by decide) h.dpbOutputDelayLengthMinus1).bind ?_
  exact (Parse.reads_octet (by decide) h.timeOffsetLength).bind_pure rfl

theorem accepts_parse : Accepts parse fun p c => p.WellFormed ∧ c = p.code := by
  refine Parse.accepts_ueUpTo.bind ?_
  rintro countMinus1 _ ⟨hcount, rfl⟩
  refine Accepts.bind (Parse.accepts_octet (by decide)) ?_
  rintro bitRateScale _ ⟨hbitRate, rfl⟩
  refine Accepts.bind (Parse.accepts_octet (by decide)) ?_
  rintro cpbSizeScale _ ⟨hcpbSize, rfl⟩
  refine (Parse.accepts_times DeliverySchedule.accepts_parse _).bind ?_
  rintro schedules _ ⟨hlength, hschedules, rfl⟩
  refine Accepts.bind (Parse.accepts_octet (by decide)) ?_
  rintro initialDelay _ ⟨hinitialDelay, rfl⟩
  refine Accepts.bind (Parse.accepts_octet (by decide)) ?_
  rintro removalDelay _ ⟨hremovalDelay, rfl⟩
  refine Accepts.bind (Parse.accepts_octet (by decide)) ?_
  rintro outputDelay _ ⟨houtputDelay, rfl⟩
  refine Accepts.bind (Parse.accepts_octet (by decide)) ?_
  rintro timeOffset _ ⟨htimeOffset, rfl⟩
  refine Accepts.pure ⟨⟨hbitRate, hcpbSize, by simp only; omega, by simp only; omega, hschedules,
    hinitialDelay, hremovalDelay, houtputDelay, htimeOffset⟩, ?_⟩
  have hminus : schedules.length - 1 = countMinus1 := by omega
  simp only [code, Code.append_assoc, Code.append_empty, hminus]
  rw [Code.inRange_eq_empty (by omega) (by omega), Code.empty_append]

theorem atMost_code (p : HrdParameters) : p.code.AtMost 4285 := by
  simp only [code, Code.append_assoc]
  refine Code.AtMost.guard fun _ hlength => ?_
  have hschedules := Code.AtMost.concat fun s (_ : s ∈ p.schedules) => s.atMost_code
  refine ((Code.atMost_ue _).append ((Code.atMost_u 4 _).append ((Code.atMost_u 4 _).append
    (hschedules.append ((Code.atMost_u 5 _).append ((Code.atMost_u 5 _).append
      ((Code.atMost_u 5 _).append (Code.atMost_u 5 _)))))))).mono ?_
  omega

end HrdParameters

namespace BitstreamRestriction

structure WellFormed (b : BitstreamRestriction) : Prop where
  maxBytesPerPicDenom : b.maxBytesPerPicDenom.toNat ≤ 16
  maxBitsPerMbDenom : b.maxBitsPerMbDenom.toNat ≤ 16
  log2MaxMvLengthHorizontal : b.log2MaxMvLengthHorizontal.toNat ≤ 16
  log2MaxMvLengthVertical : b.log2MaxMvLengthVertical.toNat ≤ 16
  maxNumReorderFrames : b.maxNumReorderFrames.toNat ≤ 16
  maxDecFrameBuffering : b.maxDecFrameBuffering.toNat ≤ 16

theorem reads_code {b : BitstreamRestriction} (h : b.WellFormed) :
    Reads parse b.code tail b := by
  simp only [code, Code.append_assoc]
  refine (Parse.reads_flag _).bind ?_
  refine (Parse.reads_ueUpTo h.maxBytesPerPicDenom).bind ?_
  refine (Parse.reads_ueUpTo h.maxBitsPerMbDenom).bind ?_
  refine (Parse.reads_ueUpTo h.log2MaxMvLengthHorizontal).bind ?_
  refine (Parse.reads_ueUpTo h.log2MaxMvLengthVertical).bind ?_
  refine (Parse.reads_ueUpTo h.maxNumReorderFrames).bind ?_
  refine (Parse.reads_ueUpTo h.maxDecFrameBuffering).bind_pure ?_
  simp

theorem accepts_parse : Accepts parse fun b c => b.WellFormed ∧ c = b.code := by
  refine Parse.accepts_flag.bind ?_
  rintro overBoundaries _ rfl
  refine Accepts.bind Parse.accepts_ueUpTo8 ?_
  rintro _ _ ⟨bytesDenom, rfl, hbytesDenom, rfl⟩
  refine Accepts.bind Parse.accepts_ueUpTo8 ?_
  rintro _ _ ⟨bitsDenom, rfl, hbitsDenom, rfl⟩
  refine Accepts.bind Parse.accepts_ueUpTo8 ?_
  rintro _ _ ⟨horizontal, rfl, hhorizontal, rfl⟩
  refine Accepts.bind Parse.accepts_ueUpTo8 ?_
  rintro _ _ ⟨vertical, rfl, hvertical, rfl⟩
  refine Accepts.bind Parse.accepts_ueUpTo32 ?_
  rintro _ _ ⟨reorder, rfl, hreorder, rfl⟩
  refine Accepts.bind Parse.accepts_ueUpTo32 ?_
  rintro _ _ ⟨buffering, rfl, hbuffering, rfl⟩
  simp only [Nat.toUInt8, UInt8.ofNat_toNat, Nat.toUInt32, UInt32.ofNat_toNat]
  refine Accepts.pure ⟨⟨hbytesDenom, hbitsDenom, hhorizontal, hvertical, hreorder,
    hbuffering⟩, ?_⟩
  simp only [code, Code.append_assoc, Code.append_empty]

theorem atMost_code (b : BitstreamRestriction) : b.code.AtMost 391 :=
  ((((((Code.atMost_flag _).append (Code.atMost_ue _)).append (Code.atMost_ue _)).append
    (Code.atMost_ue _)).append (Code.atMost_ue _)).append (Code.atMost_ue _)).append
    (Code.atMost_ue _)

end BitstreamRestriction

namespace VuiParameters

structure WellFormed (v : VuiParameters) : Prop where
  aspectRatio : ∀ a ∈ v.aspectRatio, a.WellFormed
  chromaLocation : ∀ l ∈ v.chromaLocation, l.WellFormed
  nalHrd : ∀ h ∈ v.nalHrd, h.WellFormed
  vclHrd : ∀ h ∈ v.vclHrd, h.WellFormed
  lowDelayHrd : ¬v.hasHrd → v.lowDelayHrd = false
  restriction : ∀ b ∈ v.restriction, b.WellFormed

theorem reads_code {v : VuiParameters} (h : v.WellFormed) : Reads parse v.code tail v := by
  simp only [code, Code.append_assoc]
  refine (Parse.reads_optional fun a ha => AspectRatio.reads_code (h.aspectRatio a ha)).bind ?_
  refine (Parse.reads_optional fun _ _ => Parse.reads_flag _).bind ?_
  refine (Parse.reads_optional fun s _ => s.reads_code).bind ?_
  refine (Parse.reads_optional fun l hl =>
    ChromaLocation.reads_code (h.chromaLocation l hl)).bind ?_
  refine (Parse.reads_optional fun t _ => t.reads_code).bind ?_
  refine (Parse.reads_optional fun p hp => HrdParameters.reads_code (h.nalHrd p hp)).bind ?_
  refine (Parse.reads_optional fun p hp => HrdParameters.reads_code (h.vclHrd p hp)).bind ?_
  rw [ite_bind]
  refine (Reads.onlyIf (fun _ => Parse.reads_flag _) h.lowDelayHrd).bind ?_
  refine (Parse.reads_flag _).bind ?_
  refine (Parse.reads_optional fun b hb =>
    BitstreamRestriction.reads_code (h.restriction b hb)).bind_pure ?_
  rfl

theorem accepts_parse : Accepts parse fun v c => v.WellFormed ∧ c = v.code := by
  refine (Parse.accepts_optional AspectRatio.accepts_parse).bind ?_
  rintro aspectRatio _ ⟨haspectRatio, rfl⟩
  refine (Parse.accepts_optional Parse.accepts_flag.always).bind ?_
  rintro overscan _ ⟨-, rfl⟩
  refine (Parse.accepts_optional VideoSignal.accepts_parse.always).bind ?_
  rintro videoSignal _ ⟨-, rfl⟩
  refine (Parse.accepts_optional ChromaLocation.accepts_parse).bind ?_
  rintro chromaLocation _ ⟨hchromaLocation, rfl⟩
  refine (Parse.accepts_optional TimingInfo.accepts_parse.always).bind ?_
  rintro timing _ ⟨-, rfl⟩
  refine (Parse.accepts_optional HrdParameters.accepts_parse).bind ?_
  rintro nalHrd _ ⟨hnalHrd, rfl⟩
  refine (Parse.accepts_optional HrdParameters.accepts_parse).bind ?_
  rintro vclHrd _ ⟨hvclHrd, rfl⟩
  rw [ite_bind]
  refine (Accepts.onlyIf fun _ => Parse.accepts_flag.always).bind ?_
  rintro lowDelay _ ⟨⟨-, hlowDelay⟩, rfl⟩
  refine Parse.accepts_flag.bind ?_
  rintro picStruct _ rfl
  refine (Parse.accepts_optional BitstreamRestriction.accepts_parse).bind ?_
  rintro restriction _ ⟨hrestriction, rfl⟩
  refine Accepts.pure ⟨⟨haspectRatio, hchromaLocation, hnalHrd, hvclHrd, hlowDelay,
    hrestriction⟩, ?_⟩
  simp only [code, Code.append_assoc, Code.append_empty]
  rfl

theorem atMost_code (v : VuiParameters) : v.code.AtMost 10000 := by
  simp only [code, Code.append_assoc]
  apply Code.AtMost.next (.optional fun a _ => a.atMost_code) (by decide)
  apply Code.AtMost.next (.optional fun b _ => Code.atMost_flag b) (by decide)
  apply Code.AtMost.next (.optional fun s _ => s.atMost_code) (by decide)
  apply Code.AtMost.next (.optional fun l _ => l.atMost_code) (by decide)
  apply Code.AtMost.next (.optional fun t _ => t.atMost_code) (by decide)
  apply Code.AtMost.next (.optional fun p _ => p.atMost_code) (by decide)
  apply Code.AtMost.next (.optional fun p _ => p.atMost_code) (by decide)
  apply Code.AtMost.next (.onlyIf fun _ => Code.atMost_flag _) (by decide)
  apply Code.AtMost.next (Code.atMost_flag _) (by decide)
  exact Code.AtMost.mono (.optional fun b _ => b.atMost_code) (by decide)

end VuiParameters

end AvcSyntax

import AvcSyntax.Proofs.Canonical.Sps
import AvcSyntax.Proofs.Stream.Basic

/-!
# Parameter sets are read back by any stream

A parameter set need not have been read to be written: that its coded fields are in range is
enough. The bytes do not depend on the settings of the writing stream, and of the parameter sets
known to it only a picture parameter set needs one, namely the chroma format of the sequence that
it names. So the writing and the reading stream may have different histories.
-/
namespace AvcSyntax

namespace NalHeader

variable {h : NalHeader}

/-- Parameter sets may have any level of reference use. -/
theorem brokenRule?_of_parameterSet (htype : h.unitType = .sps ∨ h.unitType = .pps) :
    h.brokenRule? = none := by
  rcases htype with htype | htype <;> simp [brokenRule?, htype, UnitType.code, UnitType.isIdr,
    UnitType.requiresZeroRefIdc]

theorem wellFormed_of_parameterSet (htype : h.unitType = .sps ∨ h.unitType = .pps)
    (hrefIdc : h.refIdc.toNat ≤ 3) : h.WellFormed := by
  refine ⟨hrefIdc, ?_⟩
  rcases htype with htype | htype
  · rw [htype]
    exact ⟨by decide, rfl⟩
  · rw [htype]
    exact ⟨by decide, rfl⟩

end NalHeader

theorem ParameterSets.chromaFormatIdc_congr {sets other : ParameterSets} {id : UInt8}
    (h : other.sps id = sets.sps id) : other.chromaFormatIdc id = sets.chromaFormatIdc id := by
  rw [chromaFormatIdc, h, chromaFormatIdc]

theorem Pps.code_congr {sets other : ParameterSets} {p : Pps}
    (h : other.chromaFormatIdc p.spsId = sets.chromaFormatIdc p.spsId) :
    p.code other = p.code sets := by
  rw [code_eq, code_eq, h]

namespace NalUnit

/-- The bytes of a unit are the same under all settings and parameter sets under which its payload
has the same bits. A header that breaks a rule can only be read by a lenient reader. -/
theorem exists_writtenAs_of {header : NalHeader} (hwf : header.WellFormed) {bs : Bits}
    (hmod : bs.length % 8 = 0) :
    ∃ w, ∀ (config : StreamConfig) (sets : ParameterSets) (p : NalPayload),
      (config.strictHeader = true → header.brokenRule? = none) → p.Coded header sets bs →
        WrittenAs ⟨header, p⟩ config sets w := by
  have hlength : (header.code.bits ++ bs).length = 8 * (1 + bs.length / 8) := by
    rw [List.length_append, NalHeader.length_bits_code hwf]
    omega
  obtain ⟨plain, -, hplain⟩ := Bits.exists_ofBytes hlength
  refine ⟨escaped 0 plain, ?_⟩
  intro config sets p hrule hp
  have hcoded : Coded config sets ⟨header, p⟩ (Bits.ofBytes plain) :=
    ⟨hwf, hrule, bs, hp, hplain⟩
  exact ⟨plain, hcoded, escape_eq plain⟩

theorem exists_writtenAs {header : NalHeader} (hwf : header.WellFormed)
    (hrule : header.brokenRule? = none) {bs : Bits} (hmod : bs.length % 8 = 0) :
    ∃ w, ∀ (config : StreamConfig) (sets : ParameterSets) (p : NalPayload),
      p.Coded header sets bs → WrittenAs ⟨header, p⟩ config sets w := by
  obtain ⟨w, hw⟩ := exists_writtenAs_of hwf hmod
  exact ⟨w, fun config sets p => hw config sets p fun _ => hrule⟩

theorem encode_sps_congr {s other : Sps} (h : other.code = s.code) (config : StreamConfig)
    (sets : ParameterSets) (header : NalHeader) :
    encode config sets ⟨header, .sps other⟩ = encode config sets ⟨header, .sps s⟩ := by
  simp only [encode, encodePlain, build, NalPayload.build, NalPayload.fits,
    NalPayload.unboundedSize, h]

/-- A sequence parameter set that reading can yield has the same bytes everywhere. -/
theorem exists_writtenAs_sps {header : NalHeader} {s : Sps} (hwf : header.WellFormed)
    (hrule : header.brokenRule? = none) (htype : header.unitType = .sps) (hs : s.WellFormed) :
    ∃ w, ∀ config sets, WrittenAs ⟨header, .sps s⟩ config sets w := by
  obtain ⟨w, hw⟩ := exists_writtenAs hwf hrule s.code.length_closed_mod
  exact ⟨w, fun config sets => hw config sets _ (.sps htype hs)⟩

end NalUnit

namespace Stream

/-- A sequence parameter set whose coded fields are in range can be written, and any stream reads
its canonical form and stores that. -/
theorem readUnit_of_writeUnit_sps (s t : Stream) {header : NalHeader} {sps : Sps}
    (htype : header.unitType = .sps) (hrefIdc : header.refIdc.toNat ≤ 3) (hsps : sps.InRange) :
    ∃ w, s.writeUnit ⟨header, .sps sps⟩ = .ok w ∧
      ∃ later, t.parameterSets.insertSps sps.canonical = .ok later ∧
        readUnit w t = .ok ⟨header, .sps sps.canonical⟩ { t with parameterSets := later } := by
  have hwf := NalHeader.wellFormed_of_parameterSet (.inl htype) hrefIdc
  have hrule := NalHeader.brokenRule?_of_parameterSet (.inl htype)
  obtain ⟨w, hw⟩ := NalUnit.exists_writtenAs_sps hwf hrule htype hsps.wellFormed
  refine ⟨w, ?_, ?_⟩
  · rw [writeUnit, ← NalUnit.encode_sps_congr sps.code_canonical]
    exact (hw s.config s.parameterSets).encode (by simp)
  · have hkeep : t.parameterSets.insertSps sps.canonical = .ok _ :=
      ParameterSets.insertSps_eq_ok.mpr ⟨hsps.wellFormed.id, rfl⟩
    exact ⟨_, hkeep, readUnit_eq_ok.mpr ⟨(hw _ _).decode, _, hkeep, rfl⟩⟩

/-- Too many reserved bits, a list that stands for the default one and a list that is not coded,
flags that are not coded, and a size beside a numbered ratio. -/
theorem readUnit_of_writeUnit_sps_loose :
    let loose : Sps := {
      profileIdc := 100
      reservedZero2Bits := 7
      sampleFormat := some {
        separateColourPlanes := true
        scalingMatrix := some {
          lists4x4 := #v[some (.flat 16 0 true), none, none, none, none, none]
          lists8x8 := #v[none, none, some (.flat 64 0 false), none, none, none] } }
      mbAdaptiveFrameField := true
      vui := some {
        aspectRatio := some { idc := 1, width := 4, height := 3 }
        lowDelayHrd := true } }
    let tight : Sps := {
      profileIdc := 100
      reservedZero2Bits := 3
      sampleFormat := some {
        scalingMatrix := some {
          lists4x4 := #v[some (.flat 16 8 true), none, none, none, none, none] } }
      vui := some { aspectRatio := some { idc := 1 } } }
    loose.InRange ∧ ∃ w, ({} : Stream).writeUnit ⟨⟨3, .sps⟩, .sps loose⟩ = .ok w ∧
      ∃ t, readUnit w { config := { strictTrailingBits := true } } =
        .ok ⟨⟨3, .sps⟩, .sps tight⟩ t := by
  intro loose tight
  have hformat : ∀ f ∈ loose.sampleFormat, f.InRange := by
    intro f hf
    obtain rfl := Option.some.inj hf
    refine ⟨by decide, by decide, by decide, ?_⟩
    intro m hm
    obtain rfl := Option.some.inj hm
    exact ⟨by decide, by decide⟩
  have hvui : ∀ v ∈ loose.vui, v.InRange := by
    intro v hv
    obtain rfl := Option.some.inj hv
    exact ⟨nofun, nofun, nofun, nofun⟩
  have hloose : loose.InRange :=
    ⟨by decide, fun _ => hformat, by decide, Nat.zero_le 12, by decide, by decide, by decide,
      nofun, hvui⟩
  have htight : loose.canonical = tight := by decide
  have htype : (⟨3, .sps⟩ : NalHeader).unitType = .sps := rfl
  obtain ⟨w, hw, _, -, hread⟩ := readUnit_of_writeUnit_sps {}
    { config := { strictTrailingBits := true } } htype (by decide) hloose
  exact ⟨hloose, w, hw, _, htight ▸ hread⟩

/-- A picture parameter set whose fields are in range can be written, and every stream that knows
the same sequence parameter set under the number that it names reads the very same set. -/
theorem readUnit_of_writeUnit_pps (s t : Stream) {header : NalHeader} {p : Pps}
    (htype : header.unitType = .pps) (hrefIdc : header.refIdc.toNat ≤ 3)
    (hp : p.WellFormed (s.parameterSets.chromaFormatIdc p.spsId))
    (hsps : t.parameterSets.sps p.spsId = s.parameterSets.sps p.spsId) :
    ∃ w, s.writeUnit ⟨header, .pps p⟩ = .ok w ∧
      readUnit w t = .ok ⟨header, .pps p⟩
        { t with parameterSets := t.parameterSets.insertPps p } := by
  have hwf := NalHeader.wellFormed_of_parameterSet (.inr htype) hrefIdc
  have hrule := NalHeader.brokenRule?_of_parameterSet (.inr htype)
  have hchroma := ParameterSets.chromaFormatIdc_congr hsps
  obtain ⟨w, hw⟩ :=
    NalUnit.exists_writtenAs hwf hrule (p.code s.parameterSets).length_closed_mod
  have hcoded : (NalPayload.pps p).Coded header t.parameterSets (p.code s.parameterSets).closed :=
    Pps.code_congr hchroma ▸ .pps htype (hchroma ▸ hp)
  refine ⟨w, ?_, ?_⟩
  · exact (hw s.config s.parameterSets _ (.pps htype hp)).encode (by simp)
  · exact readUnit_eq_ok.mpr ⟨(hw _ _ _ hcoded).decode, _, rfl, rfl⟩

/-- An extension that begins with a zero bit behind a changing map. Neither stream knows the
sequence. -/
theorem readUnit_of_writeUnit_pps_extended :
    let p : Pps := {
      sliceGroups := some { countMinus1 := 2, map := .changing 4 true 9 }
      extension := some { secondChromaQpIndexOffset := -12 } }
    p.WellFormed (({} : Stream).parameterSets.chromaFormatIdc p.spsId) ∧
      ∃ w, ({} : Stream).writeUnit ⟨⟨1, .pps⟩, .pps p⟩ = .ok w ∧
        ∃ t, readUnit w { config := { strictTrailingBits := true } } =
          .ok ⟨⟨1, .pps⟩, .pps p⟩ t := by
  intro p
  have hp : p.WellFormed (({} : Stream).parameterSets.chromaFormatIdc p.spsId) := by
    refine ⟨by decide, ?_, by decide, by decide, by decide, by decide, by decide, by decide, ?_⟩
    · intro g hg
      obtain rfl := Option.some.inj hg
      exact ⟨by decide, by decide, by decide, by decide⟩
    · intro e he
      obtain rfl := Option.some.inj he
      exact ⟨nofun, by decide, by decide⟩
  have htype : (⟨1, .pps⟩ : NalHeader).unitType = .pps := rfl
  obtain ⟨w, hw, hread⟩ := readUnit_of_writeUnit_pps {}
    { config := { strictTrailingBits := true } } htype (by decide) hp rfl
  exact ⟨hp, w, hw, _, hread⟩

end Stream

end AvcSyntax

import AvcSyntax.Proofs.Fixup.Downstream
import AvcSyntax.Proofs.Stream.Room

/-!
# What a failed patch leaves behind

Patching reads a unit, which stores what it holds, and then asks whether that was a sequence
parameter set. Behind that question nothing fails any more, whatever the fixup: a changed parameter
set keeps its number and can be written even with more reference frames than any reader accepts. So
a call that fails has failed in reading, which leaves no trace, or at the question. There it leaves
a trace if the unit was a picture parameter set, which has been stored like any other.
-/
namespace AvcSyntax

namespace Sps

theorem valid_code_withFrames {s : Sps} (h : s.code.Valid) (count : UInt8) :
    ({ s with maxNumRefFrames := count } : Sps).code.Valid := by
  have hframes : (Code.ue count.toNat).Valid := by
    refine ExpGolomb.valid_code ?_
    have hlt := count.toNat_lt
    have hmax : ExpGolomb.maxValue = 8589934590 := by decide
    omega
  simp only [code, Code.valid_append] at h ⊢
  tauto

end Sps

theorem SpsFixup.valid_code_apply (fixup : SpsFixup) {s : Sps} (h : s.WellFormed) :
    (fixup.apply s).code.Valid := by
  let rest : SpsFixup := { fixup with maxNumRefFrames := none }
  have hrest : (rest.apply s).withFormat.WellFormed := wellFormed_apply (fun _ hn => by cases hn) h
  have hcode : (rest.apply s).code.Valid :=
    Sps.code_withFormat (rest.apply s) ▸ Sps.valid_code hrest
  exact Sps.valid_code_withFrames hcode (fixup.maxNumRefFrames.getD s.maxNumRefFrames)

namespace NalUnit

theorem exists_encode_sps {header : NalHeader} (hheader : header.WellFormed)
    (htype : header.unitType = .sps) {s : Sps} (hs : s.code.Valid) (config : StreamConfig)
    (sets : ParameterSets) : ∃ w, encode config sets ⟨header, .sps s⟩ = .ok w := by
  have hwrite : ∀ {c : Code} {n : Nat}, c.Valid → c.AtMost n →
      Needs (fun _ => False) n (reportFaults c.write) :=
    fun hc hn => (hc.needs_write hn).report_of_safe
  have hpayload := (hwrite hs s.atMost_code).bind fun _ => Build.needs_trailingBits.report_of_safe
  have hneeds : Needs (fun _ => False) _ (build sets ⟨header, .sps s⟩) :=
    needs_build (hwrite (NalHeader.valid_code hheader) header.atMost_code)
      (hpayload.mono (by omega))
  have hfits : (NalPayload.sps s).fits header.unitType = true := by
    rw [htype]
    rfl
  rcases encode_of_needs hfits hneeds with h | ⟨_, -, hfalse⟩
  · exact h
  · exact hfalse.elim

end NalUnit

namespace Stream

variable {s t : Stream} {n : List UInt8} {v : SpsUnit} {e : NalError}

theorem exists_patchSps (fixup : SpsFixup)
    (h : NalUnit.decode s.config s.parameterSets n = .ok v.toNalUnit) :
    ∃ w t, patchSps fixup n s = .ok w t := by
  obtain ⟨hwf, hdecode⟩ := NalUnit.decode_sps h {}
  obtain ⟨_, ⟨_, hcoded, -⟩, -⟩ :=
    NalUnit.writtenAs_of_decode ParameterSets.wellFormed_empty hdecode
  have htype : v.header.unitType = .sps := beq_iff_eq.mp (NalUnit.fits_of_decode h)
  obtain ⟨w, hw⟩ := NalUnit.exists_encode_sps hcoded.header htype (fixup.valid_code_apply hwf)
    s.config {}
  exact ⟨w, (exists_patchSps_iff fixup).mpr ⟨v, hdecode, hw⟩⟩

/-- A unit of another kind is refused once it has been read. -/
theorem patchSps_of_other (fixup : SpsFixup) {u : NalUnit} (hread : readUnit n s = .ok u t)
    (hu : u.expectSps = .error e) : patchSps fixup n s = .error e t := by
  have hexpect : (liftM u.expectSps : Session SpsUnit) t = .error e t := by
    rw [hu]
    rfl
  rw [patchSps, bind_of_ok hread, bind_of_error hexpect]

/-- A call that fails leaves the stream as it was, unless the unit is a picture parameter set that
the stream can read. That is stored, and then the call fails because it is no sequence parameter
set. -/
theorem patchSps_failing (fixup : SpsFixup) (n : List UInt8) (s t : Stream) (e : NalError)
    (h : patchSps fixup n s = .error e t) :
    (∀ header p, NalUnit.decode s.config s.parameterSets n = .ok ⟨header, .pps p⟩ →
        e = .spsExpected .pps ∧
          t = { s with parameterSets := s.parameterSets.insertPps p }) ∧
      ((∀ header p, NalUnit.decode s.config s.parameterSets n ≠ .ok ⟨header, .pps p⟩) →
        t = s) := by
  cases hdecode : NalUnit.decode s.config s.parameterSets n with
  | error found =>
    have hread : readUnit n s = .error found s := by rw [readUnit_eq, hdecode]
    rw [patchSps, bind_of_error hread] at h
    cases h
    constructor
    · intro _ _ hother
      cases hother
    · exact fun _ => rfl
  | ok u =>
    obtain ⟨header, payload⟩ := u
    cases payload with
    | sps sps =>
      obtain ⟨w, v, hpatched⟩ := exists_patchSps (v := ⟨header, sps⟩) fixup hdecode
      rw [h] at hpatched
      cases hpatched
    | pps p =>
      have htype : header.unitType = .pps := beq_iff_eq.mp (NalUnit.fits_of_decode hdecode)
      have hread := readUnit_eq_ok.mpr ⟨hdecode, _, rfl, rfl⟩
      rw [patchSps_of_other fixup hread rfl] at h
      cases h
      constructor
      · rintro _ _ ⟨⟩
        exact ⟨congrArg _ htype, rfl⟩
      · intro hother
        exact absurd rfl (hother header p)
    | _ =>
      have hread := readUnit_eq_ok.mpr ⟨hdecode, s.parameterSets, rfl, rfl⟩
      rw [patchSps_of_other fixup hread rfl] at h
      cases h
      constructor
      · intro _ _ hother
        cases hother
      · exact fun _ => rfl

/-- A delimiter leaves nothing behind, and a picture parameter set is there behind the call. -/
theorem patchSps_failing_delimiter :
    (∃ e t, patchSps {} [9, 240] {} = .error e t ∧ t = {}) ∧
      ∃ e t, patchSps {} [104, 206, 56, 128] {} = .error e t ∧ e = .spsExpected .pps ∧
        t.parameterSets.pps 0 = some {} := by
  have hdelimiter : NalUnit.decode {} {} [9, 240] =
      .ok ⟨⟨0, .accessUnitDelimiter⟩, .accessUnitDelimiter { primaryPicType := .iSIPSPB }⟩ := by
    cbv
  have hpps : NalUnit.decode {} {} [104, 206, 56, 128] = .ok ⟨⟨3, .pps⟩, .pps {}⟩ := by cbv
  constructor
  · have hread := (readUnit_eq_ok (s := {})).mpr ⟨hdelimiter, {}, rfl, rfl⟩
    have hfailed := patchSps_of_other {} hread rfl
    refine ⟨_, _, hfailed, (patchSps_failing {} _ _ _ _ hfailed).2 ?_⟩
    intro header p hother
    rw [hdelimiter] at hother
    cases hother
  · have hread := (readUnit_eq_ok (s := {})).mpr ⟨hpps, _, rfl, rfl⟩
    have hfailed := patchSps_of_other {} hread rfl
    obtain ⟨he, ht⟩ := (patchSps_failing {} _ _ _ _ hfailed).1 _ _ hpps
    refine ⟨_, _, hfailed, he, ?_⟩
    rw [ht]
    rfl

/-- On a new stream the call fails for a picture parameter set, and the stream knows the set. -/
theorem exists_patchSps_failing_changed :
    ∃ e t, patchSps {} [104, 206, 56, 128] {} = .error e t ∧
      t.parameterSets ≠ ({} : Stream).parameterSets := by
  have hdecode : NalUnit.decode {} {} [104, 206, 56, 128] = .ok ⟨⟨3, .pps⟩, .pps {}⟩ := by cbv
  have hread := (readUnit_eq_ok (s := {})).mpr ⟨hdecode, _, rfl, rfl⟩
  refine ⟨_, _, patchSps_of_other {} hread rfl, ?_⟩
  intro hsame
  have hfound := congrFun (congrArg ParameterSets.pps hsame) 0
  cases hfound

end Stream

end AvcSyntax

import AvcSyntax.Fixup.SpsPatcher
import AvcSyntax.Proofs.Stream.Basic

/-!
# Patching single parameter sets

How a sequence parameter set is read and what it is written as do not depend on what else a
stream knows. So what becomes of one in a patched stream is a matter of its own bytes and of the
change alone: `SentAs config change n w` says that `n` is a sequence parameter set and `w` the
changed one.
-/
namespace AvcSyntax

/-- Whether a unit has a header that keeps all rules and is of a type. -/
def hasType (type : UnitType) (n : List UInt8) : Bool :=
  match NalHeader.peek n with
  | .ok h => h.unitType == type
  | .error _ => false

theorem hasType_of_peek {type : UnitType} {n : List UInt8} {h : NalHeader}
    (hpeek : NalHeader.peek n = .ok h) : hasType type n = (h.unitType == type) := by
  rw [hasType, hpeek]

def isSps (n : List UInt8) : Bool := hasType .sps n

def isPps (n : List UInt8) : Bool := hasType .pps n

theorem not_isSps_of_isPps {n : List UInt8} (h : isPps n = true) : isSps n = false := by
  rw [isPps, hasType] at h
  rw [isSps, hasType]
  split at h
  · rw [beq_iff_eq] at h
    rw [h]
    rfl
  · cases h

theorem expectSps_eq_ok {u : NalUnit} {v : SpsUnit} : u.expectSps = .ok v ↔ u = v.toNalUnit := by
  obtain ⟨header, payload⟩ := u
  obtain ⟨vheader, sps⟩ := v
  cases payload <;> simp [NalUnit.expectSps, SpsUnit.toNalUnit]

namespace NalPayload

theorem fits_of_parse {strict : Bool} {sets : ParameterSets} {header : NalHeader}
    {p : NalPayload} {r s : Reader} (h : parse strict sets header r = .ok p s) :
    p.fits header.unitType = true := by
  have hclosed : ∀ {α : Type} {q : Decode α} {g : α → NalPayload}, (do
      let a ← q
      parseEnd strict
      return g a : Decode NalPayload) r = .ok p s → ∃ a, g a = p := by
    intro α q g hq
    obtain ⟨a, t, -, hq⟩ := bind_eq_ok.mp hq
    obtain ⟨-, u, -, hq⟩ := bind_eq_ok.mp hq
    cases hq
    exact ⟨a, rfl⟩
  cases htype : header.unitType with
  | nonIdrSlice | idrSlice | auxiliarySlice =>
    rw [parse_slice (by rw [htype]; rfl), map_eq_pure_bind] at h
    obtain ⟨l, t, -, h⟩ := bind_eq_ok.mp h
    cases h
    rfl
  | sei | sps | pps | accessUnitDelimiter =>
    rw [parse, htype] at h
    obtain ⟨a, rfl⟩ := hclosed h
    rfl
  | endOfSequence | endOfStream =>
    rw [parse, htype] at h
    cases h
    rfl
  | _ =>
    rw [parse, htype] at h
    cases h

end NalPayload

theorem NalUnit.fits_of_decode {config : StreamConfig} {sets : ParameterSets} {n : List UInt8}
    {u : NalUnit} (h : NalUnit.decode config sets n = .ok u) :
    u.payload.fits u.header.unitType = true := by
  obtain ⟨plain, s, -, hs⟩ := decode_eq_ok.mp h
  obtain ⟨t, -, -, hpayload, -⟩ := parse_eq_ok.mp hs
  exact NalPayload.fits_of_parse hpayload

/-- Whether a sequence parameter set can be read does not depend on what is known. -/
theorem NalUnit.decode_sps {config : StreamConfig} {sets : ParameterSets} {n : List UInt8}
    {v : SpsUnit} (h : NalUnit.decode config sets n = .ok v.toNalUnit) (other : ParameterSets) :
    v.sps.WellFormed ∧ NalUnit.decode config other n = .ok v.toNalUnit := by
  obtain ⟨plain, s, hplain, hs⟩ := decode_eq_ok.mp h
  obtain ⟨t, ht, hrule, hpayload, hover⟩ := parse_eq_ok.mp hs
  have htype : v.toNalUnit.header.unitType = .sps := by
    simpa [SpsUnit.toNalUnit, NalPayload.fits] using NalPayload.fits_of_parse hpayload
  have hsame : NalPayload.parse config.strictTrailingBits other v.toNalUnit.header =
      NalPayload.parse config.strictTrailingBits sets v.toNalUnit.header := by
    rw [NalPayload.parse, NalPayload.parse, htype]
  refine ⟨?_, decode_eq_ok.mpr ⟨plain, s, hplain, ?_⟩⟩
  · have hbounds := Reader.inBounds_start plain (if config.traceBits then some #[] else none)
    obtain ⟨_, -, hmoves, -⟩ := NalHeader.accepts_parse _ _ t hbounds ht
    rw [NalPayload.parse, htype] at hpayload
    obtain ⟨found, _, hfound, hwf, -⟩ := NalPayload.accepted_of_parse Sps.accepts_parse.report
      (hmoves.inBounds hbounds) hpayload
    obtain rfl : v.sps = found := NalPayload.sps.inj hfound
    exact hwf
  · exact parse_eq_ok.mpr ⟨t, ht, hrule, hsame ▸ hpayload, hover⟩

/-- `n` is the unit of a sequence parameter set, and `w` that of the changed one. -/
def SentAs (config : StreamConfig) (change : Sps → Sps) (n w : List UInt8) : Prop :=
  ∃ v : SpsUnit, NalUnit.decode config {} n = .ok v.toNalUnit ∧
    NalUnit.encode config {} (SpsUnit.toNalUnit { v with sps := change v.sps }) = .ok w

namespace Stream

variable {s t : Stream} {n w : List UInt8} {v : SpsUnit}

theorem storeSps_eq_ok {sps : Sps} :
    storeSps sps s = .ok () t ↔
      ∃ later, s.parameterSets.insertSps sps = .ok later ∧
        t = { s with parameterSets := later } := by
  rw [storeSps_eq]
  cases s.parameterSets.insertSps sps with
  | error e => simp
  | ok later => simp [eq_comm]

theorem replaceSps_eq_ok :
    replaceSps v s = .ok w t ↔
      storeSps v.sps s = .ok () t ∧ v.toNalUnit.encode s.config {} = .ok w := by
  rw [replaceSps, bind_eq_ok]
  constructor
  · rintro ⟨_, u, hu, h⟩
    obtain ⟨hw, rfl⟩ := liftM_eq_ok.mp h
    obtain ⟨later, -, rfl⟩ := storeSps_eq_ok.mp hu
    exact ⟨hu, hw⟩
  · rintro ⟨ht, hw⟩
    refine ⟨(), t, ht, liftM_eq_ok.mpr ⟨?_, rfl⟩⟩
    obtain ⟨later, -, rfl⟩ := storeSps_eq_ok.mp ht
    exact hw

/-- A parameter set that is read and then changed is stored, for it keeps its number. -/
theorem exists_storeSps (sps : Sps) (hid : sps.id.toNat ≤ 31) (s : Stream) :
    ∃ t, storeSps sps s = .ok () t :=
  ⟨_, storeSps_eq_ok.mpr ⟨_, ParameterSets.insertSps_eq_ok.mpr ⟨hid, rfl⟩, rfl⟩⟩

theorem readUnit_sps (h : NalUnit.decode s.config {} n = .ok v.toNalUnit) :
    ∃ t, readUnit n s = .ok v.toNalUnit t ∧ t.config = s.config := by
  obtain ⟨hwf, hdecode⟩ := NalUnit.decode_sps h s.parameterSets
  have hkeep : s.parameterSets.keep v.toNalUnit.payload = .ok _ :=
    ParameterSets.insertSps_eq_ok.mpr ⟨hwf.id, rfl⟩
  exact ⟨_, readUnit_eq_ok.mpr ⟨hdecode, _, hkeep, rfl⟩, rfl⟩

theorem decode_of_readUnit (h : readUnit n s = .ok v.toNalUnit t) :
    NalUnit.decode s.config {} n = .ok v.toNalUnit ∧ t.config = s.config := by
  obtain ⟨hdecode, later, -, rfl⟩ := readUnit_eq_ok.mp h
  exact ⟨(NalUnit.decode_sps hdecode {}).2, rfl⟩

/-- Patching a parameter set gives the same bytes on all streams. -/
theorem exists_patchSps_iff (fixup : SpsFixup) :
    (∃ t, patchSps fixup n s = .ok w t) ↔ SentAs s.config fixup.apply n w := by
  constructor
  · rintro ⟨t, h⟩
    obtain ⟨u, r, hu, h⟩ := bind_eq_ok.mp h
    obtain ⟨v, _, hexpect, h⟩ := bind_eq_ok.mp h
    obtain ⟨hv, rfl⟩ := liftM_eq_ok.mp hexpect
    obtain rfl := expectSps_eq_ok.mp hv
    obtain ⟨hdecode, hconfig⟩ := decode_of_readUnit hu
    obtain ⟨-, hw⟩ := replaceSps_eq_ok.mp h
    exact ⟨v, hdecode, hconfig ▸ hw⟩
  · rintro ⟨v, hdecode, hw⟩
    obtain ⟨r, hr, hconfig⟩ := readUnit_sps hdecode
    have hid : (fixup.apply v.sps).id.toNat ≤ 31 := (NalUnit.decode_sps hdecode {}).1.id
    obtain ⟨t, ht⟩ := exists_storeSps (fixup.apply v.sps) hid r
    have hexpect : (liftM v.toNalUnit.expectSps : Session SpsUnit) r = .ok v r :=
      liftM_eq_ok.mpr ⟨expectSps_eq_ok.mpr rfl, rfl⟩
    refine ⟨t, ?_⟩
    rw [patchSps, bind_of_ok hr, bind_of_ok hexpect]
    exact replaceSps_eq_ok.mpr ⟨ht, hconfig.symm ▸ hw⟩

end Stream

end AvcSyntax

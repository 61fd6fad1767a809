import AvcSyntax.Proofs.Retracing
import AvcSyntax.Proofs.Stream.ParameterSets

/-!
# Messages correspond to their bits

Any list of messages can be written as a unit of supplemental information, and every reader of
that unit finds the same list: no payload ends the list early, and nothing behind it makes it
longer. The other way round, whatever list is read is built from the bits that it was read from.
-/
namespace AvcSyntax

namespace NalHeader

variable {h : NalHeader}

/-- Nothing ever refers to supplemental information. -/
theorem brokenRule?_of_sei (htype : h.unitType = .sei) (hrefIdc : h.refIdc = 0) :
    h.brokenRule? = none := by
  simp [brokenRule?, htype, hrefIdc, UnitType.code, UnitType.isIdr]

theorem wellFormed_of_sei (htype : h.unitType = .sei) (hrefIdc : h.refIdc.toNat ≤ 3) :
    h.WellFormed := by
  refine ⟨hrefIdc, ?_⟩
  rw [htype]
  exact ⟨by decide, rfl⟩

end NalHeader

namespace NalUnit

theorem exists_writtenAs_sei {header : NalHeader} {ms : List SeiMessage}
    (htype : header.unitType = .sei) (hrefIdc : header.refIdc.toNat ≤ 3)
    (hms : ∀ m ∈ ms, m.WellFormed) :
    ∃ w, ∀ (config : StreamConfig) (sets : ParameterSets),
      (config.strictHeader = true → header.refIdc = 0) →
        WrittenAs ⟨header, .sei ms⟩ config sets w := by
  have hwf := NalHeader.wellFormed_of_sei htype hrefIdc
  obtain ⟨w, hw⟩ := exists_writtenAs_of hwf (Code.concat (ms.map SeiMessage.code)).length_closed_mod
  refine ⟨w, ?_⟩
  intro config sets hstrict
  have hrule : config.strictHeader = true → header.brokenRule? = none := fun h =>
    NalHeader.brokenRule?_of_sei htype (hstrict h)
  exact hw config sets _ hrule (.sei htype hms)

theorem encode_lenient (config : StreamConfig) (sets : ParameterSets) (u : NalUnit) :
    encode { config with strictHeader := false } sets u = encode config sets u := rfl

end NalUnit

namespace SeiMessage

/-- Behind the end there are no messages. -/
theorem parseAll_of_not_inBounds {r : Reader} (hr : ¬r.InBounds) : parseAll r = .ok [] r := by
  have hend : r.atEnd := r.atEnd_iff.mpr (Nat.le_of_not_le hr)
  have hmore : Parse.moreData r = .ok false r := by
    rw [Parse.moreData, get_bind, if_pos hend]
    rfl
  have hlifted : (liftM Parse.moreData : Decode Bool) r = .ok false r :=
    reportFaults_eq_ok.mpr hmore
  rw [parseAll, get_bind, parseUpTo, bind_of_ok hlifted]
  rfl

theorem retraces_of_parseAll {r q : Reader} {found : List SeiMessage}
    (h : parseAll r = .ok found q) : Retraces (found.forM fun m => m.code.write) r q := by
  by_cases hr : r.InBounds
  · obtain ⟨_, ⟨-, rfl⟩, hretraces⟩ := accepts_parseAll.retraces hr h
    rwa [Code.write_concat, List.forM_eq_forM, List.forM_map, ← List.forM_eq_forM] at hretraces
  · rw [parseAll_of_not_inBounds hr] at h
    cases h
    exact Code.valid_empty.retraces (.refl r)

end SeiMessage

namespace Stream

/-- Lists of messages and their bits determine each other. A strict reader only takes them from a
header without a level of reference use. -/
theorem messages_correspond :
    (∀ (s t : Stream) (header : NalHeader) (ms : List SeiMessage),
      header.unitType = .sei → header.refIdc.toNat ≤ 3 →
      (t.config.strictHeader = true → header.refIdc = 0) →
      (∀ m ∈ ms, m.payload.length < 2 ^ 32) →
        ∃ w, s.writeUnit ⟨header, .sei ms⟩ = .ok w ∧
          readUnit w t = .ok ⟨header, .sei ms⟩ t) ∧
    (∀ (r q : Reader) (found : List SeiMessage), SeiMessage.parseAll r = .ok found q →
      Retraces (found.forM fun m => m.code.write) r q) := by
  constructor
  · intro s t header ms htype hrefIdc hstrict hms
    obtain ⟨w, hw⟩ := NalUnit.exists_writtenAs_sei htype hrefIdc hms
    refine ⟨w, ?_, ?_⟩
    · rw [writeUnit, ← NalUnit.encode_lenient]
      exact (hw { s.config with strictHeader := false } s.parameterSets (by simp)).encode (by simp)
    · have hdecode := (hw t.config t.parameterSets hstrict).decode
      exact readUnit_eq_ok.mpr ⟨hdecode, t.parameterSets, rfl, rfl⟩
  · intro r q found h
    exact SeiMessage.retraces_of_parseAll h

/-- A type of two full bytes with a stop bit for its payload, and an empty message. Read without a
stream they may begin anywhere. -/
theorem messages_correspond_chained :
    let ms : List SeiMessage := [⟨510, [0x80, 0]⟩, ⟨4, []⟩]
    let u : NalUnit := ⟨⟨0, .sei⟩, .sei ms⟩
    let t : Stream := { config := { strictTrailingBits := true } }
    let r : Reader := {
      data := #[0x0f, 0xff, 0xf0, 0x00, 0x28, 0x00, 0x00, 0x40, 0x08]
      pos := 4 }
    (∃ w, ({} : Stream).writeUnit u = .ok w ∧ readUnit w t = .ok u t) ∧
    (SeiMessage.parseAll r = .ok ms { r with pos := 68 } ∧
      Retraces (ms.forM fun m => m.code.write) r { r with pos := 68 }) := by
  intro ms u t r
  have hms : ∀ m ∈ ms, m.payload.length < 2 ^ 32 := by decide
  have hread : SeiMessage.parseAll r = .ok ms { r with pos := 68 } := by cbv
  have hwritten := messages_correspond.1 {} t ⟨0, .sei⟩ ms rfl (by decide) (fun _ => rfl) hms
  exact ⟨hwritten, hread, messages_correspond.2 r _ ms hread⟩

end Stream

end AvcSyntax

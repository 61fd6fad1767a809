import AvcSyntax.Proofs.Pps
import AvcSyntax.Proofs.Sps

/-!
# Well formed collections of parameter sets

What a reader stores are well formed parameter sets, the picture parameter sets each under the
chroma format that was known when it came. A later sequence parameter set with another format
may take the place of the one it was read under, so no more than that is kept.
-/
namespace AvcSyntax

namespace ParameterSets

structure WellFormed (sets : ParameterSets) : Prop where
  sps : ∀ id s, sets.sps id = some s → s.WellFormed
  pps : ∀ id p, sets.pps id = some p → ∃ chromaFormatIdc, p.WellFormed chromaFormatIdc

variable {sets : ParameterSets}

theorem wellFormed_empty : empty.WellFormed := by
  constructor
  · intro id s h
    simp [empty] at h
  · intro id p h
    simp [empty] at h

theorem insertSps_eq_ok {later : ParameterSets} {s : Sps} :
    sets.insertSps s = .ok later ↔ s.id.toNat ≤ 31 ∧
      later = { sets with sps := fun id => if id = s.id then some s else sets.sps id } := by
  rw [insertSps, rangeFault?]
  by_cases hid : s.id.toNat ≤ 31
  · rw [if_neg (by omega)]
    constructor
    · rintro ⟨⟩
      exact ⟨hid, rfl⟩
    · rintro ⟨-, rfl⟩
      rfl
  · rw [if_pos (by omega)]
    constructor
    · rintro ⟨⟩
    · rintro ⟨hle, -⟩
      exact absurd hle hid

/-- Storing a set twice is storing it once. -/
theorem insertSps_again {later : ParameterSets} {s : Sps} (h : sets.insertSps s = .ok later) :
    later.insertSps s = .ok later := by
  obtain ⟨hid, rfl⟩ := insertSps_eq_ok.mp h
  refine insertSps_eq_ok.mpr ⟨hid, ?_⟩
  congr
  funext id
  by_cases heq : id = s.id
  · simp only [if_pos heq]
  · simp only [if_neg heq]

theorem insertPps_again (p : Pps) : (sets.insertPps p).insertPps p = sets.insertPps p := by
  simp only [insertPps]
  congr
  funext id
  by_cases heq : id = p.id
  · simp only [if_pos heq]
  · simp only [if_neg heq]

theorem WellFormed.insertSps {later : ParameterSets} {s : Sps} (hsets : sets.WellFormed)
    (hs : s.WellFormed) (h : sets.insertSps s = .ok later) : later.WellFormed := by
  obtain ⟨-, rfl⟩ := insertSps_eq_ok.mp h
  refine ⟨?_, hsets.pps⟩
  intro id found hfound
  by_cases hid : id = s.id
  · simp only [if_pos hid, Option.some.injEq] at hfound
    exact hfound ▸ hs
  · simp only [if_neg hid] at hfound
    exact hsets.sps id found hfound

theorem WellFormed.insertPps {chromaFormatIdc : UInt8} {p : Pps} (hsets : sets.WellFormed)
    (hp : p.WellFormed chromaFormatIdc) : (sets.insertPps p).WellFormed := by
  refine ⟨hsets.sps, ?_⟩
  intro id found hfound
  by_cases hid : id = p.id
  · simp only [ParameterSets.insertPps, if_pos hid, Option.some.injEq] at hfound
    exact hfound ▸ ⟨chromaFormatIdc, hp⟩
  · simp only [ParameterSets.insertPps, if_neg hid] at hfound
    exact hsets.pps id found hfound

theorem resolve_eq_ok {id : UInt8} {pps : Pps} {sps : Sps} :
    sets.resolve id = .ok (pps, sps) ↔
      sets.pps id = some pps ∧ sets.sps pps.spsId = some sps := by
  constructor
  · intro h
    unfold resolve at h
    split at h
    · cases h
    · rename_i p hpps
      split at h
      · cases h
      · rename_i s hsps
        cases h
        exact ⟨hpps, hsps⟩
  · rintro ⟨hpps, hsps⟩
    rw [resolve, hpps]
    simp only [hsps]

/-- The parameter sets that a slice names are well formed with the rest. -/
theorem WellFormed.resolve {id : UInt8} {pps : Pps} {sps : Sps} (hsets : sets.WellFormed)
    (h : sets.resolve id = .ok (pps, sps)) :
    (∃ chromaFormatIdc, pps.WellFormed chromaFormatIdc) ∧ sps.WellFormed := by
  obtain ⟨hpps, hsps⟩ := resolve_eq_ok.mp h
  exact ⟨hsets.pps id pps hpps, hsets.sps pps.spsId sps hsps⟩

end ParameterSets

end AvcSyntax

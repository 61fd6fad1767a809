import AvcSyntax.Proofs.Bits.Room
import AvcSyntax.Proofs.Slice.Header
import AvcSyntax.Slice.Layer

/-!
# What overflows in slices

Two numbers of a slice may overflow. One is the width of the count of slice group changes: it
depends on the picture's size, and one more than a field of that size leaves its word if the field
holds the largest one. The other is the offset that data stood at, as the message that they cannot
be moved tells it, for no data stand behind more than eight bits of a byte.

The count is the last field of a header. All that stands in front of it is the header under the same
parameter sets without slice groups, and there the only rules are rules on values.
-/
namespace AvcSyntax

namespace Sps

variable {s : Sps} {rate : UInt32}

/-- Whether one more than a field of the picture's size leaves its word. -/
def SizeOverflows (s : Sps) : Prop :=
  s.picWidthInMbsMinus1.toNat = 2 ^ 64 - 1 ∨ s.picHeightInMapUnitsMinus1.toNat = 2 ^ 64 - 1

theorem sizeInMapUnits_eq (h : ¬s.SizeOverflows) :
    s.sizeInMapUnits = .ok (saturate
      ((s.picWidthInMbsMinus1.toNat + 1) * (s.picHeightInMapUnitsMinus1.toNat + 1))) := by
  obtain ⟨hwidth, hheight⟩ := not_or.mp h
  have hcolumns := s.picWidthInMbsMinus1.toNat_lt
  have hrows := s.picHeightInMapUnitsMinus1.toNat_lt
  rw [sizeInMapUnits, widthInMbs, heightInMapUnits, natWord_eq (by omega), ok_bind,
    natWord_eq (by omega), ok_bind]
  rfl

theorem sizeInMapUnits_eq_error (h : s.SizeOverflows) :
    s.sizeInMapUnits = .error .overflow := by
  have hcolumns := s.picWidthInMbsMinus1.toNat_lt
  rw [sizeInMapUnits, widthInMbs, heightInMapUnits]
  by_cases hwidth : s.picWidthInMbsMinus1.toNat = 2 ^ 64 - 1
  · rw [natWord_eq_error (n := s.picWidthInMbsMinus1.toNat + 1) (by omega), error_bind]
  · have hheight := h.resolve_left hwidth
    rw [natWord_eq (by omega), ok_bind, natWord_eq_error (by omega), error_bind]

theorem exists_changeCycleBits (h : ¬s.SizeOverflows) (rate : UInt32) :
    ∃ n, s.changeCycleBits rate = .ok n := by
  obtain ⟨n, -, hbits, -⟩ := exists_groupChangeCycleBits (saturate
    ((s.picWidthInMbsMinus1.toNat + 1) * (s.picHeightInMapUnitsMinus1.toNat + 1))) rate
  exact ⟨n, by rw [changeCycleBits, sizeInMapUnits_eq h, ok_bind, hbits]⟩

theorem changeCycleBits_eq_error (h : s.SizeOverflows) (rate : UInt32) :
    s.changeCycleBits rate = .error .overflow := by
  rw [changeCycleBits, sizeInMapUnits_eq_error h, error_bind]

end Sps

/-- Whether the width of the count of slice group changes depends on a size that overflows. Only a
map that changes has that count. -/
def ChangeCycleOverflows (pps : Pps) (sps : Sps) : Prop :=
  pps.sliceGroupChangeRate?.isSome ∧ sps.SizeOverflows

def Pps.ungrouped (p : Pps) : Pps := { p with sliceGroups := none }

namespace ParameterSets

variable {sets : ParameterSets} {ppsId : UInt8} {pps : Pps} {sps : Sps}

def ungrouped (sets : ParameterSets) : ParameterSets :=
  { sets with pps := fun id => (sets.pps id).map Pps.ungrouped }

/-- Whether the count overflows under the parameter sets with a number. -/
def ChangeCycleOverflows (sets : ParameterSets) (ppsId : UInt8) : Prop :=
  ∃ pps sps, sets.resolve ppsId = .ok (pps, sps) ∧ AvcSyntax.ChangeCycleOverflows pps sps

theorem resolve_ungrouped (sets : ParameterSets) (ppsId : UInt8) :
    sets.ungrouped.resolve ppsId =
      (sets.resolve ppsId).map fun found => (found.1.ungrouped, found.2) := by
  have hpps : sets.ungrouped.pps ppsId = (sets.pps ppsId).map Pps.ungrouped := rfl
  have hsps : sets.ungrouped.sps = sets.sps := rfl
  simp only [resolve, hpps, hsps]
  cases sets.pps ppsId with
  | none => rfl
  | some pps =>
    have hid : pps.ungrouped.spsId = pps.spsId := rfl
    simp only [Option.map_some, hid]
    cases sets.sps pps.spsId with
    | none => rfl
    | some sps => rfl

theorem changeCycleOverflows_iff (h : sets.resolve ppsId = .ok (pps, sps)) :
    sets.ChangeCycleOverflows ppsId ↔ AvcSyntax.ChangeCycleOverflows pps sps := by
  constructor
  · rintro ⟨_, _, hfound, hover⟩
    rw [h] at hfound
    cases hfound
    exact hover
  · exact fun hover => ⟨pps, sps, h, hover⟩

end ParameterSets

/-- Whether the message that the data cannot be moved would tell an offset below zero. -/
def SliceData.MessageOverflows (d : SliceData) (pps : Pps) : Prop :=
  pps.entropyCodingMode = false ∧ 8 < d.alignmentBitCount.toNat

def SliceLayer.MessageOverflows (l : SliceLayer) (sets : ParameterSets) : Prop :=
  ∃ d pps sps, l.data = some d ∧ sets.resolve l.header.ppsId = .ok (pps, sps) ∧
    d.MessageOverflows pps

section Rules

/-! All other rules that end a code early are rules on values, record by record. -/

@[simp]
theorem RefListOperation.refusesValues_listCode (ops : Option (List RefListOperation)) :
    (listCode ops).RefusesValues := by
  have hcode : ∀ op : RefListOperation, op.code.RefusesValues := by
    intro op
    cases op <;> simp [code]
  simp [listCode, Code.append_assoc, hcode]

@[simp]
theorem RefListModification.refusesValues_code (m : RefListModification) (type : SliceType) :
    (m.code type).RefusesValues := by simp [code]

@[simp]
theorem RefPicMarking.refusesValues_code (m : RefPicMarking) (isIdr : Bool) :
    (m.code isIdr).RefusesValues := by
  have hop : ∀ op : MarkingOperation, op.code.RefusesValues := by simp [MarkingOperation.code]
  unfold code
  split
  · simp
  · simp
  · simp [Code.append_assoc, hop]
  · exact Code.refusesValues_fail rfl

@[simp]
theorem PredWeightTable.refusesValues_code (t : PredWeightTable)
    (chromaArrayType l0Minus1 : UInt8) (l1Minus1 : Option UInt8) :
    (t.code chromaArrayType l0Minus1 l1Minus1).RefusesValues := by
  have hentry : ∀ hasChroma w, (PredWeight.code hasChroma w).RefusesValues := by
    simp [PredWeight.code, WeightOffset.code]
  simp [code, Code.checked_eq (checkedCount_eq _), Code.append_assoc, hentry]

@[simp]
theorem RefCounts.refusesValues_code (c : RefCounts) (type : SliceType) :
    (c.code type).RefusesValues := by simp [code, Code.append_assoc]

@[simp]
theorem SliceDeblocking.refusesValues_code (d : SliceDeblocking) : d.code.RefusesValues := by
  simp [code, Code.append_assoc]

/-- A width is refused only where its number is out of range. -/
theorem Code.refusesValues_sized (quantity : String) (minus4 : UInt8) (value : Nat) :
    (sized (widthAbove4 quantity minus4) value).RefusesValues := by
  rw [sized, widthAbove4]
  cases hrange : rangeFault? quantity 0 12 minus4.toNat with
  | some fault => exact refusesValues_fail (kind_of_rangeFault? hrange)
  | none =>
    have hle := (rangeFault?_eq_none.mp hrange).2
    dsimp only
    rw [checked_eq (natWord_eq (by omega))]
    exact refusesValues_u _ _

@[simp]
theorem SlicePicOrder.refusesValues_code (o : SlicePicOrder) (count : PicOrderCount)
    (hasBottom : Bool) : (o.code count hasBottom).RefusesValues := by
  cases count <;> simp [code, orderLsbBits, Code.refusesValues_sized]

@[simp]
theorem SliceHeader.refusesValues_openingCode (h : SliceHeader) :
    h.openingCode.RefusesValues := by
  obtain ⟨code, -, hcode, -⟩ := h.type.exists_toCode h.allSlicesSameType
  simp [openingCode, Code.checked_eq hcode, Code.append_assoc]

end Rules

namespace SliceHeader

def setChangeCycle (h : SliceHeader) (cycle : UInt32) : SliceHeader :=
  { h with groupChangeCycle := cycle }

variable {h : SliceHeader} {nal : NalHeader} {pps : Pps} {sps : Sps} {cycle : UInt32}

/-- The count of changes stands behind everything else, and it is all that slice groups add to a
header. -/
theorem bodyCode_eq_append (h : SliceHeader) (nal : NalHeader) (pps : Pps) (sps : Sps) :
    h.bodyCode nal pps sps = h.bodyCode nal pps.ungrouped sps ++
      changeCycleCode pps sps h.groupChangeCycle := by
  have hcounts : h.effectiveRefCounts pps.ungrouped = h.effectiveRefCounts pps := rfl
  have habsent : changeCycleCode pps.ungrouped sps h.groupChangeCycle = .empty := rfl
  rcases heff : h.effectiveRefCounts pps with ⟨l0Minus1, l1Minus1⟩
  simp only [bodyCode, hcounts, heff, habsent, Code.append_empty]
  rfl

theorem refusesValues_front (h : SliceHeader) (nal : NalHeader) (pps : Pps) (sps : Sps) :
    (h.openingCode ++ h.bodyCode nal pps.ungrouped sps).RefusesValues := by
  have habsent : changeCycleCode pps.ungrouped sps h.groupChangeCycle = .empty := rfl
  simp [bodyCode, Code.append_assoc, frameNumBits, Code.refusesValues_sized, habsent]

theorem changeCycleCode_of_overflows (hover : ChangeCycleOverflows pps sps) (cycle : UInt32) :
    changeCycleCode pps sps cycle = .fail .overflow := by
  obtain ⟨hchanging, hsize⟩ := hover
  obtain ⟨rate, hrate⟩ := Option.isSome_iff_exists.mp hchanging
  rw [changeCycleCode, hrate]
  simp only [Code.sized, Sps.changeCycleBits_eq_error hsize]
  rfl

theorem fault_changeCycleCode (hover : ¬ChangeCycleOverflows pps sps) (cycle : UInt32) :
    (changeCycleCode pps sps cycle).fault = none := by
  rw [changeCycleCode]
  cases hrate : pps.sliceGroupChangeRate? with
  | none => rfl
  | some rate =>
    have hsize : ¬sps.SizeOverflows := fun hsize => hover ⟨by rw [hrate]; rfl, hsize⟩
    obtain ⟨width, hwidth⟩ := Sps.exists_changeCycleBits hsize rate
    simp only [Code.sized, Code.checked_eq hwidth]
    rfl

/-- What ends the code of a header early is a rule on values, or an overflow where the count of
slice group changes would stand. -/
theorem kind_of_fault {fault : Fault}
    (hfault : (h.openingCode ++ h.bodyCode nal pps sps).fault = some fault) :
    fault.kind = .invalidValue ∨ fault = .overflow ∧ ChangeCycleOverflows pps sps := by
  rw [bodyCode_eq_append, ← Code.append_assoc] at hfault
  have hfront := refusesValues_front h nal pps sps
  generalize h.openingCode ++ h.bodyCode nal pps.ungrouped sps = front at hfault hfront
  by_cases hended : front.fault = none
  · rw [Code.append_of_no_fault hended] at hfault
    by_cases hover : ChangeCycleOverflows pps sps
    · rw [changeCycleCode_of_overflows hover] at hfault
      exact .inr ⟨(Option.some.inj hfault).symm, hover⟩
    · cases (fault_changeCycleCode hover _).symm.trans hfault
  · rw [Code.append_of_fault (Option.isSome_iff_ne_none.mpr hended)] at hfault
    exact .inl (hfront fault hfault)

end SliceHeader

end AvcSyntax

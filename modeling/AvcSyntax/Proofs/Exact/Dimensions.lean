import AvcSyntax.Proofs.Retracing
import AvcSyntax.Proofs.Slice.Overflow
import AvcSyntax.Sps.Dimensions

/-!
# Picture dimensions are exact

Of a parameter set that was read every size is the one that exact arithmetic gives, except where
more is cropped than the picture has and where the number of map units exceeds the largest word.
The numbers that come up on the way all fit words of 64 bits: `exactWidth` and `exactHeight` are the
same computations with an overflow in place of every cut to the largest word, and they yield the
same sizes.
-/
namespace AvcSyntax

/-- The numbers of luma samples in a row and in a column to one sample of chroma, for the formats
whose chroma samples are coded with the luma samples. -/
def chromaRatio? : (chromaFormatIdc : Nat) → (separateColourPlanes : Bool) → Option (Nat × Nat)
  | 1, false => some (2, 2)
  | 2, false => some (2, 1)
  | 3, false => some (1, 1)
  | _, _ => none

/-- The numbers of luma samples in a row and in a column that one unit of cropping removes. Without
chroma samples that is a sample in a row and, of a sequence that may have fields, two in a column;
with them it is whole samples of chroma. -/
def cropUnits (chromaFormatIdc : Nat) (separateColourPlanes frameMbsOnly : Bool) : Nat × Nat :=
  match chromaRatio? chromaFormatIdc separateColourPlanes with
  | none => (1, 2 - frameMbsOnly.toNat)
  | some (columns, rows) => (columns, rows * (2 - frameMbsOnly.toNat))

namespace Sps

section Words

/-- A size less what two crop offsets remove. Only this difference is cut off at zero. -/
def exactCropped (size unit : Nat) (first second : UInt64) : Except Fault Nat := do
  let offsets ← natWord 64 (first.toNat + second.toNat)
  let removed ← natWord 64 (offsets * unit)
  return size - removed

def exactWidth (s : Sps) : Except Fault Nat := do
  let full ← natWord 64 ((← s.widthInMbs) * 16)
  match s.cropping with
  | some c => exactCropped full s.cropUnitX c.left c.right
  | none => return full

def exactHeight (s : Sps) : Except Fault Nat := do
  let rows ← s.heightInMapUnits
  let field ← difference 2 s.frameMbsOnly.toNat
  let frame ← natWord 64 (field * rows)
  let full ← natWord 64 (frame * 16)
  let unit ← natWord 64 ((if s.chromaArrayType = 1 then 2 else 1) * field)
  match s.cropping with
  | some c => exactCropped full unit c.top c.bottom
  | none => return full

end Words

variable {s : Sps}

section Read

theorem rowsPerMapUnit_eq : s.rowsPerMapUnit = 2 - s.frameMbsOnly.toNat := by
  cases h : s.frameMbsOnly <;> simp [rowsPerMapUnit, h]

/-- Reading yields no format whose chroma samples the standard does not define, and colour planes
of their own only of the format that has as many samples of each. -/
theorem cropUnits_eq (h : ∀ f ∈ s.sampleFormat, f.WellFormed) :
    cropUnits s.chromaFormatIdc.toNat s.separateColourPlanes s.frameMbsOnly =
      (s.cropUnitX, s.cropUnitY) := by
  have hidc : s.chromaFormatIdc.toNat ≤ 3 := by
    cases hformat : s.sampleFormat with
    | none => simp [chromaFormatIdc, hformat]
    | some f => simpa [chromaFormatIdc, hformat] using (h f hformat).chromaFormatIdc
  have hone : s.chromaFormatIdc = 1 ↔ s.chromaFormatIdc.toNat = 1 := UInt8.toNat_inj.symm
  have htwo : s.chromaFormatIdc = 2 ↔ s.chromaFormatIdc.toNat = 2 := UInt8.toNat_inj.symm
  rw [cropUnitX, cropUnitY, chromaArrayType, rowsPerMapUnit_eq]
  cases hplanes : s.separateColourPlanes with
  | false =>
    simp only [Bool.false_eq_true, if_false, hone, htwo]
    generalize s.chromaFormatIdc.toNat = idc at hidc
    interval_cases idc <;> simp [cropUnits, chromaRatio?]
  | true => simp [cropUnits, chromaRatio?]

/-- What an Exp-Golomb code stands for has no more than 34 bits. -/
theorem lt_of_le_maxValue {n : Nat} (h : n ≤ ExpGolomb.maxValue) : n < 2 ^ 34 :=
  Nat.lt_of_le_of_lt h (by decide)

theorem saturate_eq {n : Nat} (h : n < 2 ^ 64) : saturate n = n := Nat.min_eq_left (by omega)

variable {size unit : Nat} {first second : UInt64}

/-- Cropping is exact in units of up to four samples. -/
theorem cropped_eq (hfirst : first.toNat < 2 ^ 34) (hsecond : second.toNat < 2 ^ 34)
    (hunit : unit ≤ 4) :
    cropped size unit first second = size - unit * (first.toNat + second.toNat) := by
  have hremoved : (first.toNat + second.toNat) * unit ≤ (first.toNat + second.toNat) * 4 :=
    Nat.mul_le_mul_left _ hunit
  rw [cropped, saturate_eq (n := first.toNat + second.toNat) (by omega), saturate_eq (by omega),
    Nat.mul_comm]

theorem exactCropped_eq (hfirst : first.toNat < 2 ^ 34) (hsecond : second.toNat < 2 ^ 34)
    (hunit : unit ≤ 4) :
    exactCropped size unit first second = .ok (cropped size unit first second) := by
  have hremoved : (first.toNat + second.toNat) * unit ≤ (first.toNat + second.toNat) * 4 :=
    Nat.mul_le_mul_left _ hunit
  rw [cropped_eq hfirst hsecond hunit, exactCropped,
    natWord_eq (n := first.toNat + second.toNat) (by omega), ok_bind, natWord_eq (by omega),
    ok_bind, Nat.mul_comm unit]
  rfl

theorem cropUnitX_le : s.cropUnitX ≤ 4 := by
  rw [cropUnitX]
  split <;> omega

theorem cropUnitY_le : s.cropUnitY ≤ 4 := by
  rw [cropUnitY, rowsPerMapUnit]
  split <;> split <;> omega

/-- The counts of macroblocks that reading can yield do not overflow. -/
theorem not_sizeOverflows (h : s.WellFormed) : ¬s.SizeOverflows := by
  have hwidth := lt_of_le_maxValue h.picWidthInMbsMinus1
  have hheight := lt_of_le_maxValue h.picHeightInMapUnitsMinus1
  rw [SizeOverflows]
  omega

theorem width_eq (h : s.WellFormed) :
    s.width = .ok (16 * (s.picWidthInMbsMinus1.toNat + 1) -
      s.cropUnitX * ((s.cropping.getD {}).left.toNat + (s.cropping.getD {}).right.toNat)) := by
  have hwidth := lt_of_le_maxValue h.picWidthInMbsMinus1
  rw [width, widthInMbs, natWord_eq (by omega), ok_bind, saturate_eq (by omega)]
  cases hcropping : s.cropping with
  | none =>
    rw [Nat.mul_comm 16]
    rfl
  | some c =>
    have hc := h.cropping c hcropping
    simp only [Option.getD_some]
    rw [cropped_eq (lt_of_le_maxValue hc.left) (lt_of_le_maxValue hc.right) cropUnitX_le,
      Nat.mul_comm 16]
    rfl

theorem exactWidth_eq (h : s.WellFormed) : s.exactWidth = s.width := by
  have hwidth := lt_of_le_maxValue h.picWidthInMbsMinus1
  rw [exactWidth, width, widthInMbs, natWord_eq (by omega), ok_bind, ok_bind,
    natWord_eq (by omega), ok_bind, saturate_eq (by omega)]
  cases hcropping : s.cropping with
  | none => rfl
  | some c =>
    have hc := h.cropping c hcropping
    exact exactCropped_eq (lt_of_le_maxValue hc.left) (lt_of_le_maxValue hc.right) cropUnitX_le

theorem height_eq (h : s.WellFormed) :
    s.height = .ok (16 * (2 - s.frameMbsOnly.toNat) * (s.picHeightInMapUnitsMinus1.toNat + 1) -
      s.cropUnitY * ((s.cropping.getD {}).top.toNat + (s.cropping.getD {}).bottom.toNat)) := by
  have hheight := lt_of_le_maxValue h.picHeightInMapUnitsMinus1
  have hrows : (2 - s.frameMbsOnly.toNat) * (s.picHeightInMapUnitsMinus1.toNat + 1) ≤
      2 * (s.picHeightInMapUnitsMinus1.toNat + 1) := Nat.mul_le_mul_right _ (Nat.sub_le _ _)
  rw [height, frameHeightInMbs, rowsPerMapUnit_eq, heightInMapUnits, natWord_eq (by omega),
    ok_bind, saturate_eq (n := (2 - s.frameMbsOnly.toNat) * _) (by omega), pure_bind,
    saturate_eq (by omega), Nat.mul_assoc 16, Nat.mul_comm 16]
  cases hcropping : s.cropping with
  | none => rfl
  | some c =>
    have hc := h.cropping c hcropping
    simp only [Option.getD_some]
    rw [cropped_eq (lt_of_le_maxValue hc.top) (lt_of_le_maxValue hc.bottom) cropUnitY_le]
    rfl

theorem exactHeight_eq (h : s.WellFormed) : s.exactHeight = s.height := by
  have hheight := lt_of_le_maxValue h.picHeightInMapUnitsMinus1
  have hflag : s.frameMbsOnly.toNat ≤ 2 := (Bool.toNat_le _).trans (by decide)
  have hrows : (2 - s.frameMbsOnly.toNat) * (s.picHeightInMapUnitsMinus1.toNat + 1) ≤
      2 * (s.picHeightInMapUnitsMinus1.toNat + 1) := Nat.mul_le_mul_right _ (Nat.sub_le _ _)
  have hunit : cropUnitY s = (if s.chromaArrayType = 1 then 2 else 1) *
      (2 - s.frameMbsOnly.toNat) := by rw [cropUnitY, rowsPerMapUnit_eq]
  have hle : cropUnitY s ≤ 4 := cropUnitY_le
  rw [exactHeight, height, frameHeightInMbs, rowsPerMapUnit_eq, heightInMapUnits,
    natWord_eq (n := s.picHeightInMapUnitsMinus1.toNat + 1) (by omega), ok_bind, ok_bind,
    difference_eq hflag, ok_bind, natWord_eq (by omega), ok_bind, natWord_eq (by omega), ok_bind,
    ← hunit, natWord_eq (by omega), ok_bind,
    saturate_eq (n := (2 - s.frameMbsOnly.toNat) * _) (by omega), pure_bind,
    saturate_eq (by omega)]
  cases hcropping : s.cropping with
  | none => rfl
  | some c =>
    have hc := h.cropping c hcropping
    exact exactCropped_eq (lt_of_le_maxValue hc.top) (lt_of_le_maxValue hc.bottom) cropUnitY_le

/-- The sizes of a parameter set that was read are those that the standard gives, computed in whole
numbers of any size, and no step on the way to them overflows or is cut to the largest word. What
cropping removes beyond the picture and what the number of map units has beyond such a word is all
that is cut. -/
theorem dimensions_of_parse {r t : Reader} {s : Sps} (h : parse r = .ok s t) :
    let unit := cropUnits s.chromaFormatIdc.toNat s.separateColourPlanes s.frameMbsOnly
    let c := s.cropping.getD {}
    (∃ width : Nat, s.width = .ok width ∧ s.exactWidth = .ok width ∧
      (width : Int) = max 0 (16 * ((s.picWidthInMbsMinus1.toNat : Int) + 1) -
        (unit.1 : Int) * (c.left.toNat + c.right.toNat))) ∧
    (∃ height : Nat, s.height = .ok height ∧ s.exactHeight = .ok height ∧
      (height : Int) = max 0 (16 * (2 - (s.frameMbsOnly.toNat : Int)) *
        (s.picHeightInMapUnitsMinus1.toNat + 1) - unit.2 * (c.top.toNat + c.bottom.toNat))) ∧
    s.sizeInMapUnits = .ok (min (2 ^ 64 - 1)
      ((s.picWidthInMbsMinus1.toNat + 1) * (s.picHeightInMapUnitsMinus1.toNat + 1))) := by
  intro unit c
  obtain ⟨_, -, -, hs, -⟩ := accepts_parse r s t (inBounds_of_parse h) h
  have hunit : unit = (s.cropUnitX, s.cropUnitY) := cropUnits_eq hs.sampleFormat
  have hflag := Bool.toNat_le s.frameMbsOnly
  have hsize := sizeInMapUnits_eq (not_sizeOverflows hs)
  refine ⟨⟨_, width_eq hs, (exactWidth_eq hs).trans (width_eq hs), ?_⟩,
    ⟨_, height_eq hs, (exactHeight_eq hs).trans (height_eq hs), ?_⟩, ?_⟩
  · rw [hunit, ← Int.toNat_sub, Int.ofNat_toNat, max_comm]
    push_cast
    rfl
  · rw [hunit, ← Int.toNat_sub, Int.ofNat_toNat, max_comm]
    push_cast [Nat.cast_sub (hflag.trans one_le_two)]
    rfl
  · rw [hsize, saturate, Nat.min_comm]
    rfl

/-- A sequence of 34 rows of macroblock pairs, with chroma samples in every row of luma samples:
three pairs of columns and four pairs of rows are cut off. -/
theorem dimensions_of_parse_interlaced :
    let r : Reader := { data := #[122, 0, 40, 188, 240, 30, 1, 16, 166, 136] }
    let s : Sps := {
      profileIdc := 122
      levelIdc := 40
      sampleFormat := some { chromaFormatIdc := 2 }
      picWidthInMbsMinus1 := 119
      picHeightInMapUnitsMinus1 := 33
      frameMbsOnly := false
      cropping := some { left := 1, right := 2, top := 1, bottom := 3 } }
    parse r = .ok s { r with pos := 80 } ∧
      (∃ width : Nat, s.width = .ok width ∧
        (width : Int) = max 0 (16 * (119 + 1) - 2 * (1 + 2))) ∧
      (∃ height : Nat, s.height = .ok height ∧
        (height : Int) = max 0 (16 * 2 * (33 + 1) - 2 * (1 + 3))) ∧
      s.sizeInMapUnits = .ok ((119 + 1) * (33 + 1)) := by
  intro r s
  have hparse : parse r = .ok s { r with pos := 80 } := by cbv
  obtain ⟨⟨width, hwidth, -, hexact⟩, ⟨height, hheight, -, hexact'⟩, hsize⟩ :=
    dimensions_of_parse hparse
  exact ⟨hparse, ⟨width, hwidth, hexact⟩, ⟨height, hheight, hexact'⟩, hsize.trans (by decide)⟩

end Read

end Sps

end AvcSyntax

import AvcSyntax.Proofs.Bits.Written
import AvcSyntax.Proofs.Slice.Fields
import AvcSyntax.Proofs.Slice.Operations
import AvcSyntax.Proofs.Slice.PredWeightTable

/-!
# Canonical parts of slice headers

The canonical form of each record of a slice header, under what decides which of its fields are
coded: the type of the slice, the kind of picture, the numbers of active reference pictures and
some flags of the parameter sets. A record that can be written has the code of its canonical form.

Writing checks some of what reading checks. `InRange` names the rest of it. Of a record whose
code could be written and that is in range, the canonical form is what reading can yield.
-/
namespace AvcSyntax

/-- A number that was written fits its width, which was known. -/
theorem FitsWidth.of_writable {width : Except Fault Nat} {value : Nat}
    (hle : ∀ n, width = .ok n → n ≤ 32) (h : (Code.sized width value).Writable) :
    FitsWidth width value := by
  cases width with
  | error fault => cases h.1
  | ok n => exact ⟨n, rfl, hle n rfl, Code.writable_u.mp h⟩

theorem FitsWidth.of_writable_above4 {quantity : String} {minus4 : UInt8} {value : Nat}
    (h : (Code.sized (widthAbove4 quantity minus4) value).Writable) :
    FitsWidth (widthAbove4 quantity minus4) value :=
  of_writable (fun _ hwidth => (widthAbove4_le hwidth).trans (by decide)) h

namespace SlicePicOrder

variable {hasBottom : Bool} {count : PicOrderCount}

/-- The differences that are coded have a code that reading accepts. -/
def InRange (o : SlicePicOrder) (hasBottom : Bool) : PicOrderCount → Prop
  | .lowBits _ => hasBottom = true → -2 ^ 31 + 1 ≤ o.deltaBottom.toInt
  | .cycle c => c.deltaAlwaysZero = false →
      -2 ^ 31 + 1 ≤ o.delta0.toInt ∧ (hasBottom = true → -2 ^ 31 + 1 ≤ o.delta1.toInt)
  | .decodingOrder => True

def canonical (o : SlicePicOrder) (hasBottom : Bool) : PicOrderCount → SlicePicOrder
  | .lowBits _ => { lsb := o.lsb, deltaBottom := if hasBottom then o.deltaBottom else 0 }
  | .cycle c =>
    if c.deltaAlwaysZero then {}
    else { delta0 := o.delta0, delta1 := if hasBottom then o.delta1 else 0 }
  | .decodingOrder => {}

theorem code_canonical (o : SlicePicOrder) (hasBottom : Bool) (count : PicOrderCount) :
    (o.canonical hasBottom count).code count hasBottom = o.code count hasBottom := by
  have hkept (d : Int32) : Code.onlyIf hasBottom (.se (if hasBottom then d else 0).toInt) =
      .onlyIf hasBottom (.se d.toInt) := Code.onlyIf_kept (fun d : Int32 => .se d.toInt) d 0
  cases count with
  | lowBits log2 => simp only [canonical, code, hkept]
  | cycle c =>
    cases hzero : c.deltaAlwaysZero with
    | true =>
      rw [code, code, Code.onlyIf_false (by simp [hzero]), Code.onlyIf_false (by simp [hzero])]
    | false => simp only [canonical, code, hzero, Bool.false_eq_true, if_false, hkept]
  | decodingOrder => rfl

theorem deltaWellFormed_kept {n : Int32} (h : hasBottom = true → -2 ^ 31 + 1 ≤ n.toInt) :
    DeltaWellFormed hasBottom (if hasBottom then n else 0) := by
  cases hasBottom with
  | true => exact ⟨fun _ => h rfl, by simp⟩
  | false => exact ⟨by simp, fun _ => rfl⟩

theorem InRange.wellFormed {o : SlicePicOrder} (h : o.InRange hasBottom count)
    (hcode : (o.code count hasBottom).Writable) :
    (o.canonical hasBottom count).WellFormed hasBottom count := by
  cases count with
  | lowBits log2 =>
    have hlsb := FitsWidth.of_writable_above4 (Code.writable_append.mp hcode).1
    exact ⟨hlsb, deltaWellFormed_kept h, rfl, rfl⟩
  | cycle c =>
    constructor
    · intro hzero
      obtain ⟨h0, h1⟩ := h hzero
      rw [canonical, if_neg (by simp [hzero])]
      exact ⟨h0, deltaWellFormed_kept h1, rfl, rfl⟩
    · intro hzero
      rw [canonical, if_pos hzero]
  | decodingOrder => rfl

end SlicePicOrder

namespace RefCounts

variable {type : SliceType} {pps : Pps}

/-- Counts that are not coded come from the picture parameter set. -/
def canonical (c : RefCounts) (type : SliceType) (pps : Pps) : RefCounts :=
  if type.hasRefCounts && c.overridden then
    { c with
      l1Minus1 := if type = .b then c.l1Minus1 else pps.numRefIdxL1DefaultActiveMinus1 }
  else {
    l0Minus1 := pps.numRefIdxL0DefaultActiveMinus1
    l1Minus1 := pps.numRefIdxL1DefaultActiveMinus1 }

theorem canonical_of_overridden {c : RefCounts} (htype : type.hasRefCounts = true)
    (hset : c.overridden = true) : c.canonical type pps =
      { c with
        l1Minus1 := if type = .b then c.l1Minus1 else pps.numRefIdxL1DefaultActiveMinus1 } := by
  rw [canonical, if_pos (by simp [htype, hset])]

theorem canonical_of_default {c : RefCounts}
    (h : ¬(type.hasRefCounts = true ∧ c.overridden = true)) : c.canonical type pps =
      { l0Minus1 := pps.numRefIdxL0DefaultActiveMinus1
        l1Minus1 := pps.numRefIdxL1DefaultActiveMinus1 } := by
  rw [canonical, if_neg (by simpa using h)]

theorem code_canonical (c : RefCounts) (type : SliceType) (pps : Pps) :
    (c.canonical type pps).code type = c.code type := by
  by_cases htype : type.hasRefCounts = true
  · by_cases hset : c.overridden = true
    · rw [canonical_of_overridden htype hset, code, code, Code.onlyIf_kept (fun n : UInt8 =>
        .inRange "self.num_ref_idx_l1_active_minus1" 0 31 n.toNat ++ .ue n.toNat)]
    · have hfalse : c.overridden = false := by simpa using hset
      rw [canonical_of_default fun hboth => hset hboth.2, code, code, hfalse]
      rfl
  · rw [code, code, Code.onlyIf_false htype, Code.onlyIf_false htype]

theorem wellFormed_canonical {c : RefCounts} (hcode : (c.code type).fault = none) :
    (c.canonical type pps).WellFormed type pps := by
  by_cases hcoded : type.hasRefCounts = true ∧ c.overridden = true
  · obtain ⟨htype, hset⟩ := hcoded
    obtain ⟨hl0, hl1⟩ := le_of_fault hcode htype hset
    rw [canonical_of_overridden htype hset]
    refine ⟨fun hnot => absurd htype hnot, fun _ => hl0, fun _ hb => ?_, fun hnot => ?_,
      fun hnot => ?_⟩
    · rw [if_pos hb]
      exact hl1 hb
    · rw [hset] at hnot
      cases hnot
    · exact if_neg fun hb => hnot ⟨hset, hb⟩
  · rw [canonical_of_default hcoded]
    exact ⟨fun _ => rfl, by simp, by simp, fun _ => rfl, fun _ => rfl⟩

end RefCounts

namespace RefListOperation

theorem listWellFormed_of_writable {ops : Option (List RefListOperation)}
    (h : (listCode ops).Writable) : ListWellFormed ops := by
  intro l hl
  obtain rfl := Option.mem_def.mp hl
  obtain ⟨-, hlist⟩ := Code.writable_append.mp h
  simp only [Code.append_assoc] at hlist
  have hlength := (Code.writable_inRange.mp (Code.writable_append.mp hlist).1).2
  omega

theorem listWellFormed_none : ListWellFormed none := by simp [ListWellFormed]

end RefListOperation

namespace RefListModification

variable {type : SliceType}

def canonical (m : RefListModification) (type : SliceType) : RefListModification where
  l0 := if type.isIntra then none else m.l0
  l1 := if type = .b then m.l1 else none

theorem code_canonical (m : RefListModification) (type : SliceType) :
    (m.canonical type).code type = m.code type := by
  have hl0 : Code.onlyIf (!type.isIntra) (RefListOperation.listCode (m.canonical type).l0) =
      .onlyIf (!type.isIntra) (RefListOperation.listCode m.l0) := by
    cases hintra : type.isIntra with
    | true => rfl
    | false => simp only [canonical, hintra, Bool.false_eq_true, if_false]
  have hl1 : Code.onlyIf (type = .b) (RefListOperation.listCode (m.canonical type).l1) =
      .onlyIf (type = .b) (RefListOperation.listCode m.l1) := Code.onlyIf_kept _ _ _
  rw [code, code, hl0, hl1]

theorem wellFormed_canonical {m : RefListModification} (hcode : (m.code type).Writable) :
    (m.canonical type).WellFormed type := by
  obtain ⟨hl0, hl1⟩ := Code.writable_append.mp hcode
  refine ⟨?_, ?_, fun hintra => if_pos hintra, fun hb => if_neg hb⟩
  · refine iteInduction (fun _ => RefListOperation.listWellFormed_none) fun hintra => ?_
    exact RefListOperation.listWellFormed_of_writable
      (Code.writable_onlyIf.mp hl0 (by simpa using hintra))
  · refine iteInduction (fun hb => ?_) fun _ => RefListOperation.listWellFormed_none
    exact RefListOperation.listWellFormed_of_writable (Code.writable_onlyIf.mp hl1 hb)

end RefListModification

namespace PredWeight

variable {hasChroma : Bool}

structure InRange (w : PredWeight) (hasChroma : Bool) : Prop where
  luma : ∀ o ∈ w.luma, o.WellFormed
  chroma : hasChroma = true → ∀ c ∈ w.chroma, c.1.WellFormed ∧ c.2.WellFormed

def canonical (w : PredWeight) (hasChroma : Bool) : PredWeight :=
  { w with chroma := if hasChroma then w.chroma else none }

theorem code_canonical (w : PredWeight) (hasChroma : Bool) :
    (w.canonical hasChroma).code hasChroma = w.code hasChroma := by
  have hchroma : Code.onlyIf hasChroma
      (.optional (fun c => c.1.code ++ c.2.code) (w.canonical hasChroma).chroma) =
      .onlyIf hasChroma (.optional (fun c => c.1.code ++ c.2.code) w.chroma) :=
    Code.onlyIf_kept _ _ _
  rw [code, code, hchroma]
  rfl

theorem InRange.wellFormed {w : PredWeight} (h : w.InRange hasChroma) :
    (w.canonical hasChroma).WellFormed hasChroma := by
  refine ⟨h.luma, ?_, fun hset => if_neg hset⟩
  cases hasChroma with
  | true => exact h.chroma rfl
  | false => simp [canonical]

theorem inRange_default : InRange {} hasChroma := ⟨by simp, by simp⟩

end PredWeight

namespace PredWeightTable

variable {chromaArrayType l0Minus1 : UInt8} {l1Minus1 : Option UInt8}

structure InRange (t : PredWeightTable) (chromaArrayType : UInt8) : Prop where
  lumaLog2WeightDenom : t.lumaLog2WeightDenom.toNat ≤ 7
  chromaLog2WeightDenom : (chromaArrayType != 0) = true → t.chromaLog2WeightDenom.toNat ≤ 7
  l0 : ∀ w ∈ t.l0, w.InRange (chromaArrayType != 0)
  l1 : ∀ w ∈ t.l1, w.InRange (chromaArrayType != 0)

/-- An entry for every active reference picture. -/
def canonical (t : PredWeightTable) (chromaArrayType l0Minus1 : UInt8)
    (l1Minus1 : Option UInt8) : PredWeightTable where
  lumaLog2WeightDenom := t.lumaLog2WeightDenom
  chromaLog2WeightDenom := if chromaArrayType != 0 then t.chromaLog2WeightDenom else 0
  l0 := (padded (l0Minus1.toNat + 1) t.l0).map (·.canonical (chromaArrayType != 0))
  l1 := (padded (entryCount l1Minus1) t.l1).map (·.canonical (chromaArrayType != 0))

theorem inRange_default : InRange {} chromaArrayType :=
  ⟨by decide, fun _ => by decide, by simp, by simp⟩

theorem mem_padded {count : Nat} {ws : List PredWeight} {w : PredWeight}
    (h : w ∈ padded count ws) : w ∈ ws ∨ w = {} := by
  rcases List.mem_append.mp h with htake | hpad
  · exact .inl (List.mem_of_mem_take htake)
  · exact .inr (List.eq_of_mem_replicate hpad)

theorem codes_canonical (ws : List PredWeight) (hasChroma : Bool) :
    (ws.map (·.canonical hasChroma)).map (PredWeight.code hasChroma) =
      ws.map (PredWeight.code hasChroma) := by
  rw [List.map_map]
  exact List.map_congr_left fun w _ => w.code_canonical hasChroma

/-- A table with too many entries is not written, and its canonical form is. -/
theorem code_canonical {t : PredWeightTable}
    (hcode : (t.code chromaArrayType l0Minus1 l1Minus1).fault = none) :
    (t.canonical chromaArrayType l0Minus1 l1Minus1).code chromaArrayType l0Minus1 l1Minus1 =
      t.code chromaArrayType l0Minus1 l1Minus1 := by
  have hlength (count : Nat) (ws : List PredWeight) :
      ((padded count ws).map (·.canonical (chromaArrayType != 0))).length = count := by
    rw [List.length_map, length_padded]
  have hdenom : Code.onlyIf (chromaArrayType != 0)
      (.ue (t.canonical chromaArrayType l0Minus1 l1Minus1).chromaLog2WeightDenom.toNat) =
      .onlyIf (chromaArrayType != 0) (.ue t.chromaLog2WeightDenom.toNat) :=
    Code.onlyIf_kept (fun n : UInt8 => .ue n.toNat) _ _
  rw [code_eq (hlength _ _) (hlength _ _), hdenom]
  simp only [code, checkedCount_eq, Code.checked, Code.append_assoc] at hcode ⊢
  obtain ⟨hl0, hcode⟩ := Code.fault_append.mp hcode
  obtain ⟨hl1, -⟩ := Code.fault_append.mp hcode
  rw [Code.fault_inRange] at hl0 hl1
  rw [Code.inRange_eq_empty hl0.1 hl0.2, Code.empty_append,
    Code.inRange_eq_empty hl1.1 hl1.2, Code.empty_append]
  simp only [canonical, codes_canonical]

theorem InRange.wellFormed {t : PredWeightTable} (h : t.InRange chromaArrayType) :
    (t.canonical chromaArrayType l0Minus1 l1Minus1).WellFormed chromaArrayType l0Minus1
      l1Minus1 := by
  have hentries (count : Nat) (ws : List PredWeight)
      (hws : ∀ w ∈ ws, w.InRange (chromaArrayType != 0)) :
      ∀ w ∈ (padded count ws).map (·.canonical (chromaArrayType != 0)),
        w.WellFormed (chromaArrayType != 0) := by
    intro w hw
    obtain ⟨found, hfound, rfl⟩ := List.mem_map.mp hw
    rcases mem_padded hfound with hmem | rfl
    · exact (hws found hmem).wellFormed
    · exact PredWeight.inRange_default.wellFormed
  refine ⟨h.lumaLog2WeightDenom, ?_, fun hset => if_neg hset, ?_, ?_, hentries _ _ h.l0,
    hentries _ _ h.l1⟩
  · exact iteInduction (motive := fun n : UInt8 => n.toNat ≤ 7) h.chromaLog2WeightDenom
      fun _ => by decide
  · rw [canonical, List.length_map, length_padded]
  · rw [canonical, List.length_map, length_padded]

end PredWeightTable

namespace RefPicMarking

/-- Only a marking for the same kind of picture can be written. -/
theorem wellFormed_of_writable {m : RefPicMarking} {isIdr : Bool}
    (h : (m.code isIdr).Writable) : m.WellFormed isIdr := by
  match m, isIdr with
  | idr _ _, true => rfl
  | slidingWindow, false => rfl
  | adaptive ops, false =>
    simp only [code, Code.append_assoc] at h
    have hlength := (Code.writable_inRange.mp (Code.writable_append.mp h).1).2
    exact ⟨rfl, by omega⟩
  | idr _ _, false | slidingWindow, true | adaptive _, true => cases h.1

end RefPicMarking

namespace SliceDeblocking

/-- The offsets are coded unless the filter is off. -/
def InRange (d : SliceDeblocking) : Prop :=
  d.disableIdc ≠ 1 → OffsetWellFormed d.alphaC0OffsetDiv2 ∧ OffsetWellFormed d.betaOffsetDiv2

def canonical (d : SliceDeblocking) : SliceDeblocking :=
  if d.disableIdc = 1 then { disableIdc := 1 } else d

theorem code_canonical (d : SliceDeblocking) : d.canonical.code = d.code := by
  unfold canonical
  split
  · rename_i hoff
    rw [code, code, hoff, Code.onlyIf_false (by simp), Code.onlyIf_false (by simp)]
  · rfl

theorem InRange.wellFormed {d : SliceDeblocking} (h : d.InRange) (hcode : d.code.Writable) :
    d.canonical.WellFormed := by
  unfold canonical
  split
  · exact ⟨by decide, offsetWellFormed_zero, offsetWellFormed_zero, fun _ => ⟨rfl, rfl⟩⟩
  · rename_i hon
    obtain ⟨halpha, hbeta⟩ := h hon
    rw [code, Code.append_assoc] at hcode
    have hidc := (Code.writable_inRange.mp (Code.writable_append.mp hcode).1).2
    exact ⟨by omega, halpha, hbeta, fun hoff => absurd hoff hon⟩

end SliceDeblocking

end AvcSyntax

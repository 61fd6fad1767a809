import AvcSyntax.Proofs.Bits.Words
import AvcSyntax.Slice.Header

/-!
# Parts of slice headers are read back

Fields whose width a parameter set gives, the types of slices, and the smaller records of a slice
header: the place in output order, the counts of reference pictures and the deblocking filter.
For each record: what reading can yield, that its code is read back, and that it has no other.
-/
namespace AvcSyntax

variable {tail : Bits}

theorem Parse.reads_int32 {n : Int32} (h : -2 ^ 31 + 1 ≤ n.toInt) :
    Reads Parse.int32 (.se n.toInt) tail n := by
  have hhigh := n.toInt_lt
  refine (Parse.reads_seWithin h (by omega)).bind_pure ?_
  rw [Int32.ofInt_toInt]

theorem Parse.accepts_int32 :
    Accepts Parse.int32 fun n c => -2 ^ 31 + 1 ≤ n.toInt ∧ c = .se n.toInt := by
  refine Accepts.bind Parse.accepts_seWithin32 ?_
  rintro _ _ ⟨n, rfl, ⟨hlow, -⟩, rfl⟩
  rw [Int32.ofInt_toInt]
  exact Accepts.pure ⟨hlow, Code.append_empty _⟩

section Widths

theorem widthAbove4_eq_ok {quantity : String} {minus4 : UInt8} {width : Nat} :
    widthAbove4 quantity minus4 = .ok width ↔ minus4.toNat ≤ 12 ∧ width = minus4.toNat + 4 := by
  rw [widthAbove4, rangeFault?]
  by_cases h : minus4.toNat ≤ 12
  · rw [if_neg (by omega)]
    change natWord 8 (minus4.toNat + 4) = _ ↔ _
    rw [natWord_eq (by omega)]
    simp [h, eq_comm]
  · rw [if_pos (by omega)]
    simp [h]

theorem widthAbove4_le {quantity : String} {minus4 : UInt8} {width : Nat}
    (h : widthAbove4 quantity minus4 = .ok width) : width ≤ 16 := by
  obtain ⟨hminus4, rfl⟩ := widthAbove4_eq_ok.mp h
  omega

/-- The search leaves no word, and stops at the first width that is enough. -/
theorem exists_searchWidth {rate : Nat} (hrate : rate < 2 ^ 32) (target room bits : Nat)
    (hbits : bits + room ≤ 32) :
    ∃ n, searchWidth rate target room bits = .ok n ∧ n ≤ bits + room ∧
      (∀ m, bits ≤ m → m < n → rate <<< m < target) ∧
      (n < bits + room → target ≤ rate <<< n) := by
  induction room generalizing bits with
  | zero => exact ⟨bits, rfl, Nat.le_refl _, fun _ _ _ => by omega, fun _ => by omega⟩
  | succ room ih =>
    have hpow : 2 ^ bits ≤ 2 ^ 31 := Nat.pow_le_pow_right (by decide) (by omega)
    have hmoved : rate <<< bits < 2 ^ 64 := by
      rw [Nat.shiftLeft_eq]
      calc rate * 2 ^ bits ≤ rate * 2 ^ 31 := Nat.mul_le_mul_left _ hpow
        _ < 2 ^ 64 := by omega
    have hshift : shiftLeft 64 rate bits = .ok (rate <<< bits) := shiftLeft_eq (by omega) hmoved
    have hnext : natWord 8 (bits + 1) = .ok (bits + 1) := natWord_eq (by omega)
    rw [searchWidth, hshift, ok_bind]
    by_cases hsmall : rate <<< bits < target
    · rw [if_pos hsmall, hnext, ok_bind]
      obtain ⟨n, hfound, hle, hpassed, henough⟩ := ih (bits + 1) (by omega)
      refine ⟨n, hfound, by omega, fun m hm hlt => ?_, fun hlt => henough (by omega)⟩
      rcases Nat.eq_or_lt_of_le hm with rfl | hbehind
      · exact hsmall
      · exact hpassed m hbehind hlt
    · rw [if_neg hsmall]
      exact ⟨bits, rfl, by omega, fun _ _ _ => by omega, fun _ => by omega⟩

theorem exists_groupChangeCycleBits (size : Nat) (rate : UInt32) :
    ∃ n ≤ 32, groupChangeCycleBits size rate = .ok n ∧
      (∀ m < n, max rate.toNat 1 <<< m < saturate (size + max rate.toNat 1)) ∧
      (n < 32 → saturate (size + max rate.toNat 1) ≤ max rate.toNat 1 <<< n) := by
  have hword := rate.toNat_lt
  have hrate : max rate.toNat 1 < 2 ^ 32 := by omega
  obtain ⟨n, hfound, hle, hpassed, henough⟩ :=
    exists_searchWidth hrate (saturate (size + max rate.toNat 1)) 32 0 (by decide)
  rw [Nat.zero_add] at hle henough
  exact ⟨n, hle, hfound, fun m => hpassed m (Nat.zero_le m), henough⟩

theorem Sps.changeCycleBits_le {sps : Sps} {rate : UInt32} {width : Nat}
    (h : sps.changeCycleBits rate = .ok width) : width ≤ 32 := by
  rw [changeCycleBits] at h
  cases hsize : sps.sizeInMapUnits with
  | error e =>
    rw [hsize] at h
    cases h
  | ok size =>
    obtain ⟨n, hle, hbits, -⟩ := exists_groupChangeCycleBits size rate
    rw [hsize, ok_bind, hbits] at h
    cases h
    exact hle

/-- A number fits a width that is known. -/
def FitsWidth (width : Except Fault Nat) (value : Nat) : Prop :=
  ∃ n, width = .ok n ∧ n ≤ 32 ∧ value < 2 ^ n

theorem FitsWidth.toNat_toUInt32 {width : Except Fault Nat} {value : Nat}
    (h : FitsWidth width value) : value.toUInt32.toNat = value := by
  obtain ⟨n, -, hn, hlt⟩ := h
  have hpow : 2 ^ n ≤ 2 ^ 32 := Nat.pow_le_pow_right (by decide) hn
  simp
  omega

theorem Parse.reads_sized {width : Except Fault Nat} {value : Nat} (h : FitsWidth width value) :
    Reads (do Parse.u (← width) : Parse Nat) (.sized width value) tail value := by
  obtain ⟨n, rfl, hn, hvalue⟩ := h
  exact (Reads.ofExcept rfl).look (Parse.reads_u (by omega) hvalue)

theorem Parse.accepts_sized {width : Except Fault Nat} (hle : ∀ n, width = .ok n → n ≤ 32) :
    Accepts (do Parse.u (← width) : Parse Nat) fun value c =>
      FitsWidth width value ∧ c = .sized width value := by
  refine (Accepts.ofExcept _).bind ?_
  rintro n _ ⟨rfl, rfl⟩
  have hmax := hle n rfl
  apply (Parse.accepts_u (by omega)).mono
  rintro value _ ⟨hvalue, rfl⟩
  exact ⟨⟨n, rfl, hmax, hvalue⟩, Code.empty_append _⟩

theorem Parse.accepts_sizedAbove4 {quantity : String} {minus4 : UInt8} :
    Accepts (do Parse.u (← widthAbove4 quantity minus4) : Parse Nat) fun value c =>
      FitsWidth (widthAbove4 quantity minus4) value ∧
        c = .sized (widthAbove4 quantity minus4) value :=
  accepts_sized fun _ h => (widthAbove4_le h).trans (by decide)

theorem Code.atMost_sized {width : Except Fault Nat} {n : Nat}
    (hle : ∀ m, width = .ok m → m ≤ n) (value : Nat) : (Code.sized width value).AtMost n :=
  .checked fun m hm => (Code.atMost_u m value).mono (hle m hm)

end Widths

namespace SliceType

theorem exists_toCode (t : SliceType) (allSlices : Bool) :
    ∃ code ≤ 9, t.toCode allSlices = .ok code ∧ ofCode code = .ok (t, allSlices) := by
  cases t <;> cases allSlices <;> exact ⟨_, by decide, rfl, rfl⟩

theorem toCode_of_ofCode {code : Nat} {t : SliceType} {allSlices : Bool}
    (h : ofCode code = .ok (t, allSlices)) : t.toCode allSlices = .ok code := by
  by_cases hle : code ≤ 9
  · interval_cases code <;> cases h <;> rfl
  · rw [ofCode, rangeFault?, if_pos (by omega)] at h
    cases h

end SliceType

namespace SlicePicOrder

/-- A difference that is coded only under a condition. -/
def DeltaWellFormed (coded : Bool) (n : Int32) : Prop :=
  (coded = true → -2 ^ 31 + 1 ≤ n.toInt) ∧ (¬coded = true → n = 0)

/-- What reading can yield for a way to code the output order. -/
def WellFormed (o : SlicePicOrder) (hasBottom : Bool) : PicOrderCount → Prop
  | .lowBits log2 =>
    FitsWidth (orderLsbBits log2) o.lsb.toNat ∧ DeltaWellFormed hasBottom o.deltaBottom ∧
      o.delta0 = 0 ∧ o.delta1 = 0
  | .cycle c =>
    (c.deltaAlwaysZero = false → -2 ^ 31 + 1 ≤ o.delta0.toInt ∧
      DeltaWellFormed hasBottom o.delta1 ∧ o.lsb = 0 ∧ o.deltaBottom = 0) ∧
      (c.deltaAlwaysZero = true → o = {})
  | .decodingOrder => o = {}

variable {hasBottom : Bool}

theorem reads_delta {n : Int32} (h : DeltaWellFormed hasBottom n) :
    Reads (if hasBottom then Parse.int32 else pure 0) (.onlyIf hasBottom (.se n.toInt)) tail n :=
  Reads.onlyIf (fun hset => Parse.reads_int32 (h.1 hset)) h.2

theorem accepts_delta :
    Accepts (if hasBottom then Parse.int32 else pure 0) fun n c =>
      DeltaWellFormed hasBottom n ∧ c = .onlyIf hasBottom (.se n.toInt) :=
  Accepts.onlyIf fun _ => Parse.accepts_int32

theorem reads_code {o : SlicePicOrder} {count : PicOrderCount} (h : o.WellFormed hasBottom count) :
    Reads (parse count hasBottom) (o.code count hasBottom) tail o := by
  obtain ⟨lsb, deltaBottom, delta0, delta1⟩ := o
  cases count with
  | lowBits log2 =>
    obtain ⟨hlsb, hbottom, rfl, rfl⟩ := h
    simp only [parse, ite_bind]
    rw [← bind_assoc]
    refine (Parse.reads_sized hlsb).bind ((reads_delta hbottom).bind_pure ?_)
    simp
  | cycle c =>
    refine Reads.unless (fun hset => ?_) h.2
    obtain ⟨h0, h1, rfl, rfl⟩ := h.1 hset
    simp only [ite_bind]
    exact (Parse.reads_int32 h0).bind ((reads_delta h1).bind_pure rfl)
  | decodingOrder => exact h ▸ Reads.pure _

theorem accepts_parse (count : PicOrderCount) :
    Accepts (parse count hasBottom) fun o c =>
      o.WellFormed hasBottom count ∧ c = o.code count hasBottom := by
  cases count with
  | lowBits log2 =>
    simp only [parse, ite_bind]
    rw [← bind_assoc]
    refine Accepts.bind Parse.accepts_sizedAbove4 ?_
    rintro lsb _ ⟨hlsb, rfl⟩
    refine accepts_delta.bind ?_
    rintro deltaBottom _ ⟨hbottom, rfl⟩
    have hword : lsb.toUInt32.toNat = lsb := hlsb.toNat_toUInt32
    refine Accepts.pure ⟨⟨hword.symm ▸ hlsb, hbottom, rfl, rfl⟩, ?_⟩
    rw [Code.append_empty, code, hword]
    rfl
  | cycle c =>
    have hdeltas : Accepts (do
        let delta0 ← Parse.int32
        let delta1 ← if hasBottom then Parse.int32 else pure 0
        return { delta0, delta1 } : Parse SlicePicOrder) fun o c =>
          (-2 ^ 31 + 1 ≤ o.delta0.toInt ∧ DeltaWellFormed hasBottom o.delta1 ∧ o.lsb = 0 ∧
            o.deltaBottom = 0) ∧
          c = .se o.delta0.toInt ++ .onlyIf hasBottom (.se o.delta1.toInt) := by
      refine Parse.accepts_int32.bind ?_
      rintro delta0 _ ⟨h0, rfl⟩
      simp only [ite_bind]
      refine accepts_delta.bind ?_
      rintro delta1 _ ⟨h1, rfl⟩
      exact Accepts.pure ⟨⟨h0, h1, rfl, rfl⟩, by rw [Code.append_empty]⟩
    exact Accepts.unless fun _ => hdeltas
  | decodingOrder => exact Accepts.pure ⟨rfl, rfl⟩

theorem atMost_code (o : SlicePicOrder) (count : PicOrderCount) :
    (o.code count hasBottom).AtMost 130 := by
  cases count with
  | lowBits log2 =>
    exact ((Code.atMost_sized (fun _ => widthAbove4_le) _).append
      (Code.AtMost.onlyIf fun _ => Code.atMost_se _)).mono (by decide)
  | cycle c =>
    exact (Code.AtMost.onlyIf fun _ => (Code.atMost_se _).append
      (Code.AtMost.onlyIf fun _ => Code.atMost_se _)).mono (by decide)
  | decodingOrder => exact Nat.zero_le _

end SlicePicOrder

namespace RefCounts

/-- What reading can yield. Counts that are not coded come from the picture parameter set. -/
structure WellFormed (c : RefCounts) (type : SliceType) (pps : Pps) : Prop where
  overridden : ¬type.hasRefCounts = true → c.overridden = false
  l0Minus1_le : c.overridden = true → c.l0Minus1.toNat ≤ 31
  l1Minus1_le : c.overridden = true → type = .b → c.l1Minus1.toNat ≤ 31
  l0Minus1_eq : c.overridden = false → c.l0Minus1 = pps.numRefIdxL0DefaultActiveMinus1
  l1Minus1_eq : ¬(c.overridden = true ∧ type = .b) →
    c.l1Minus1 = pps.numRefIdxL1DefaultActiveMinus1

variable {type : SliceType} {pps : Pps}

/-- The code of counts that are given, behind the flag. -/
def givenCode (c : RefCounts) (type : SliceType) : Code :=
  .inRange "self.num_ref_idx_l0_active_minus1" 0 31 c.l0Minus1.toNat ++
  .ue c.l0Minus1.toNat ++
  .onlyIf (type = .b) (
    .inRange "self.num_ref_idx_l1_active_minus1" 0 31 c.l1Minus1.toNat ++
    .ue c.l1Minus1.toNat)

theorem code_eq {c : RefCounts} (h : ¬type.hasRefCounts = true → c.overridden = false) :
    c.code type =
      .onlyIf type.hasRefCounts (.flag c.overridden) ++ .onlyIf c.overridden (c.givenCode type) :=
  Code.onlyIf_append_onlyIf h _ _

theorem reads_code {c : RefCounts} (h : c.WellFormed type pps) :
    Reads (parse type pps) (c.code type) tail c := by
  rw [code_eq h.overridden]
  simp only [parse, ite_bind]
  refine (Reads.onlyIf (fun _ => Parse.reads_flag _) h.overridden).bind ?_
  obtain ⟨overridden, l0, l1⟩ := c
  refine Reads.onlyIf (fun hset => ?_) fun hset => ?_
  · have hl0 : l0.toNat ≤ 31 := h.l0Minus1_le hset
    simp only [givenCode, Code.append_assoc]
    refine Reads.check ?_ (by omega) (by omega)
    refine (Parse.reads_ueUpTo hl0).bind ?_
    refine (Reads.onlyIf (a := l1) (fun hb => ?_) fun hb => ?_).bind_pure ?_
    · have hl1 : l1.toNat ≤ 31 := h.l1Minus1_le hset hb
      refine Reads.check ?_ (by omega) (by omega)
      have hread : Reads (Nat.toUInt8 <$> Parse.ueUpTo "num_ref_idx_active_minus1" 31)
          (.ue l1.toNat) tail l1.toNat.toUInt8 := (Parse.reads_ueUpTo hl1).map
      simpa using hread
    · exact h.l1Minus1_eq fun hboth => hb hboth.2
    · simp
  · have hfalse : overridden = false := by simpa using hset
    have hl0 := h.l0Minus1_eq hfalse
    have hl1 := h.l1Minus1_eq fun hboth => hset hboth.1
    simp only at hl0 hl1
    rw [hfalse, hl0, hl1]

theorem accepts_parse :
    Accepts (parse type pps) fun c d => c.WellFormed type pps ∧ d = c.code type := by
  simp only [parse, ite_bind]
  refine (Accepts.onlyIf fun _ => Parse.accepts_flag.always).bind ?_
  rintro overridden _ ⟨⟨-, hover⟩, rfl⟩
  refine Accepts.ite (fun hset => ?_) fun hset => ?_
  · obtain rfl : overridden = true := hset
    refine Accepts.bind Parse.accepts_ueUpTo8 ?_
    rintro _ _ ⟨l0, rfl, hl0, rfl⟩
    have hsecond : Accepts (Nat.toUInt8 <$> Parse.ueUpTo "num_ref_idx_active_minus1" 31)
        fun n c => n.toNat ≤ 31 ∧ c = .ue n.toNat := by
      refine Accepts.map (Accepts.mono Parse.accepts_ueUpTo8 ?_)
      rintro _ _ ⟨l1, rfl, hl1, rfl⟩
      simpa using hl1
    refine (Accepts.onlyIf fun _ => hsecond).bind ?_
    rintro l1 _ ⟨⟨hl1, hl1_eq⟩, rfl⟩
    have hword : l0.toNat.toUInt8 = l0 := by simp
    rw [hword]
    refine Accepts.pure ⟨⟨hover, fun _ => hl0, fun _ => hl1, by simp, fun hnot => ?_⟩, ?_⟩
    · exact hl1_eq fun hb => hnot ⟨rfl, hb⟩
    · have hcheck (quantity : String) {n : UInt8} (hn : n.toNat ≤ 31) (c : Code) :
          .inRange quantity 0 31 n.toNat ++ c = c := by
        rw [Code.inRange_eq_empty (by omega) (by omega), Code.empty_append]
      rw [code_eq hover, givenCode, Code.append_assoc, hcheck _ hl0, Code.append_empty]
      by_cases hb : type = .b
      · rw [Code.onlyIf_true hb, Code.onlyIf_true hb, hcheck _ (hl1 hb)]
        rfl
      · rw [Code.onlyIf_false hb, Code.onlyIf_false hb]
        rfl
  · obtain rfl : overridden = false := by simpa using hset
    refine Accepts.pure ⟨⟨fun _ => rfl, by simp, by simp, fun _ => rfl, fun _ => rfl⟩, ?_⟩
    rw [code_eq hover]
    rfl

theorem le_of_fault {c : RefCounts} (hfault : (c.code type).fault = none)
    (htype : type.hasRefCounts = true) (hset : c.overridden = true) :
    c.l0Minus1.toNat ≤ 31 ∧ (type = .b → c.l1Minus1.toNat ≤ 31) := by
  rw [code, Code.onlyIf_true htype, Code.onlyIf_true hset] at hfault
  obtain ⟨hgiven, hsecond⟩ := Code.fault_append.mp (Code.fault_append.mp hfault).2
  have hl0 := (Code.fault_inRange.mp (Code.fault_append.mp hgiven).1).2
  refine ⟨by omega, fun hb => ?_⟩
  rw [Code.onlyIf_true hb] at hsecond
  have hl1 := (Code.fault_inRange.mp (Code.fault_append.mp hsecond).1).2
  omega

theorem atMost_code (c : RefCounts) (type : SliceType) : (c.code type).AtMost 131 :=
  Code.AtMost.onlyIf fun _ => (Code.atMost_flag _).append (Code.AtMost.onlyIf fun _ =>
    ((Code.atMost_inRange _ _ _ _).append (Code.atMost_ue _)).append (Code.AtMost.onlyIf fun _ =>
      (Code.atMost_inRange _ _ _ _).append (Code.atMost_ue _)))

end RefCounts

namespace SliceDeblocking

def OffsetWellFormed (n : Int8) : Prop := -6 ≤ n.toInt ∧ n.toInt ≤ 6

structure WellFormed (d : SliceDeblocking) : Prop where
  disableIdc : d.disableIdc.toNat ≤ 2
  alphaC0OffsetDiv2 : OffsetWellFormed d.alphaC0OffsetDiv2
  betaOffsetDiv2 : OffsetWellFormed d.betaOffsetDiv2
  offsets_absent : d.disableIdc = 1 → d.alphaC0OffsetDiv2 = 0 ∧ d.betaOffsetDiv2 = 0

theorem offsetWellFormed_zero : OffsetWellFormed 0 := ⟨by decide, by decide⟩

theorem wellFormed_default : WellFormed {} :=
  ⟨by decide, offsetWellFormed_zero, offsetWellFormed_zero, fun _ => ⟨rfl, rfl⟩⟩

theorem reads_offset {n : Int8} (h : OffsetWellFormed n) :
    Reads parseOffset (.se n.toInt) tail n := by
  refine (Parse.reads_seWithin h.1 h.2).bind_pure ?_
  rw [Int8.ofInt_toInt]

theorem accepts_offset : Accepts parseOffset fun n c => OffsetWellFormed n ∧ c = .se n.toInt := by
  refine Accepts.bind Parse.accepts_seWithin8 ?_
  rintro _ _ ⟨n, rfl, hn, rfl⟩
  rw [Int8.ofInt_toInt]
  exact Accepts.pure ⟨hn, Code.append_empty _⟩

theorem reads_code {d : SliceDeblocking} (h : d.WellFormed) : Reads parse d.code tail d := by
  have hidc := h.disableIdc
  simp only [code, Code.append_assoc]
  refine Reads.check ?_ (by omega) (by omega)
  refine (Parse.reads_ueUpTo hidc).bind ?_
  obtain ⟨idc, alpha, beta⟩ := d
  simp only [Nat.toUInt8, UInt8.ofNat_toNat]
  by_cases hone : idc = 1
  · obtain ⟨halpha, hbeta⟩ := h.offsets_absent hone
    simp only at halpha hbeta
    rw [if_pos hone, Code.onlyIf_false (not_not.mpr hone), halpha, hbeta]
    exact Reads.pure _
  · rw [if_neg hone, Code.onlyIf_true hone]
    exact (reads_offset h.alphaC0OffsetDiv2).bind ((reads_offset h.betaOffsetDiv2).bind_pure rfl)

theorem accepts_parse : Accepts parse fun d c => d.WellFormed ∧ c = d.code := by
  refine Accepts.bind Parse.accepts_ueUpTo8 ?_
  rintro _ _ ⟨idc, rfl, hidc, rfl⟩
  simp only [Nat.toUInt8, UInt8.ofNat_toNat]
  have hcheck : Code.inRange "self.disable_deblocking_filter_idc" 0 2 idc.toNat = .empty :=
    Code.inRange_eq_empty (by omega) (by omega)
  refine Accepts.ite (fun hone => ?_) fun hone => ?_
  · refine Accepts.pure ⟨⟨hidc, offsetWellFormed_zero, offsetWellFormed_zero,
      fun _ => ⟨rfl, rfl⟩⟩, ?_⟩
    rw [code, hcheck, Code.empty_append, Code.onlyIf_false (not_not.mpr hone)]
  · refine accepts_offset.bind ?_
    rintro alpha _ ⟨halpha, rfl⟩
    refine accepts_offset.bind ?_
    rintro beta _ ⟨hbeta, rfl⟩
    refine Accepts.pure ⟨⟨hidc, halpha, hbeta, fun h => absurd h hone⟩, ?_⟩
    rw [code, hcheck, Code.empty_append, Code.onlyIf_true hone, Code.append_empty]

theorem atMost_code (d : SliceDeblocking) : d.code.AtMost 195 :=
  (((Code.atMost_inRange _ _ _ _).append (Code.atMost_ue _)).append (Code.AtMost.onlyIf fun _ =>
    (Code.atMost_se _).append (Code.atMost_se _))).mono (by decide)

end SliceDeblocking

end AvcSyntax

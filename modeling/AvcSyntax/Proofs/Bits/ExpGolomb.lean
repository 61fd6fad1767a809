import AvcSyntax.Proofs.Arithmetic
import AvcSyntax.Proofs.Bits.Primitives

/-!
# Exp-Golomb codes are canonical

With `n + 1 = 2 ^ z + low` the code of `n` is `z` zero bits, a one bit and `low` in `z` bits.
Every number up to the largest one is read back from its code, and nothing else is read as that
number. The same holds of the signed numbers whose place in the order is such a number, which
are those of at most 32 bits without sign.
-/
namespace AvcSyntax

namespace ExpGolomb

/-- The number that `zeros` zero bits, a one bit and `low` stand for. -/
def ofParts (zeros low : Nat) : Nat := 1 <<< zeros - 1 + low

theorem ofParts_succ (zeros low : Nat) : ofParts zeros low + 1 = 2 ^ zeros + low := by
  have hpos : 0 < 2 ^ zeros := Nat.pow_pos (by decide)
  rw [ofParts, Nat.one_shiftLeft]
  omega

theorem ofParts_le_maxValue {zeros low : Nat} (hzeros : zeros ≤ maxZeros)
    (hlow : low < 2 ^ zeros) : ofParts zeros low ≤ maxValue := by
  have hpow : 2 ^ zeros ≤ 2 ^ maxZeros := Nat.pow_le_pow_right (by decide) hzeros
  have hsucc := ofParts_succ zeros low
  unfold maxZeros at hpow
  rw [maxValue, maxZeros]
  omega

theorem zeros_eq {n : Nat} (h : n ≤ maxValue) : zeros n = Nat.log2 (n + 1) := by
  rw [maxValue, maxZeros] at h
  rw [zeros, saturate, Nat.min_eq_left (by omega)]

theorem zeros_ofParts {zeros low : Nat} (hzeros : zeros ≤ maxZeros) (hlow : low < 2 ^ zeros) :
    ExpGolomb.zeros (ofParts zeros low) = zeros := by
  rw [zeros_eq (ofParts_le_maxValue hzeros hlow), ofParts_succ]
  apply (Nat.log2_eq_iff (by have := Nat.pow_pos (n := zeros) (show 0 < 2 by decide); omega)).mpr
  rw [Nat.pow_succ]
  omega

theorem exists_parts {n : Nat} (h : n ≤ maxValue) :
    ∃ low, zeros n ≤ maxZeros ∧ low < 2 ^ zeros n ∧ n = ofParts (zeros n) low := by
  have hlog := (Nat.log2_eq_iff (Nat.succ_ne_zero n)).mp (zeros_eq h).symm
  rw [Nat.pow_succ] at hlog
  have hzeros : zeros n ≤ maxZeros := by
    by_contra hgt
    have hpow : 2 ^ (maxZeros + 1) ≤ 2 ^ zeros n := Nat.pow_le_pow_right (by decide) (by omega)
    unfold maxValue at h
    rw [maxZeros] at hpow h
    omega
  refine ⟨n + 1 - 2 ^ zeros n, hzeros, by omega, ?_⟩
  have hsucc := ofParts_succ (zeros n) (n + 1 - 2 ^ zeros n)
  omega

/-- No step of writing a number leaves its word. -/
theorem code_eq (n : Nat) :
    code n = if maxValue < n then .fail .golombValueTooLarge
      else .u (zeros n) 0 ++ .u (zeros n + 1) (n + 1) := by
  rw [code]
  split
  · rfl
  · rename_i hle
    obtain ⟨low, hzeros, -, -⟩ := exists_parts (Nat.not_lt.mp hle)
    have hmax : n < 2 ^ 33 := Nat.lt_of_le_of_lt (Nat.not_lt.mp hle) (by decide)
    unfold maxZeros at hzeros
    rw [Code.checked_eq (natWord_eq (by omega)), Code.checked_eq (natWord_eq (by omega))]

theorem valid_code {n : Nat} (h : n ≤ maxValue) : (code n).Valid := by
  obtain ⟨low, hzeros, hlow, hn⟩ := exists_parts h
  have hsucc := ofParts_succ (zeros n) low
  unfold maxZeros at hzeros
  rw [code_eq, if_neg (by omega)]
  refine (Code.valid_u (by omega) (Nat.pow_pos (by decide))).append (Code.valid_u (by omega) ?_)
  rw [Nat.pow_succ]
  omega

theorem bits_code {zeros low : Nat} (hzeros : zeros ≤ maxZeros) (hlow : low < 2 ^ zeros) :
    (code (ofParts zeros low)).bits =
      List.replicate zeros false ++ true :: Bits.ofNat zeros low := by
  have hmax := ofParts_le_maxValue hzeros hlow
  rw [code_eq, if_neg (by omega), zeros_ofParts hzeros hlow, Code.bits_append rfl, Code.bits_u,
    Code.bits_u, Bits.ofNat_replicate_false, ofParts_succ, Bits.ofNat_succ_two_pow_add hlow]

theorem length_bits_code {n : Nat} (h : n ≤ maxValue) : (code n).bits.length = size n := by
  obtain ⟨low, hzeros, hlow, hn⟩ := exists_parts h
  have hbits := bits_code hzeros hlow
  rw [← hn] at hbits
  rw [hbits, List.length_append, List.length_replicate, List.length_cons, Bits.length_ofNat, size]
  omega

theorem length_bits_code_le (n : Nat) : (code n).bits.length ≤ 65 := by
  by_cases h : n ≤ maxValue
  · obtain ⟨_, hzeros, -, -⟩ := exists_parts h
    unfold maxZeros at hzeros
    rw [length_bits_code h, size]
    omega
  · rw [code_eq, if_pos (by omega)]
    exact Nat.zero_le _

section Prefix

variable {tail : Bits}

theorem reads_readZeros {zeros more : Nat} (h : zeros ≤ more) :
    Reads (readZeros more) (.ofBits (List.replicate zeros false ++ [true])) tail zeros := by
  induction more generalizing zeros with
  | zero =>
    obtain rfl := Nat.le_zero.mp h
    exact (Parse.reads_flag true).last rfl
  | succ n ih =>
    cases zeros with
    | zero => exact (Parse.reads_flag true).last rfl
    | succ zeros =>
      have hcode : Code.ofBits (List.replicate (zeros + 1) false ++ [true]) =
          .flag false ++ .ofBits (List.replicate zeros false ++ [true]) := rfl
      have hmore : Reads (readZeros n) _ tail zeros := ih (by omega)
      rw [hcode]
      exact (Parse.reads_flag false).bind (hmore.bind_pure rfl)

theorem accepts_readZeros (more : Nat) :
    Accepts (readZeros more) fun zeros c => zeros ≤ more ∧
      c = .ofBits (List.replicate zeros false ++ [true]) := by
  induction more with
  | zero =>
    refine Parse.accepts_flag.bind ?_
    rintro (_ | _) _ rfl
    · exact Accepts.throw _
    · exact Accepts.pure ⟨Nat.le_refl 0, rfl⟩
  | succ n ih =>
    refine Parse.accepts_flag.bind ?_
    rintro (_ | _) _ rfl
    · refine ih.bind ?_
      rintro zeros _ ⟨hzeros, rfl⟩
      exact Accepts.pure ⟨by omega, by rw [Code.append_empty]; rfl⟩
    · exact Accepts.pure ⟨Nat.zero_le _, rfl⟩

end Prefix

theorem index_le_maxValue {n : Int} (hlow : -(2 ^ 32 - 1) ≤ n) (hhigh : n ≤ 2 ^ 32 - 1) :
    index n ≤ maxValue := by
  rw [index, maxValue, maxZeros]
  split
  · rw [saturate, Nat.min_eq_left (by omega)]
    omega
  · omega

theorem ofIndex_index {n : Int} (hlow : -(2 ^ 32 - 1) ≤ n) (hhigh : n ≤ 2 ^ 32 - 1) :
    ofIndex (index n) = n := by
  unfold index
  split
  · rw [saturate, Nat.min_eq_left (by omega), ofIndex, if_pos (by omega)]
    omega
  · rw [ofIndex, if_neg (by omega)]
    omega

theorem index_ofIndex {k : Nat} (h : k ≤ maxValue) : index (ofIndex k) = k := by
  rw [maxValue, maxZeros] at h
  unfold ofIndex
  split
  · rw [index, if_pos (by omega), saturate, Nat.min_eq_left (by omega)]
    omega
  · rw [index, if_neg (by omega)]
    omega

theorem ofIndex_bounds {k : Nat} (h : k ≤ maxValue) :
    -(2 ^ 32 - 1) ≤ ofIndex k ∧ ofIndex k ≤ 2 ^ 32 - 1 := by
  rw [maxValue, maxZeros] at h
  unfold ofIndex
  split <;> omega

end ExpGolomb

namespace Parse

open ExpGolomb

variable {tail : Bits}

theorem le_of_readZeros {more zeros : Nat} {r s : Reader}
    (h : readZeros more r = .ok zeros s) : zeros ≤ more := by
  induction more generalizing zeros r s with
  | zero =>
    obtain ⟨stop, t, -, hrest⟩ := bind_eq_ok.mp h
    cases stop with
    | true =>
      cases hrest
      exact Nat.le_refl 0
    | false => cases hrest
  | succ more ih =>
    obtain ⟨stop, t, -, hrest⟩ := bind_eq_ok.mp h
    cases stop with
    | true =>
      cases hrest
      exact Nat.zero_le _
    | false =>
      obtain ⟨rest, u, hmore, hcount⟩ := bind_eq_ok.mp hrest
      cases hcount
      exact Nat.succ_le_succ (ih hmore)

theorem lt_of_u {count value : Nat} (hcount : count ≤ 64) {r s : Reader}
    (h : u count r = .ok value s) : value < 2 ^ count := by
  obtain ⟨-, hvalue, -⟩ := (u_eq_ok hcount).mp h
  have hlt := Bits.toNat_lt (bitsAt r.data r.pos count)
  rw [length_bitsAt] at hlt
  exact hvalue ▸ hlt

/-- No step of reading a number leaves its word. -/
theorem ue_eq :
    ue = (do
      let zeros ← readZeros maxZeros
      let low ← u zeros
      return ofParts zeros low) := by
  funext r
  refine bind_congr_at rfl fun zeros t hzeros => ?_
  have hmax : zeros ≤ 32 := le_of_readZeros hzeros
  have hone := one_shiftLeft_le hmax
  have hpos := one_le_one_shiftLeft zeros
  rw [check_bind (natWord_eq (by omega))]
  refine bind_congr_at rfl fun low v hlow => ?_
  have hlt := lt_of_u (by omega) hlow
  rw [← Nat.one_shiftLeft] at hlt
  rw [check_bind (shiftLeft_eq (by omega) (by omega)), check_bind (difference_eq hpos),
    natWord_eq (by omega)]
  rfl

theorem reads_ue {n : Nat} (h : n ≤ maxValue) : Reads ue (.ue n) tail n := by
  obtain ⟨low, hzeros, hlow, hn⟩ := exists_parts h
  have hparts : Reads ue (.ofBits (List.replicate (zeros n) false ++ [true]) ++ .u (zeros n) low)
      tail n := by
    have hwidth : zeros n ≤ 64 := hzeros.trans (by decide)
    rw [ue_eq]
    exact (reads_readZeros hzeros).bind ((reads_u hwidth hlow).bind_pure hn.symm)
  refine hparts.of_bits (valid_code h) ?_
  have hbits := bits_code hzeros hlow
  rw [← hn] at hbits
  rw [Code.ue, hbits, (Code.valid_ofBits _).bits_append, Code.bits_ofBits, Code.bits_u,
    List.append_assoc, List.singleton_append]

theorem accepts_ue : Accepts ue fun n c => n ≤ maxValue ∧ c = .ue n := by
  have hparts : Accepts ue fun n c => ∃ zeros low, zeros ≤ maxZeros ∧ low < 2 ^ zeros ∧
      n = ofParts zeros low ∧
      c = .ofBits (List.replicate zeros false ++ [true]) ++ .u zeros low := by
    rw [ue_eq]
    refine (accepts_readZeros maxZeros).bind ?_
    rintro zeros _ ⟨hzeros, rfl⟩
    have hwidth : zeros ≤ 64 := hzeros.trans (by decide)
    refine (accepts_u hwidth).bind ?_
    rintro low _ ⟨hlow, rfl⟩
    exact Accepts.pure ⟨zeros, low, hzeros, hlow, rfl, by rw [Code.append_empty]⟩
  apply hparts.of_bits
  rintro n _ _ ⟨zeros, low, hzeros, hlow, rfl, rfl⟩
  have hmax := ofParts_le_maxValue hzeros hlow
  refine ⟨.ue (ofParts zeros low), valid_code hmax, ?_, hmax, rfl⟩
  rw [Code.ue, bits_code hzeros hlow, (Code.valid_ofBits _).bits_append, Code.bits_ofBits,
    Code.bits_u, List.append_assoc, List.singleton_append]

theorem le_maxValue_of_ue {n : Nat} {r s : Reader} (h : ue r = .ok n s) : n ≤ maxValue := by
  rw [ue_eq] at h
  obtain ⟨zeros, t, hzeros, hrest⟩ := bind_eq_ok.mp h
  obtain ⟨low, v, hlow, hn⟩ := bind_eq_ok.mp hrest
  have hmax := le_of_readZeros hzeros
  cases hn
  exact ofParts_le_maxValue hmax (lt_of_u (hmax.trans (by decide)) hlow)

/-- Nor does the number at a place leave its word. -/
theorem se_eq : se = ofIndex <$> ue := by
  rw [map_eq_pure_bind]
  funext r
  refine bind_congr_at rfl fun k t hk => ?_
  obtain ⟨hlow, hhigh⟩ := ofIndex_bounds (le_maxValue_of_ue hk)
  rw [intWord_eq (by omega) (by omega)]
  rfl

theorem reads_se {n : Int} (hlow : -(2 ^ 32 - 1) ≤ n) (hhigh : n ≤ 2 ^ 32 - 1) :
    Reads se (.se n) tail n := by
  have h : Reads (ofIndex <$> ue) (.ue (index n)) tail (ofIndex (index n)) :=
    (reads_ue (index_le_maxValue hlow hhigh)).map
  rwa [ofIndex_index hlow hhigh, ← se_eq] at h

theorem accepts_se :
    Accepts se fun n c => (-(2 ^ 32 - 1) ≤ n ∧ n ≤ 2 ^ 32 - 1) ∧ c = .se n := by
  rw [se_eq]
  refine Accepts.map (accepts_ue.mono ?_)
  rintro k _ ⟨hk, rfl⟩
  exact ⟨ofIndex_bounds hk, by rw [Code.se, index_ofIndex hk, Code.ue]⟩

theorem inBounds_of_readZeros {more zeros : Nat} {r s : Reader}
    (h : readZeros more r = .ok zeros s) : r.InBounds := by
  cases more with
  | zero =>
    obtain ⟨_, _, hflag, -⟩ := bind_eq_ok.mp h
    exact inBounds_of_flag hflag
  | succ more =>
    obtain ⟨_, _, hflag, -⟩ := bind_eq_ok.mp h
    exact inBounds_of_flag hflag

theorem inBounds_of_ue {n : Nat} {r s : Reader} (h : ue r = .ok n s) : r.InBounds := by
  obtain ⟨_, _, hzeros, -⟩ := bind_eq_ok.mp h
  exact inBounds_of_readZeros hzeros

theorem inBounds_of_se {n : Int} {r s : Reader} (h : se r = .ok n s) : r.InBounds := by
  rw [se_eq, map_eq_pure_bind] at h
  obtain ⟨_, _, hue, -⟩ := bind_eq_ok.mp h
  exact inBounds_of_ue hue

theorem inBounds_of_ueUpTo {quantity : String} {high n : Nat} {r s : Reader}
    (h : ueUpTo quantity high r = .ok n s) : r.InBounds := by
  obtain ⟨_, _, hue, -⟩ := bind_eq_ok.mp h
  exact inBounds_of_ue hue

theorem reads_ueUpTo {quantity : String} {high n : Nat} (h : n ≤ high)
    (hmax : high ≤ maxValue := by decide) : Reads (ueUpTo quantity high) (.ue n) tail n := by
  have hcheck : Reads (Parse.inRange quantity 0 high n) .empty tail () :=
    reads_inRange (by omega) (by omega)
  rw [← Code.append_empty (.ue n)]
  exact (reads_ue (h.trans hmax)).bind (hcheck.bind_pure rfl)

theorem accepts_ueUpTo {quantity : String} {high : Nat} :
    Accepts (ueUpTo quantity high) fun n c => n ≤ high ∧ c = .ue n := by
  refine accepts_ue.bind ?_
  rintro n _ ⟨-, rfl⟩
  refine accepts_inRange.bind ?_
  rintro - _ ⟨⟨-, hhigh⟩, rfl⟩
  exact Accepts.pure ⟨by omega, Code.append_empty _⟩

theorem reads_seWithin {quantity : String} {low high n : Int} (hlow : low ≤ n) (hhigh : n ≤ high)
    (hmin : -(2 ^ 32 - 1) ≤ low := by decide) (hmax : high ≤ 2 ^ 32 - 1 := by decide) :
    Reads (seWithin quantity low high) (.se n) tail n := by
  rw [← Code.append_empty (.se n)]
  exact (reads_se (hmin.trans hlow) (hhigh.trans hmax)).bind
    ((reads_inRange hlow hhigh).bind_pure rfl)

theorem accepts_seWithin {quantity : String} {low high : Int} :
    Accepts (seWithin quantity low high) fun n c => (low ≤ n ∧ n ≤ high) ∧ c = .se n := by
  refine accepts_se.bind ?_
  rintro n _ ⟨-, rfl⟩
  refine accepts_inRange.bind ?_
  rintro - _ ⟨hrange, rfl⟩
  exact Accepts.pure ⟨hrange, Code.append_empty _⟩

end Parse

namespace Code

theorem atMost_ue (n : Nat) : (ue n).AtMost 65 := ExpGolomb.length_bits_code_le n

theorem atMost_se (n : Int) : (se n).AtMost 65 := ExpGolomb.length_bits_code_le _

end Code

end AvcSyntax

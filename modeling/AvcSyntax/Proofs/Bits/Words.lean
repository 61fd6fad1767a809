import AvcSyntax.Proofs.Bits.ExpGolomb

/-!
# Numbers that are kept in words

A record keeps what it reads in words that are wide enough. Here a parser of a bounded number is
said to accept the numbers of a word, so that nothing is lost where the number becomes a field
of the record.
-/
namespace AvcSyntax

section Words

variable {p : Parse Nat} {code : Nat → Code} {high : Nat}

theorem Accepts.word8 (h : Accepts p fun n c => n ≤ high ∧ c = code n) (hhigh : high ≤ 255) :
    Accepts p fun n c => ∃ x : UInt8, n = x.toNat ∧ x.toNat ≤ high ∧ c = code x.toNat := by
  apply h.mono
  rintro n _ ⟨hn, rfl⟩
  have hx : n = n.toUInt8.toNat := by simp; omega
  exact ⟨n.toUInt8, hx, hx ▸ hn, by rw [← hx]⟩

theorem Accepts.word16 (h : Accepts p fun n c => n ≤ high ∧ c = code n)
    (hhigh : high ≤ 2 ^ 16 - 1) :
    Accepts p fun n c => ∃ x : UInt16, n = x.toNat ∧ x.toNat ≤ high ∧ c = code x.toNat := by
  apply h.mono
  rintro n _ ⟨hn, rfl⟩
  have hx : n = n.toUInt16.toNat := by simp; omega
  exact ⟨n.toUInt16, hx, hx ▸ hn, by rw [← hx]⟩

theorem Accepts.word32 (h : Accepts p fun n c => n ≤ high ∧ c = code n)
    (hhigh : high ≤ 2 ^ 32 - 1) :
    Accepts p fun n c => ∃ x : UInt32, n = x.toNat ∧ x.toNat ≤ high ∧ c = code x.toNat := by
  apply h.mono
  rintro n _ ⟨hn, rfl⟩
  have hx : n = n.toUInt32.toNat := by simp; omega
  exact ⟨n.toUInt32, hx, hx ▸ hn, by rw [← hx]⟩

theorem Accepts.word64 (h : Accepts p fun n c => n ≤ high ∧ c = code n)
    (hhigh : high ≤ 2 ^ 64 - 1) :
    Accepts p fun n c => ∃ x : UInt64, n = x.toNat ∧ x.toNat ≤ high ∧ c = code x.toNat := by
  apply h.mono
  rintro n _ ⟨hn, rfl⟩
  have hx : n = n.toUInt64.toNat := by simp; omega
  exact ⟨n.toUInt64, hx, hx ▸ hn, by rw [← hx]⟩

theorem Accepts.onlyIf8 {C : Prop} [Decidable C]
    (h : C → Accepts p fun n c => n ≤ high ∧ c = code n) (hhigh : high ≤ 255 := by decide) :
    Accepts (if C then p else Pure.pure 0) fun n c => ∃ x : UInt8, n = x.toNat ∧ x.toNat ≤ high ∧
      (¬C → x = 0) ∧ c = .onlyIf C (code x.toNat) := by
  apply (Accepts.onlyIf h).mono
  rintro n _ ⟨⟨hn, habsent⟩, rfl⟩
  have hle : n ≤ high := by
    by_cases hC : C
    · exact hn hC
    · exact habsent hC ▸ Nat.zero_le _
  have hx : n = n.toUInt8.toNat := by simp; omega
  exact ⟨n.toUInt8, hx, hx ▸ hle, fun hC => by rw [habsent hC]; rfl, by rw [← hx]⟩

theorem Accepts.onlyIf32 {C : Prop} [Decidable C]
    (h : C → Accepts p fun n c => n ≤ high ∧ c = code n)
    (hhigh : high ≤ 2 ^ 32 - 1 := by decide) :
    Accepts (if C then p else Pure.pure 0) fun n c => ∃ x : UInt32, n = x.toNat ∧ x.toNat ≤ high ∧
      (¬C → x = 0) ∧ c = .onlyIf C (code x.toNat) := by
  apply (Accepts.onlyIf h).mono
  rintro n _ ⟨⟨hn, habsent⟩, rfl⟩
  have hle : n ≤ high := by
    by_cases hC : C
    · exact hn hC
    · exact habsent hC ▸ Nat.zero_le _
  have hx : n = n.toUInt32.toNat := by simp; omega
  exact ⟨n.toUInt32, hx, hx ▸ hle, fun hC => by rw [habsent hC]; rfl, by rw [← hx]⟩

end Words

section SignedWords

variable {p : Parse Int} {code : Int → Code} {low high : Int}

theorem Accepts.int8 (h : Accepts p fun n c => (low ≤ n ∧ n ≤ high) ∧ c = code n)
    (hlow : -2 ^ 7 ≤ low) (hhigh : high < 2 ^ 7) :
    Accepts p fun n c =>
      ∃ x : Int8, n = x.toInt ∧ (low ≤ x.toInt ∧ x.toInt ≤ high) ∧ c = code x.toInt := by
  apply h.mono
  rintro n _ ⟨hn, rfl⟩
  have hx : n = (Int8.ofInt n).toInt := (Int8.toInt_ofInt_of_le (by omega) (by omega)).symm
  exact ⟨.ofInt n, hx, hx ▸ hn, by rw [← hx]⟩

theorem Accepts.int32 (h : Accepts p fun n c => (low ≤ n ∧ n ≤ high) ∧ c = code n)
    (hlow : -2 ^ 31 ≤ low) (hhigh : high < 2 ^ 31) :
    Accepts p fun n c =>
      ∃ x : Int32, n = x.toInt ∧ (low ≤ x.toInt ∧ x.toInt ≤ high) ∧ c = code x.toInt := by
  apply h.mono
  rintro n _ ⟨hn, rfl⟩
  have hx : n = (Int32.ofInt n).toInt := (Int32.toInt_ofInt_of_le (by omega) (by omega)).symm
  exact ⟨.ofInt n, hx, hx ▸ hn, by rw [← hx]⟩

theorem Accepts.int64 (h : Accepts p fun n c => (low ≤ n ∧ n ≤ high) ∧ c = code n)
    (hlow : -2 ^ 63 ≤ low) (hhigh : high < 2 ^ 63) :
    Accepts p fun n c =>
      ∃ x : Int64, n = x.toInt ∧ (low ≤ x.toInt ∧ x.toInt ≤ high) ∧ c = code x.toInt := by
  apply h.mono
  rintro n _ ⟨hn, rfl⟩
  have hx : n = (Int64.ofInt n).toInt := (Int64.toInt_ofInt_of_le (by omega) (by omega)).symm
  exact ⟨.ofInt n, hx, hx ▸ hn, by rw [← hx]⟩

theorem Accepts.onlyIfInt32 {C : Prop} [Decidable C]
    (h : C → Accepts p fun n c => (low ≤ n ∧ n ≤ high) ∧ c = code n)
    (hlow : -2 ^ 31 ≤ low ∧ low ≤ 0 := by decide) (hhigh : 0 ≤ high ∧ high < 2 ^ 31 := by decide) :
    Accepts (if C then p else Pure.pure 0) fun n c => ∃ x : Int32, n = x.toInt ∧
      (low ≤ x.toInt ∧ x.toInt ≤ high) ∧ (¬C → x = 0) ∧ c = .onlyIf C (code x.toInt) := by
  apply (Accepts.onlyIf h).mono
  rintro n _ ⟨⟨hn, habsent⟩, rfl⟩
  have hle : low ≤ n ∧ n ≤ high := by
    by_cases hC : C
    · exact hn hC
    · exact habsent hC ▸ ⟨hlow.2, hhigh.1⟩
  have hx : n = (Int32.ofInt n).toInt := (Int32.toInt_ofInt_of_le (by omega) (by omega)).symm
  exact ⟨.ofInt n, hx, hx ▸ hle, fun hC => by rw [habsent hC]; rfl, by rw [← hx]⟩

end SignedWords

namespace Parse

open ExpGolomb

variable {quantity : String}

theorem accepts_ueUpTo8 {high : Nat} (hhigh : high ≤ 255 := by decide) :
    Accepts (ueUpTo quantity high) fun n c =>
      ∃ x : UInt8, n = x.toNat ∧ x.toNat ≤ high ∧ c = .ue x.toNat :=
  accepts_ueUpTo.word8 hhigh

theorem accepts_ueUpTo32 {high : Nat} (hhigh : high ≤ 2 ^ 32 - 1 := by decide) :
    Accepts (ueUpTo quantity high) fun n c =>
      ∃ x : UInt32, n = x.toNat ∧ x.toNat ≤ high ∧ c = .ue x.toNat :=
  accepts_ueUpTo.word32 hhigh

theorem accepts_ue64 : Accepts ue fun n c =>
    ∃ x : UInt64, n = x.toNat ∧ x.toNat ≤ maxValue ∧ c = .ue x.toNat :=
  accepts_ue.word64 (by decide)

theorem accepts_word_le (count : Nat) :
    Accepts (word count) fun n c => n ≤ 256 ^ count - 1 ∧ c = .word count n := by
  apply (accepts_word count).mono
  rintro n _ ⟨hn, rfl⟩
  exact ⟨by omega, rfl⟩

theorem accepts_word8 : Accepts (word 1) fun n c =>
    ∃ x : UInt8, n = x.toNat ∧ c = .word 1 x.toNat :=
  ((accepts_word_le 1).word8 (by decide)).mono fun _ _ ⟨x, hn, _, hc⟩ => ⟨x, hn, hc⟩

theorem accepts_word16 : Accepts (word 2) fun n c =>
    ∃ x : UInt16, n = x.toNat ∧ c = .word 2 x.toNat :=
  ((accepts_word_le 2).word16 (by decide)).mono fun _ _ ⟨x, hn, _, hc⟩ => ⟨x, hn, hc⟩

theorem accepts_word32 : Accepts (word 4) fun n c =>
    ∃ x : UInt32, n = x.toNat ∧ c = .word 4 x.toNat :=
  ((accepts_word_le 4).word32 (by decide)).mono fun _ _ ⟨x, hn, _, hc⟩ => ⟨x, hn, hc⟩

theorem accepts_seWithin8 {low high : Int} (hlow : -2 ^ 7 ≤ low := by decide)
    (hhigh : high < 2 ^ 7 := by decide) :
    Accepts (seWithin quantity low high) fun n c =>
      ∃ x : Int8, n = x.toInt ∧ (low ≤ x.toInt ∧ x.toInt ≤ high) ∧ c = .se x.toInt :=
  accepts_seWithin.int8 hlow hhigh

theorem accepts_seWithin32 {low high : Int} (hlow : -2 ^ 31 ≤ low := by decide)
    (hhigh : high < 2 ^ 31 := by decide) :
    Accepts (seWithin quantity low high) fun n c =>
      ∃ x : Int32, n = x.toInt ∧ (low ≤ x.toInt ∧ x.toInt ≤ high) ∧ c = .se x.toInt :=
  accepts_seWithin.int32 hlow hhigh

theorem accepts_se64 : Accepts se fun n c => ∃ x : Int64, n = x.toInt ∧
    (-(2 ^ 32 - 1) ≤ x.toInt ∧ x.toInt ≤ 2 ^ 32 - 1) ∧ c = .se x.toInt :=
  accepts_se.int64 (by decide) (by decide)

end Parse

end AvcSyntax

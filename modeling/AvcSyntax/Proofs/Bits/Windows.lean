import AvcSyntax.Bits.Basic
import Mathlib

/-!
# Windows of a buffer

A number of a given width and the bits that stand for it determine each other. A window of a
buffer is put together from smaller windows, a window that was overwritten holds what was
written, and all other bits stay. Whole bytes are windows of eight bits, so a buffer is known
when all its bits are.
-/
namespace AvcSyntax

namespace Bits

private theorem foldl_bits (bs : Bits) (n : Nat) :
    bs.foldl (fun n b => 2 * n + b.toNat) n = n * 2 ^ bs.length + toNat bs := by
  induction bs generalizing n with
  | nil => simp [toNat]
  | cons b bs ih =>
    have hn := ih (2 * n + b.toNat)
    have hzero : toNat (b :: bs) = b.toNat * 2 ^ bs.length + toNat bs := by
      simpa [toNat] using ih b.toNat
    rw [List.foldl_cons, hn, hzero, List.length_cons]
    ring

@[simp] theorem toNat_nil : toNat [] = 0 := rfl

theorem toNat_cons (b : Bool) (bs : Bits) :
    toNat (b :: bs) = b.toNat * 2 ^ bs.length + toNat bs := by
  simpa [toNat] using foldl_bits bs b.toNat

theorem toNat_append (bs cs : Bits) :
    toNat (bs ++ cs) = toNat bs * 2 ^ cs.length + toNat cs := by
  rw [toNat, List.foldl_append]
  exact foldl_bits cs (toNat bs)

theorem toNat_lt (bs : Bits) : toNat bs < 2 ^ bs.length := by
  induction bs with
  | nil => simp
  | cons b bs ih =>
    have hb : b.toNat ≤ 1 := Bool.toNat_le b
    have hmul : b.toNat * 2 ^ bs.length ≤ 1 * 2 ^ bs.length := Nat.mul_le_mul_right _ hb
    rw [toNat_cons, List.length_cons, Nat.pow_succ]
    omega

@[simp] theorem ofNat_zero (value : Nat) : ofNat 0 value = [] := rfl

theorem ofNat_succ (width value : Nat) :
    ofNat (width + 1) value = value.testBit width :: ofNat width value := rfl

/-- Only the bits inside the width count. -/
theorem ofNat_congr {width a b : Nat} (h : ∀ i < width, a.testBit i = b.testBit i) :
    ofNat width a = ofNat width b := by
  induction width with
  | zero => rfl
  | succ n ih =>
    rw [ofNat_succ, ofNat_succ, h n (Nat.lt_succ_self n), ih fun i hi => h i (by omega)]

theorem toNat_ofNat (width value : Nat) : toNat (ofNat width value) = value % 2 ^ width := by
  induction width with
  | zero => simp [Nat.mod_one]
  | succ n ih =>
    have hsplit : value % 2 ^ (n + 1) = value % 2 ^ n + 2 ^ n * (value / 2 ^ n % 2) := by
      rw [Nat.pow_succ, Nat.mod_mul]
    rw [ofNat_succ, toNat_cons, length_ofNat, ih, hsplit, Nat.toNat_testBit, Nat.add_comm,
      Nat.mul_comm]

theorem toNat_ofNat_of_lt {width value : Nat} (h : value < 2 ^ width) :
    toNat (ofNat width value) = value := by rw [toNat_ofNat, Nat.mod_eq_of_lt h]

theorem ofNat_toNat (bs : Bits) : ofNat bs.length (toNat bs) = bs := by
  induction bs with
  | nil => rfl
  | cons b bs ih =>
    have hlow := toNat_lt bs
    have hbit : ∀ i, (toNat (b :: bs)).testBit i =
        if i < bs.length then (toNat bs).testBit i else b.toNat.testBit (i - bs.length) := by
      intro i
      rw [toNat_cons, Nat.mul_comm, Nat.testBit_two_pow_mul_add _ hlow]
    rw [List.length_cons, ofNat_succ, hbit, ofNat_congr (b := toNat bs), ih]
    · cases b <;> simp
    · intro i hi
      rw [hbit, if_pos hi]

theorem eq_ofNat {width value : Nat} {bs : Bits} (hlength : bs.length = width)
    (hvalue : toNat bs = value) : bs = ofNat width value := by
  rw [← hlength, ← hvalue, ofNat_toNat]

theorem ofNat_one (b : Bool) : ofNat 1 b.toNat = [b] := by cases b <;> rfl

theorem ofNat_replicate_false (width : Nat) : ofNat width 0 = List.replicate width false := by
  induction width with
  | zero => rfl
  | succ n ih => rw [ofNat_succ, ih, Nat.zero_testBit, List.replicate_succ]

theorem toNat_replicate_false (width : Nat) : toNat (List.replicate width false) = 0 := by
  rw [← ofNat_replicate_false, toNat_ofNat, Nat.zero_mod]

/-- A number one bit wider than needed starts with its highest bit. -/
theorem ofNat_succ_two_pow_add {width low : Nat} (h : low < 2 ^ width) :
    ofNat (width + 1) (2 ^ width + low) = true :: ofNat width low := by
  have hbit : ∀ i, (2 ^ width * 1 + low).testBit i =
      if i < width then low.testBit i else Nat.testBit 1 (i - width) :=
    Nat.testBit_two_pow_mul_add 1 h
  rw [Nat.mul_one] at hbit
  rw [ofNat_succ, hbit, ofNat_congr (b := low)]
  · simp
  · intro i hi
    rw [hbit, if_pos hi]

@[simp] theorem length_ofByte (b : UInt8) : (ofByte b).length = 8 := length_ofNat 8 _

@[simp] theorem ofBytes_nil : ofBytes [] = [] := rfl

@[simp] theorem ofBytes_cons (b : UInt8) (bs : List UInt8) :
    ofBytes (b :: bs) = ofByte b ++ ofBytes bs := rfl

@[simp] theorem ofBytes_append (bs cs : List UInt8) :
    ofBytes (bs ++ cs) = ofBytes bs ++ ofBytes cs := List.flatMap_append

@[simp] theorem length_ofBytes (bs : List UInt8) : (ofBytes bs).length = 8 * bs.length := by
  induction bs with
  | nil => rfl
  | cons b bs ih =>
    rw [ofBytes_cons, List.length_append, length_ofByte, ih, List.length_cons]
    omega

theorem ofByte_injective {a b : UInt8} (h : ofByte a = ofByte b) : a = b := by
  have hn := congrArg toNat h
  rw [ofByte, ofByte, toNat_ofNat_of_lt a.toNat_lt, toNat_ofNat_of_lt b.toNat_lt] at hn
  exact UInt8.toNat_inj.mp hn

theorem ofBytes_injective {bs cs : List UInt8} (h : ofBytes bs = ofBytes cs) : bs = cs := by
  induction bs generalizing cs with
  | nil =>
    have hlength := congrArg List.length h
    simp only [ofBytes_nil, List.length_nil, length_ofBytes] at hlength
    exact (List.length_eq_zero_iff.mp (by omega)).symm
  | cons b bs ih =>
    cases cs with
    | nil => simp [ofByte, ofNat] at h
    | cons c cs =>
      rw [ofBytes_cons, ofBytes_cons] at h
      have hparts := List.append_inj h (by simp)
      rw [ofByte_injective hparts.1, ih hparts.2]

theorem exists_ofBytes {n : Nat} {bs : Bits} (h : bs.length = 8 * n) :
    ∃ bytes : List UInt8, bytes.length = n ∧ ofBytes bytes = bs := by
  induction n generalizing bs with
  | zero => exact ⟨[], rfl, (List.length_eq_zero_iff.mp (by omega)).symm⟩
  | succ n ih =>
    have hdrop : (bs.drop 8).length = 8 * n := by rw [List.length_drop]; omega
    obtain ⟨bytes, hlength, hbytes⟩ := ih hdrop
    have htake : (bs.take 8).length = 8 := by rw [List.length_take]; omega
    have hlt : toNat (bs.take 8) < 256 := by simpa [htake] using toNat_lt (bs.take 8)
    refine ⟨(toNat (bs.take 8)).toUInt8 :: bytes, by rw [List.length_cons, hlength], ?_⟩
    have hbyte : ofByte (toNat (bs.take 8)).toUInt8 = bs.take 8 := by
      have hnat : (toNat (bs.take 8)).toUInt8.toNat = toNat (bs.take 8) := by simp [hlt]
      rw [ofByte, hnat]
      exact (eq_ofNat htake rfl).symm
    rw [ofBytes_cons, hbyte, hbytes, List.take_append_drop]

end Bits

section Bytes

private theorem foldl_bytes (bs : List UInt8) (n : Nat) :
    bs.foldl (fun n b => 256 * n + b.toNat) n = n * 256 ^ bs.length + bytesToNat bs := by
  induction bs generalizing n with
  | nil => simp [bytesToNat]
  | cons b bs ih =>
    have hn := ih (256 * n + b.toNat)
    have hzero : bytesToNat (b :: bs) = b.toNat * 256 ^ bs.length + bytesToNat bs := by
      simpa [bytesToNat] using ih b.toNat
    rw [List.foldl_cons, hn, hzero, List.length_cons]
    ring

theorem bytesToNat_cons (b : UInt8) (bs : List UInt8) :
    bytesToNat (b :: bs) = b.toNat * 256 ^ bs.length + bytesToNat bs := by
  simpa [bytesToNat] using foldl_bytes bs b.toNat

theorem bytesToNat_lt (bs : List UInt8) : bytesToNat bs < 256 ^ bs.length := by
  induction bs with
  | nil => simp [bytesToNat]
  | cons b bs ih =>
    have hmul : b.toNat * 256 ^ bs.length ≤ 255 * 256 ^ bs.length :=
      Nat.mul_le_mul_right _ (Nat.le_of_lt_succ b.toNat_lt)
    rw [bytesToNat_cons, List.length_cons, Nat.pow_succ]
    omega

@[simp] theorem length_bytesOfNat (count value : Nat) :
    (bytesOfNat count value).length = count := by
  induction count with
  | zero => rfl
  | succ n ih => rw [bytesOfNat, List.length_cons, ih]

theorem bytesOfNat_succ (count value : Nat) :
    bytesOfNat (count + 1) value = (value / 256 ^ count).toUInt8 :: bytesOfNat count value := by
  rw [bytesOfNat, Nat.shiftRight_eq_div_pow, Nat.pow_mul]

theorem bytesToNat_bytesOfNat (count value : Nat) :
    bytesToNat (bytesOfNat count value) = value % 256 ^ count := by
  induction count with
  | zero => simp [bytesOfNat, bytesToNat, Nat.mod_one]
  | succ n ih =>
    have hsplit : value % 256 ^ (n + 1) = value % 256 ^ n + 256 ^ n * (value / 256 ^ n % 256) := by
      rw [Nat.pow_succ, Nat.mod_mul]
    have hbyte : (value / 256 ^ n).toUInt8.toNat = value / 256 ^ n % 256 := by simp
    rw [bytesOfNat_succ, bytesToNat_cons, length_bytesOfNat, ih, hsplit, hbyte, Nat.add_comm,
      Nat.mul_comm]

theorem bytesOfNat_add_mul (count value high : Nat) :
    bytesOfNat count (high * 256 ^ count + value) = bytesOfNat count value := by
  induction count generalizing high with
  | zero => rfl
  | succ n ih =>
    have hpow : high * 256 ^ (n + 1) = high * 256 * 256 ^ n := by ring
    have hbyte : ((high * 256 * 256 ^ n + value) / 256 ^ n).toUInt8 =
        (value / 256 ^ n).toUInt8 := by
      rw [Nat.add_comm, Nat.add_mul_div_right _ _ (Nat.pow_pos (by decide))]
      apply UInt8.toNat_inj.mp
      simp
    rw [hpow, bytesOfNat_succ, bytesOfNat_succ, ih, hbyte]

theorem bytesOfNat_bytesToNat (bs : List UInt8) : bytesOfNat bs.length (bytesToNat bs) = bs := by
  induction bs with
  | nil => rfl
  | cons b bs ih =>
    have hbyte : ((b.toNat * 256 ^ bs.length + bytesToNat bs) / 256 ^ bs.length).toUInt8 = b := by
      rw [Nat.add_comm, Nat.add_mul_div_right _ _ (Nat.pow_pos (by decide)),
        Nat.div_eq_of_lt (bytesToNat_lt bs)]
      simp
    rw [List.length_cons, bytesOfNat_succ, bytesToNat_cons, hbyte, bytesOfNat_add_mul, ih]

end Bytes

theorem bitsAt_append (data : Array UInt8) (pos m n : Nat) :
    bitsAt data pos (m + n) = bitsAt data pos m ++ bitsAt data (pos + m) n := by
  induction m generalizing pos with
  | zero => simp [bitsAt]
  | succ m ih =>
    rw [Nat.succ_add, bitsAt, bitsAt, ih, List.cons_append, Nat.add_assoc, Nat.add_comm 1 m]

theorem getElem_bitsAt (data : Array UInt8) (pos count i : Nat)
    (h : i < (bitsAt data pos count).length) :
    (bitsAt data pos count)[i] = bitAt data (pos + i) := by
  induction count generalizing pos i with
  | zero => simp at h
  | succ n ih =>
    cases i with
    | zero => rfl
    | succ i =>
      simp only [bitsAt, List.getElem_cons_succ]
      rw [ih, Nat.add_assoc, Nat.add_comm 1 i]

theorem bitAt_behind {data : Array UInt8} {pos : Nat} (h : 8 * data.size ≤ pos) :
    bitAt data pos = false := by
  have hindex : data.size ≤ pos / 8 := by omega
  rw [bitAt, Array.getD_eq_getD_getElem?, Array.getElem?_eq_none hindex, Option.getD_none]
  exact Nat.zero_testBit _

theorem bitsAt_behind {data : Array UInt8} {pos : Nat} (h : 8 * data.size ≤ pos) (count : Nat) :
    bitsAt data pos count = List.replicate count false := by
  induction count generalizing pos with
  | zero => rfl
  | succ n ih => rw [bitsAt, bitAt_behind h, ih (by omega), List.replicate_succ]

/-- Zero bytes behind a buffer cannot be told from its end. -/
theorem bitAt_append_zeros (data : Array UInt8) (zeros pos : Nat) :
    bitAt (data ++ Array.replicate zeros 0) pos = bitAt data pos := by
  by_cases h : pos / 8 < data.size
  · rw [bitAt, bitAt, Array.getD_eq_getD_getElem?, Array.getD_eq_getD_getElem?,
      Array.getElem?_append_left h]
  · have hbehind : bitAt data pos = false := bitAt_behind (by omega)
    rw [hbehind, bitAt, Array.getD_eq_getD_getElem?,
      Array.getElem?_append_right (Nat.not_lt.mp h), Array.getElem?_replicate]
    split
    · exact Nat.zero_testBit _
    · exact Nat.zero_testBit _

theorem bitsAt_congr {a b : Array UInt8} {p q count : Nat}
    (h : ∀ i < count, bitAt a (p + i) = bitAt b (q + i)) :
    bitsAt a p count = bitsAt b q count := by
  apply List.ext_getElem (by simp)
  intro i ha hb
  rw [getElem_bitsAt, getElem_bitsAt]
  exact h i (by simpa using ha)

theorem getElem_ofByte (b : UInt8) (i : Nat) (h : i < (Bits.ofByte b).length) :
    (Bits.ofByte b)[i] = b.toNat.testBit (7 - i) := by
  have hi : i < 8 := by simpa using h
  interval_cases i <;> rfl

theorem bitsAt_byte (data : Array UInt8) (index : Nat) :
    bitsAt data (8 * index) 8 = Bits.ofByte (data.getD index 0) := by
  apply List.ext_getElem (by simp)
  intro i hi _
  have hlt : i < 8 := by simpa using hi
  rw [getElem_bitsAt, getElem_ofByte, bitAt]
  have hdiv : (8 * index + i) / 8 = index := by omega
  have hmod : (8 * index + i) % 8 = i := by omega
  rw [hdiv, hmod]

theorem bitsAt_bytes (data : Array UInt8) (index count : Nat) (h : index + count ≤ data.size) :
    bitsAt data (8 * index) (8 * count) =
      Bits.ofBytes (data.extract index (index + count)).toList := by
  induction count generalizing index with
  | zero => simp [bitsAt]
  | succ n ih =>
    have hindex : index < data.size := by omega
    have hsplit : (data.extract index (index + (n + 1))).toList =
        data.getD index 0 :: (data.extract (index + 1) (index + 1 + n)).toList := by
      simp only [Array.toList_extract, List.extract_eq_take_drop, Array.getD_eq_getD_getElem?,
        Array.getElem?_eq_getElem hindex, Option.getD_some]
      rw [List.drop_eq_getElem_cons (by simpa using hindex),
        show index + (n + 1) - index = n + 1 by omega,
        show index + 1 + n - (index + 1) = n by omega, List.take_succ_cons]
      rfl
    rw [Nat.mul_succ, Nat.add_comm (8 * n) 8, bitsAt_append, bitsAt_byte, hsplit,
      Bits.ofBytes_cons, ← ih (index + 1) (by omega), Nat.mul_succ]

theorem bitsAt_all (data : Array UInt8) :
    bitsAt data 0 (8 * data.size) = Bits.ofBytes data.toList := by
  have h := bitsAt_bytes data 0 data.size (by omega)
  simpa using h

/-- The bits of the mask that picks one bit of a byte, and of its complement. -/
private theorem testBit_mask : ∀ p < 8, ∀ i < 8,
    (((1 : UInt8) <<< (7 - p).toUInt8).toNat.testBit (7 - i) = decide (i = p)) ∧
      ((~~~((1 : UInt8) <<< (7 - p).toUInt8)).toNat.testBit (7 - i) = !decide (i = p)) := by
  decide

theorem testBit_setByteBit (x : UInt8) (pos : Nat) (b : Bool) (i : Nat) (h : i < 8) :
    (setByteBit x pos b).toNat.testBit (7 - i) =
      if i = pos % 8 then b else x.toNat.testBit (7 - i) := by
  obtain ⟨hmask, hcomplement⟩ := testBit_mask (pos % 8) (Nat.mod_lt _ (by decide)) i h
  cases b with
  | true =>
    simp only [setByteBit, if_true, UInt8.toNat_or, Nat.testBit_or, hmask]
    by_cases hi : i = pos % 8 <;> simp [hi]
  | false =>
    simp only [setByteBit, Bool.false_eq_true, if_false, UInt8.toNat_and, Nat.testBit_and,
      hcomplement]
    by_cases hi : i = pos % 8 <;> simp [hi]

theorem bitAt_putBit {data : Array UInt8} {pos : Nat} (h : pos < 8 * data.size) (b : Bool)
    (place : Nat) :
    bitAt (putBit data pos b) place = if place = pos then b else bitAt data place := by
  have hindex : pos / 8 < data.size := by omega
  have hplace : place % 8 < 8 := Nat.mod_lt _ (by decide)
  by_cases hbyte : place / 8 = pos / 8
  · have hget : (putBit data pos b).getD (place / 8) 0 =
        setByteBit (data.getD (place / 8) 0) pos b := by
      simp [putBit, Array.getD_eq_getD_getElem?, hbyte, hindex, Array.getElem_modify]
    rw [bitAt, hget, testBit_setByteBit _ _ _ _ hplace, bitAt]
    have hiff : place % 8 = pos % 8 ↔ place = pos := by omega
    simp only [hiff]
  · have hget : (putBit data pos b).getD (place / 8) 0 = data.getD (place / 8) 0 := by
      simp [putBit, Array.getD_eq_getD_getElem?, Array.getElem?_modify, Ne.symm hbyte]
    rw [bitAt, hget, if_neg (by rintro rfl; exact hbyte rfl), bitAt]

/-- Writing changes the window that is written and nothing else. -/
theorem bitAt_putBits {data : Array UInt8} {pos : Nat} {bs : Bits}
    (h : pos + bs.length ≤ 8 * data.size) (place : Nat) :
    bitAt (putBits data pos bs) place =
      if place < pos then bitAt data place else (bs[place - pos]?).getD (bitAt data place) := by
  induction bs generalizing data pos with
  | nil => simp [putBits]
  | cons b bs ih =>
    simp only [List.length_cons] at h
    rw [putBits, ih (by rw [size_putBit]; omega), bitAt_putBit (by omega)]
    rcases Nat.lt_trichotomy place pos with hlt | rfl | hgt
    · rw [if_pos (by omega), if_neg (by omega), if_pos hlt]
    · simp
    · rw [if_neg (by omega), if_neg (by omega), if_neg (by omega),
        show place - pos = place - (pos + 1) + 1 by omega, List.getElem?_cons_succ]

theorem bitsAt_putBits {data : Array UInt8} {pos : Nat} {bs : Bits}
    (h : pos + bs.length ≤ 8 * data.size) : bitsAt (putBits data pos bs) pos bs.length = bs := by
  apply List.ext_getElem (by simp)
  intro i _ hi
  rw [getElem_bitsAt, bitAt_putBits h, if_neg (by omega), Nat.add_sub_cancel_left,
    List.getElem?_eq_getElem hi, Option.getD_some]

theorem eq_of_bitAt {a b : Array UInt8} (hsize : a.size = b.size)
    (h : ∀ place < 8 * a.size, bitAt a place = bitAt b place) : a = b := by
  have hbits : bitsAt a 0 (8 * a.size) = bitsAt b 0 (8 * b.size) := by
    rw [← hsize]
    exact bitsAt_congr fun i hi => by rw [Nat.zero_add]; exact h i hi
  rw [bitsAt_all, bitsAt_all] at hbits
  exact Array.toList_inj.mp (Bits.ofBytes_injective hbits)

theorem putBits_append (data : Array UInt8) (pos : Nat) (bs cs : Bits) :
    putBits data pos (bs ++ cs) = putBits (putBits data pos bs) (pos + bs.length) cs := by
  induction bs generalizing data pos with
  | nil => rfl
  | cons b bs ih =>
    rw [List.cons_append, putBits, putBits, ih, List.length_cons, Nat.add_assoc,
      Nat.add_comm 1 bs.length]

theorem setIfInBounds_eq_putBits {data : Array UInt8} {index : Nat} (h : index < data.size)
    (b : UInt8) : data.setIfInBounds index b = putBits data (8 * index) (Bits.ofByte b) := by
  apply eq_of_bitAt (by simp)
  intro place _
  rw [bitAt_putBits (by rw [Bits.length_ofByte]; omega)]
  by_cases hbyte : place / 8 = index
  · have hi : place - 8 * index < (Bits.ofByte b).length := by rw [Bits.length_ofByte]; omega
    have hmod : place - 8 * index = place % 8 := by omega
    rw [if_neg (by omega), List.getElem?_eq_getElem hi, Option.getD_some, getElem_ofByte, bitAt,
      hbyte, hmod]
    simp [Array.getD_eq_getD_getElem?, h]
  · have hother : bitAt (data.setIfInBounds index b) place = bitAt data place := by
      simp [bitAt, Array.getD_eq_getD_getElem?, Ne.symm hbyte]
    rw [hother]
    split
    · rfl
    · rw [List.getElem?_eq_none (by rw [Bits.length_ofByte]; omega), Option.getD_none]

theorem putBytes_eq_putBits {data : Array UInt8} {index : Nat} {bs : List UInt8}
    (h : index + bs.length ≤ data.size) :
    putBytes data index bs = putBits data (8 * index) (Bits.ofBytes bs) := by
  induction bs generalizing data index with
  | nil => rfl
  | cons b bs ih =>
    simp only [List.length_cons] at h
    rw [putBytes, ih (by rw [Array.size_setIfInBounds]; omega),
      setIfInBounds_eq_putBits (by omega), Bits.ofBytes_cons, putBits_append, Bits.length_ofByte,
      Nat.mul_succ]

end AvcSyntax

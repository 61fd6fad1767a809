import AvcSyntax.Nal.Trailing
import AvcSyntax.Proofs.Bits.Primitives

/-!
# Stop bits and sums of bytes

`Bits.hasMore` says of the bits in front of a reader whether any data stands before the stop bit,
and `Parse.moreData` finds out just that. A payload that ends in a stop bit and up to seven zero
bits is read to its end. A number coded as a sum of bytes has one code and is read back.
-/
namespace AvcSyntax

namespace Bits

/-- The stop bit and the zero bits behind it. -/
def stop (zeros : Nat) : Bits := true :: List.replicate zeros false

/-- Whether data stands in front of the stop bit. -/
def hasMore : Bits → Bool
  | [] => false
  | false :: _ => true
  | true :: bs => bs.contains true

@[simp] theorem length_stop (zeros : Nat) : (stop zeros).length = zeros + 1 := by simp [stop]

theorem hasMore_stop (zeros : Nat) : hasMore (stop zeros) = false := by simp [stop, hasMore]

theorem hasMore_append_stop {bs : Bits} (h : bs ≠ []) (zeros : Nat) :
    hasMore (bs ++ stop zeros) = true := by
  match bs with
  | false :: bs => rfl
  | true :: bs => simp [hasMore, stop]

/-- Apart from a stop bit, any bits count as data. -/
theorem hasMore_eq_true {bs : Bits} (hne : bs ≠ []) (hstop : ∀ zeros, bs ≠ stop zeros) :
    hasMore bs = true := by
  match bs with
  | [] => exact absurd rfl hne
  | false :: bs => rfl
  | true :: bs =>
    rw [hasMore, List.contains_iff_mem]
    by_contra hzeros
    have hall : ∀ b ∈ bs, b = false := fun b hb =>
      Bool.eq_false_of_not_eq_true fun hone => hzeros (hone ▸ hb)
    exact hstop bs.length (congrArg (true :: ·) (List.eq_replicate_of_mem hall))

/-- Bytes whose last one holds the stop bit. -/
theorem last_of_stop {bytes : List UInt8} {bs : Bits} {zeros : Nat} (hzeros : zeros < 8)
    (h : ofBytes bytes = bs ++ stop zeros) : ∃ b, bytes.getLast? = some b ∧ b ≠ 0 := by
  rcases List.eq_nil_or_concat bytes with rfl | ⟨front, b, rfl⟩
  · simp [stop] at h
  · refine ⟨b, by simp, ?_⟩
    rintro rfl
    have hzero : ofByte 0 = List.replicate 8 false := by decide
    rw [List.concat_eq_append, ofBytes_append, ofBytes_cons, ofBytes_nil, hzero,
      List.append_nil] at h
    have hzeroBit : (ofBytes front ++ List.replicate 8 false).reverse[zeros]? = some false := by
      rw [List.reverse_append, List.reverse_replicate, List.getElem?_append_left (by simpa),
        List.getElem?_replicate_of_lt hzeros]
    have hstopBit : (bs ++ stop zeros).reverse[zeros]? = some true := by simp [stop]
    rw [h, hstopBit] at hzeroBit
    cases hzeroBit

end Bits

namespace Reader

theorem rest_eq_nil_iff {r : Reader} : r.rest = [] ↔ r.atEnd := by
  rw [← List.length_eq_zero_iff, length_rest, remaining, atEnd_iff]
  omega

theorem peekBit_of_rest {r : Reader} {b : Bool} {bs : Bits} (h : r.rest = b :: bs) :
    r.peekBit = b := by
  have hbit : bitsAt r.data r.pos 1 = [b] := bitsAt_of_rest (show r.rest = [b] ++ bs from h)
  have hpeek : r.peekBits 1 = b.toNat := by
    rw [peekBits, Nat.min_eq_left (by decide), hbit, ← Bits.ofNat_one,
      Bits.toNat_ofNat_of_lt b.toNat_lt]
  rw [peekBit, hpeek]
  cases b <;> rfl

end Reader

namespace Code

/-- The bits of a code with the stop bit and the zero bits that fill up its last byte. -/
def closed (c : Code) : Bits := c.bits ++ .stop (7 - c.bits.length % 8)

theorem length_closed_mod (c : Code) : c.closed.length % 8 = 0 := by
  rw [closed, List.length_append, Bits.length_stop]
  omega

theorem length_closed_le (c : Code) : c.closed.length ≤ c.bits.length + 8 := by
  rw [closed, List.length_append, Bits.length_stop]
  omega

theorem Valid.bits_append_stop {c : Code} (h : c.Valid) :
    (c ++ .ofBits (.stop (7 - c.bits.length % 8))).bits = c.closed := by
  rw [h.bits_append, bits_ofBits, closed]

end Code

namespace Parse

variable {tail : Bits}

theorem oneBitWithin_eq (count : Nat) {r : Reader} (hr : r.InBounds) (h : r.remaining = count) :
    ∃ s, oneBitWithin count r = .ok (r.rest.contains true) s := by
  induction count generalizing r with
  | zero =>
    have hrest : r.rest = [] := List.length_eq_zero_iff.mp (by rw [Reader.length_rest, h])
    exact ⟨r, by rw [hrest]; rfl⟩
  | succ count ih =>
    obtain ⟨b, bs, hrest⟩ : ∃ b bs, r.rest = b :: bs :=
      List.exists_cons_of_length_pos (by rw [Reader.length_rest, h]; exact Nat.succ_pos count)
    have hstart : r.rest = (Code.flag b).bits ++ bs := by
      rw [hrest, Code.bits_flag, List.singleton_append]
    obtain ⟨s, hs, hmoves⟩ := (reads_flag b).run r hr hstart
    rw [Code.bits_flag] at hmoves
    have hsrest : s.rest = bs := hmoves.rest_eq hrest
    rw [oneBitWithin, bind_of_ok hs, hrest]
    cases b with
    | true => exact ⟨s, by simp [Pure.pure, EStateM.pure]⟩
    | false =>
      have hlength := congrArg List.length hrest
      rw [Reader.length_rest, h, List.length_cons] at hlength
      obtain ⟨t, ht⟩ := ih (hmoves.inBounds hr) (by rw [← Reader.length_rest, hsrest]; omega)
      exact ⟨t, by simpa [hsrest] using ht⟩

/-- Only the recorded accesses change. -/
theorem moreData_eq (r : Reader) :
    ∃ t, moreData r = .ok (Bits.hasMore r.rest) { r with trace := t } := by
  rw [moreData, get_bind]
  match hrest : r.rest with
  | [] =>
    rw [if_pos (Reader.rest_eq_nil_iff.mp hrest)]
    exact ⟨r.trace, rfl⟩
  | b :: bs =>
    have hend : ¬r.atEnd := fun h => by simp [Reader.rest_eq_nil_iff.mpr h] at hrest
    rw [if_neg hend, Reader.peekBit_of_rest hrest]
    cases b with
    | false => exact ⟨r.trace, rfl⟩
    | true =>
      have hlength := congrArg List.length hrest
      rw [Reader.length_rest, List.length_cons] at hlength
      have hr : r.InBounds := Reader.inBounds_of_remaining (by omega)
      have hstart : r.rest = (Code.ofBits [true]).bits ++ bs := by
        rw [hrest, Code.bits_ofBits, List.singleton_append]
      obtain ⟨s, hs, hmoves⟩ := (reads_skip [true]).run r hr hstart
      rw [Code.bits_ofBits] at hmoves
      have hsrest : s.rest = bs := hmoves.rest_eq hrest
      obtain ⟨t, ht⟩ := oneBitWithin_eq (r.remaining - 1) (hmoves.inBounds hr)
        (by rw [← Reader.length_rest, hsrest]; omega)
      have hboth : (do skip 1; oneBitWithin (r.remaining - 1)) r =
          .ok (s.rest.contains true) t := (bind_of_ok hs).trans ht
      refine ⟨t.trace, ?_⟩
      rw [if_neg (by decide), lookahead, hboth, hsrest, Bits.hasMore]

/-- Only a reader with something left in front of it finds data. -/
theorem inBounds_of_moreData {r s : Reader} (h : moreData r = .ok true s) : r.InBounds := by
  have hend : ¬r.atEnd := by
    intro hend
    rw [moreData, get_bind, if_pos hend] at h
    cases h
  rw [Reader.atEnd_iff] at hend
  exact (Nat.not_le.mp hend).le

theorem reads_moreData : Reads moreData .empty tail (Bits.hasMore tail) := by
  refine ⟨Code.valid_empty, fun r hr hrest => ?_⟩
  obtain ⟨t, ht⟩ := moreData_eq r
  obtain rfl : r.rest = tail := hrest
  exact ⟨_, ht, Reader.Moves.note r t⟩

theorem accepts_moreData : Accepts moreData fun _ c => c = .empty := by
  intro r more s hr h
  obtain ⟨t, ht⟩ := moreData_eq r
  rw [ht] at h
  cases h
  exact ⟨.empty, Code.valid_empty, Reader.Moves.note r t, rfl⟩

theorem exists_align {r : Reader} (hr : r.InBounds) :
    ∃ s, align r = .ok () s ∧ r.Moves (r.rest.take ((8 - r.pos % 8) % 8)) s := by
  rw [align, get_bind]
  by_cases haligned : r.isAligned
  · rw [if_pos haligned]
    have hpos := r.isAligned_iff.mp haligned
    rw [hpos, Nat.sub_zero, Nat.mod_self, List.take_zero]
    exact ⟨r, rfl, .refl r⟩
  · rw [if_neg haligned]
    rw [Reader.isAligned_iff] at haligned
    have hcount : (8 - r.pos % 8) % 8 = r.bitsLeftInByte := by
      rw [Reader.bitsLeftInByte]
      omega
    have hlength : (r.rest.take r.bitsLeftInByte).length = r.bitsLeftInByte := by
      rw [Reader.InBounds, Reader.size] at hr
      rw [List.length_take, Reader.length_rest, Reader.remaining, Reader.size,
        Reader.bitsLeftInByte]
      omega
    have hskip : Reads (skip (r.rest.take r.bitsLeftInByte).length)
        (.ofBits (r.rest.take r.bitsLeftInByte)) (r.rest.drop r.bitsLeftInByte) () := reads_skip _
    have hrun := hskip.run r hr
    rw [Code.bits_ofBits, List.take_append_drop, hlength] at hrun
    rw [hcount]
    exact hrun rfl

/-- The stop bit and fewer than eight zero bits end at a byte boundary, as the buffer does. -/
theorem reads_trailingBits (strict : Bool) {zeros : Nat} (hzeros : zeros < 8) :
    Reads (trailingBits strict) (.ofBits (Bits.stop zeros)) [] () := by
  refine ⟨Code.valid_ofBits _, fun r hr hrest => ?_⟩
  rw [Code.bits_ofBits, List.append_nil] at hrest
  rw [Code.bits_ofBits]
  have hstart : r.rest = (Code.flag true).bits ++ List.replicate zeros false := by
    rw [hrest, Code.bits_flag, Bits.stop, List.singleton_append]
  obtain ⟨s, hs, hmoves⟩ := (reads_flag true).run r hr hstart
  rw [Code.bits_flag] at hmoves
  have hsrest : s.rest = List.replicate zeros false := hmoves.rest_eq hrest
  have hcount : (8 - s.pos % 8) % 8 = zeros := by
    have hlength := congrArg List.length hsrest
    have hsbounds := hmoves.inBounds hr
    rw [Reader.length_rest, List.length_replicate, Reader.remaining, Reader.size] at hlength
    rw [Reader.InBounds, Reader.size] at hsbounds
    omega
  obtain ⟨t, ht, hmoves'⟩ := exists_align (hmoves.inBounds hr)
  rw [hcount, hsrest, List.take_replicate, Nat.min_self] at hmoves'
  refine ⟨t, ?_, hmoves.trans hmoves'⟩
  rw [trailingBits, bind_of_ok hs]
  simpa using ht

theorem reads_sliceTrailingBits (arithmetic strict : Bool) {zeros : Nat} (hzeros : zeros < 8) :
    Reads (sliceTrailingBits arithmetic strict) (.ofBits (Bits.stop zeros)) [] () := by
  refine ⟨Code.valid_ofBits _, fun r hr hrest => ?_⟩
  obtain ⟨s, hs, hmoves⟩ := (reads_trailingBits strict hzeros).run r hr hrest
  refine ⟨s, ?_, hmoves⟩
  have hremaining : s.remaining = 0 := by
    rw [← Reader.length_rest, hmoves.rest_eq hrest, List.length_nil]
  rw [sliceTrailingBits, bind_of_ok hs]
  cases arithmetic with
  | false => rfl
  | true =>
    rw [if_pos rfl, get_bind, hremaining]
    rfl

theorem byteSum_of_lt {n : Nat} (h : n < 255) : Code.byteSum n = .u 8 n := by
  simp [Code.byteSum, Code.u, Nat.div_eq_of_lt h, Nat.mod_eq_of_lt h]

theorem byteSum_add (n : Nat) : Code.byteSum (255 + n) = .u 8 255 ++ .byteSum n := by
  have hdiv : (255 + n) / 255 = n / 255 + 1 := by omega
  have hmod : (255 + n) % 255 = n % 255 := by omega
  rw [Code.byteSum, hdiv, hmod, List.replicate_succ]
  rfl

theorem reads_byteSumFrom {sum n count : Nat} (hsum : sum + n < 2 ^ 32) (hcount : n / 255 < count) :
    Reads (byteSumFrom sum count) (.byteSum n) tail (sum + n) := by
  induction count generalizing sum n with
  | zero => omega
  | succ count ih =>
    by_cases hlast : n < 255
    · rw [byteSum_of_lt hlast]
      apply (reads_u (by decide) (by omega)).last
      rw [if_neg (by omega), if_neg (by omega)]
    · obtain ⟨m, rfl⟩ : ∃ m, n = 255 + m := ⟨n - 255, by omega⟩
      rw [byteSum_add, ← Nat.add_assoc]
      refine (reads_u (by decide) (by decide)).bind ?_
      rw [if_neg (by omega), if_pos rfl]
      exact ih (by omega) (by omega)

theorem length_bits_byteSum (n : Nat) :
    (Code.byteSum n).bits.length = 8 * (n / 255 + 1) := by
  induction n using Nat.strongRecOn with
  | ind n ih =>
    by_cases hlast : n < 255
    · rw [byteSum_of_lt hlast, Code.bits_u, Bits.length_ofNat, Nat.div_eq_of_lt hlast]
    · obtain ⟨m, rfl⟩ : ∃ m, n = 255 + m := ⟨n - 255, by omega⟩
      have hrest := ih m (by omega)
      rw [byteSum_add, Code.bits_append rfl, List.length_append, hrest, Code.bits_u,
        Bits.length_ofNat]
      omega

theorem valid_byteSum (n : Nat) : (Code.byteSum n).Valid := by
  refine ⟨rfl, fun f hf => ?_⟩
  obtain ⟨-, rfl⟩ | rfl := by simpa [Code.byteSum] using hf
  · exact ⟨by decide, by decide⟩
  · exact ⟨by decide, by omega⟩

theorem reads_byteSum {n : Nat} (h : n < 2 ^ 32) : Reads byteSum (.byteSum n) tail n := by
  refine ⟨valid_byteSum n, fun r hr hrest => ?_⟩
  have hroom := Reader.length_le_remaining hrest
  rw [length_bits_byteSum] at hroom
  have hreads : Reads (byteSumFrom 0 (r.remaining / 8 + 1)) (.byteSum n) tail (0 + n) :=
    reads_byteSumFrom (by omega) (by omega)
  rw [Nat.zero_add] at hreads
  exact hreads.run r hr hrest

theorem accepts_byteSumFrom (sum count : Nat) :
    Accepts (byteSumFrom sum count) fun n c =>
      n < 2 ^ 32 ∧ ∃ m, n = sum + m ∧ c = .byteSum m := by
  induction count generalizing sum with
  | zero => exact Accepts.throw _
  | succ count ih =>
    refine (accepts_u (by decide)).bind ?_
    rintro b _ ⟨hb, rfl⟩
    refine Accepts.ite (fun _ => Accepts.throw _) fun hsum => Accepts.ite (fun hmore => ?_)
      fun hlast => ?_
    · subst hmore
      apply (ih (sum + 255)).mono
      rintro _ _ ⟨hn, m, rfl, rfl⟩
      exact ⟨hn, 255 + m, Nat.add_assoc _ _ _, (byteSum_add m).symm⟩
    · refine Accepts.pure ⟨Nat.not_le.mp hsum, b, rfl, ?_⟩
      rw [Code.append_empty, byteSum_of_lt (by omega)]

theorem accepts_byteSum : Accepts byteSum fun n c => n < 2 ^ 32 ∧ c = .byteSum n := by
  intro r n s hr h
  obtain ⟨c, hc, hmoves, hn, m, rfl, rfl⟩ := accepts_byteSumFrom 0 _ r n s hr h
  rw [Nat.zero_add] at hn ⊢
  exact ⟨_, hc, hmoves, hn, rfl⟩

end Parse

end AvcSyntax

import AvcSyntax.Proofs.Bits.Overrun

/-!
# What stands in the way of a code

An Exp-Golomb code announces its length by the zero bits in front of its first one bit. In front of
any reader there is a code that is all there, or 33 zero bits, or bits that end before either. In
the second case the reader stops behind these bits. In the third one it is left marked and at the
end, whether the bits ended among the zero bits or behind the first one bit.
-/
namespace AvcSyntax

namespace Bits

theorem exists_tail {bs : Bits} (h : true ∈ bs) :
    ∃ tail, bs = List.replicate (bs.idxOf true) false ++ true :: tail := by
  induction bs with
  | nil => cases h
  | cons b bs ih =>
    cases b with
    | true => exact ⟨bs, rfl⟩
    | false =>
      obtain ⟨tail, htail⟩ := ih (List.mem_of_ne_of_mem (by decide) h)
      refine ⟨tail, ?_⟩
      rw [List.idxOf_cons_ne bs (by decide), List.replicate_succ, List.cons_append, ← htail]

theorem eq_replicate_false {bs : Bits} (h : true ∉ bs) : bs = List.replicate bs.length false := by
  rw [List.eq_replicate_iff]
  refine ⟨rfl, ?_⟩
  intro b hb
  cases b with
  | true => exact absurd hb h
  | false => rfl

end Bits

namespace Parse

variable {r : Reader} {tail : Bits}

theorem flag_of_nil (h : r.rest = []) : flag r = .error .bitsExhausted r.exhausted := by
  have hnone : r.remaining = 0 := by rw [← Reader.length_rest, h, List.length_nil]
  have hu : u 1 r = .error .bitsExhausted r.exhausted := if_pos (by rw [hnone]; decide)
  exact bind_of_error hu

theorem flag_of_cons {b : Bool} (h : r.rest = b :: tail) :
    ∃ s, flag r = .ok b s ∧ r.Moves [b] s := by
  have hlength := congrArg List.length h
  rw [Reader.length_rest, List.length_cons] at hlength
  have hr : r.InBounds := Reader.inBounds_of_remaining (by omega)
  have hrest : r.rest = (Code.flag b).bits ++ tail := by
    rw [h, Code.bits_flag, List.singleton_append]
  obtain ⟨s, hs, hmoves⟩ := (reads_flag b).run r hr hrest
  rw [Code.bits_flag] at hmoves
  exact ⟨s, hs, hmoves⟩

theorem readZeros_of_end {zeros more : Nat} (hzeros : zeros ≤ more)
    (h : r.rest = List.replicate zeros false) :
    ∃ s, ExpGolomb.readZeros more r = .error .bitsExhausted s ∧ s.Spent := by
  induction more generalizing zeros r with
  | zero =>
    obtain rfl := Nat.le_zero.mp hzeros
    exact ⟨_, bind_of_error (flag_of_nil h), r.spent_exhausted⟩
  | succ more ih =>
    cases zeros with
    | zero => exact ⟨_, bind_of_error (flag_of_nil h), r.spent_exhausted⟩
    | succ zeros =>
      rw [List.replicate_succ] at h
      obtain ⟨s, hs, hmoves⟩ := flag_of_cons h
      obtain ⟨t, ht, hspent⟩ := ih (Nat.le_of_succ_le_succ hzeros) (hmoves.rest_eq h)
      exact ⟨t, (bind_of_ok hs).trans (bind_of_error ht), hspent⟩

theorem readZeros_of_blank {more : Nat} (h : r.rest = List.replicate (more + 1) false ++ tail) :
    ∃ s, ExpGolomb.readZeros more r = .error .golombPrefixTooLong s ∧
      r.Moves (List.replicate (more + 1) false) s := by
  rw [List.replicate_succ, List.cons_append] at h
  obtain ⟨s, hs, hmoves⟩ := flag_of_cons h
  induction more generalizing r s with
  | zero => exact ⟨s, bind_of_ok hs, hmoves⟩
  | succ more ih =>
    have hrest : s.rest = false :: (List.replicate more false ++ tail) := hmoves.rest_eq h
    obtain ⟨t, ht, hmoves'⟩ := flag_of_cons hrest
    obtain ⟨v, hv, hmoves''⟩ := ih hrest t ht hmoves'
    refine ⟨v, (bind_of_ok hs).trans (bind_of_error hv), ?_⟩
    rw [List.replicate_succ]
    exact hmoves.trans hmoves''

theorem readZeros_of_one {zeros more : Nat} (hzeros : zeros ≤ more)
    (h : r.rest = List.replicate zeros false ++ true :: tail) :
    ∃ s, ExpGolomb.readZeros more r = .ok zeros s ∧ s.rest = tail := by
  have hbits : r.rest = (Code.ofBits (List.replicate zeros false ++ [true])).bits ++ tail := by
    rw [h, Code.bits_ofBits, List.append_assoc, List.singleton_append]
  have hlength := congrArg List.length h
  rw [Reader.length_rest, List.length_append, List.length_cons] at hlength
  have hr : r.InBounds := Reader.inBounds_of_remaining (by omega)
  obtain ⟨s, hs, hmoves⟩ := (ExpGolomb.reads_readZeros hzeros).run r hr hbits
  exact ⟨s, hs, hmoves.rest_eq hbits⟩

/-- Behind the zero bits and the one bit as many bits have to follow as there were zero bits. -/
theorem ue_of_one {zeros : Nat} (hzeros : zeros ≤ ExpGolomb.maxZeros)
    (h : r.rest = List.replicate zeros false ++ true :: tail) :
    if zeros ≤ tail.length then ∃ n s, ue r = .ok n s
    else ∃ s, ue r = .error .bitsExhausted s ∧ s.Spent := by
  rw [ue_eq]
  obtain ⟨s, hs, hrest⟩ := readZeros_of_one hzeros h
  have hleft : s.remaining = tail.length := by rw [← Reader.length_rest, hrest]
  have hwidth : min zeros 64 = zeros := Nat.min_eq_left (hzeros.trans (by decide))
  split
  · have hlow : ∃ low t, u zeros s = .ok low t := ⟨_, _, if_neg (by omega)⟩
    obtain ⟨low, t, ht⟩ := hlow
    exact ⟨_, t, (bind_of_ok hs).trans (bind_of_ok ht)⟩
  · have hlow : u zeros s = .error .bitsExhausted s.exhausted := if_pos (by omega)
    exact ⟨_, (bind_of_ok hs).trans (bind_of_error hlow), s.spent_exhausted⟩

end Parse

namespace Reader

/-- Whether a code stands in front of the reader and is all there. -/
def CodeAhead (r : Reader) : Prop :=
  true ∈ r.rest ∧ r.rest.idxOf true ≤ 32 ∧ 2 * r.rest.idxOf true + 1 ≤ r.remaining

/-- Whether more zero bits stand in front of the reader than any code begins with. -/
def BlankAhead (r : Reader) : Prop := 33 ≤ r.remaining ∧ ∀ b ∈ r.rest.take 33, b = false

variable {r : Reader}

theorem blankAhead_iff : r.BlankAhead ↔ ∃ tail, r.rest = List.replicate 33 false ++ tail := by
  constructor
  · intro h
    have hlength : (r.rest.take 33).length = 33 := by
      rw [List.length_take, length_rest, Nat.min_eq_left h.1]
    have hzeros : r.rest.take 33 = List.replicate 33 false :=
      List.eq_replicate_iff.mpr ⟨hlength, h.2⟩
    exact ⟨r.rest.drop 33, by rw [← hzeros, List.take_append_drop]⟩
  · intro h
    obtain ⟨tail, htail⟩ := h
    have hlength := congrArg List.length htail
    rw [length_rest, List.length_append, List.length_replicate] at hlength
    refine ⟨by omega, ?_⟩
    intro b hb
    rw [htail, List.take_left' List.length_replicate] at hb
    exact List.eq_of_mem_replicate hb

theorem blankAhead_of_zeros {zeros : Nat} {tail : Bits} (hzeros : 33 ≤ zeros)
    (h : r.rest = List.replicate zeros false ++ tail) : r.BlankAhead := by
  have hsplit : zeros = 33 + (zeros - 33) := by omega
  rw [hsplit, List.replicate_add, List.append_assoc] at h
  exact blankAhead_iff.mpr ⟨_, h⟩

/-- The one bit of a code is among the first 33 bits. -/
theorem CodeAhead.not_blankAhead (h : r.CodeAhead) : ¬r.BlankAhead := by
  intro hblank
  obtain ⟨tail, htail⟩ := Bits.exists_tail h.1
  obtain ⟨more, hmore⟩ : ∃ more, 33 - r.rest.idxOf true = more + 1 :=
    ⟨32 - r.rest.idxOf true, by have := h.2.1; omega⟩
  have hmem : true ∈ r.rest.take 33 := by
    rw [htail, List.take_append, List.length_replicate, hmore, List.take_succ_cons]
    exact List.mem_append_right _ (List.mem_cons_self ..)
  exact absurd (hblank.2 true hmem) (by decide)

end Reader

namespace Parse

variable {r : Reader}

theorem ue_of_blank (h : r.BlankAhead) :
    ∃ s, ue r = .error .golombPrefixTooLong s ∧ s.pos = r.pos + 33 ∧ s.overrun = r.overrun := by
  obtain ⟨tail, htail⟩ := Reader.blankAhead_iff.mp h
  have hread : ∃ s, ExpGolomb.readZeros ExpGolomb.maxZeros r = .error .golombPrefixTooLong s ∧
      r.Moves (List.replicate 33 false) s := readZeros_of_blank htail
  obtain ⟨s, hs, hmoves⟩ := hread
  have hend := hmoves.pos
  rw [List.length_replicate] at hend
  exact ⟨s, bind_of_error hs, hend, hmoves.overrun⟩

/-- There is a code, or a fault that tells what stands there instead. -/
theorem ue_cases (r : Reader) :
    (r.CodeAhead ∧ ∃ n s, ue r = .ok n s) ∨
    (r.BlankAhead ∧ ∃ s, ue r = .error .golombPrefixTooLong s ∧ s.pos = r.pos + 33 ∧
      s.overrun = r.overrun) ∨
    (¬r.CodeAhead ∧ ¬r.BlankAhead ∧ ∃ s, ue r = .error .bitsExhausted s ∧ s.Spent) := by
  by_cases hblank : r.BlankAhead
  · exact .inr (.inl ⟨hblank, ue_of_blank hblank⟩)
  by_cases hone : true ∈ r.rest
  · obtain ⟨tail, htail⟩ := Bits.exists_tail hone
    have hlength := congrArg List.length htail
    rw [Reader.length_rest, List.length_append, List.length_replicate, List.length_cons] at hlength
    have hzeros : r.rest.idxOf true ≤ 32 := by
      by_contra hmany
      exact hblank (Reader.blankAhead_of_zeros (by omega) htail)
    have hread := ue_of_one hzeros htail
    split at hread
    · exact .inl ⟨⟨hone, hzeros, by omega⟩, hread⟩
    · refine .inr (.inr ⟨?_, hblank, hread⟩)
      intro hcode
      have hroom := hcode.2.2
      omega
  · have hrest := Bits.eq_replicate_false hone
    rw [Reader.length_rest] at hrest
    have hzeros : r.remaining ≤ ExpGolomb.maxZeros := by
      by_contra hmany
      unfold ExpGolomb.maxZeros at hmany
      rw [← List.append_nil (List.replicate _ _)] at hrest
      exact hblank (Reader.blankAhead_of_zeros (by omega) hrest)
    obtain ⟨s, hs, hspent⟩ := readZeros_of_end hzeros hrest
    exact .inr (.inr ⟨fun hcode => hone hcode.1, hblank, s, bind_of_error hs, hspent⟩)

/-- A code is read where it is all there. Where there are 33 zero bits instead, these are passed
and refused, and the mark stays as it was. Everywhere else the data ends. -/
theorem ue_outcome (r : Reader) :
    ((∃ n s, ue r = .ok n s) ↔
      true ∈ r.rest ∧ r.rest.idxOf true ≤ 32 ∧ 2 * r.rest.idxOf true + 1 ≤ r.remaining) ∧
    ((∃ e s, ue r = .error e s ∧ e.kind = .invalidValue ∧ s.pos = r.pos + 33 ∧
        s.overrun = r.overrun) ↔
      33 ≤ r.remaining ∧ ∀ b ∈ r.rest.take 33, b = false) ∧
    ((∃ e s, ue r = .error e s ∧ e.kind = .endOfData ∧ s.overrun = true ∧ s.remaining = 0) ↔
      ¬(true ∈ r.rest ∧ r.rest.idxOf true ≤ 32 ∧ 2 * r.rest.idxOf true + 1 ≤ r.remaining) ∧
        ¬(33 ≤ r.remaining ∧ ∀ b ∈ r.rest.take 33, b = false)) := by
  change (_ ↔ r.CodeAhead) ∧ (_ ↔ r.BlankAhead) ∧ (_ ↔ ¬r.CodeAhead ∧ ¬r.BlankAhead)
  rcases ue_cases r with ⟨hcode, n, s, hs⟩ | ⟨hblank, s, hs, hpos, hover⟩ |
    ⟨hcode, hblank, s, hs, hspent⟩
  · have hblank := hcode.not_blankAhead
    simp [hs, hcode, hblank]
  · have hcode : ¬r.CodeAhead := fun hcode => hcode.not_blankAhead hblank
    simp [hs, hcode, hblank, hpos, hover, Fault.kind]
  · simp [hs, hcode, hblank, hspent.overrun, hspent.remaining, Fault.kind]

/-- One bit less than the code has, and one zero bit more than a code may begin with. -/
example :
    let cut : Reader := { data := #[0x08] }
    let blank : Reader := { data := #[0, 0, 0, 0, 0x7f] }
    ue cut = .error .bitsExhausted { cut with pos := 8, overrun := true } ∧
      ue blank = .error .golombPrefixTooLong { blank with pos := 33 } := ⟨by cbv, by cbv⟩

end Parse

end AvcSyntax

import AvcSyntax.Proofs.Bits.GolombCode
import AvcSyntax.Proofs.Bits.Truncation

/-!
# How long the codes of a scaling list are

The lists that reading can yield are transferred by their codes. A list has one coding for each
number of repetitions that is left to the mark at its end. The mark takes as many bits as its
difference to zero, and a repetition that is spelled out takes one, so of all codings either the
one that stops as early as it can is shortest or the one that spells everything out.
-/
namespace AvcSyntax

variable {n : Nat}

namespace ScalingList

section Lengths

theorem wrappedDelta_self (v : UInt8) : wrappedDelta v v = 0 := by
  simp [wrappedDelta]

theorem deltas_append (stops : Bool) (last : UInt8) (coded more : List UInt8) :
    deltas stops last (coded ++ more) =
      deltas false last coded ++ deltas stops (coded.getLastD last) more := by
  induction coded generalizing last with
  | nil => rfl
  | cons v coded ih =>
    rw [List.cons_append, deltas, deltas, ih, List.cons_append, List.getLastD_cons]

theorem deltas_replicate (stops : Bool) (k : Nat) (v : UInt8) :
    deltas stops v (List.replicate k v) = List.replicate k 0 ++ deltas stops v [] := by
  induction k with
  | zero => rfl
  | succ k ih =>
    change wrappedDelta v v :: deltas stops v (List.replicate k v) = _
    rw [ih, wrappedDelta_self, List.replicate_succ, List.cons_append]

theorem signedSize_zero : ExpGolomb.signedSize 0 = 1 := by decide

theorem index_wrappedDelta_le (old new : UInt8) : ExpGolomb.index (wrappedDelta old new) ≤ 256 := by
  have hbounds := wrappedDelta_bounds old new
  rw [ExpGolomb.index]
  split
  · rw [saturate]
    omega
  · omega

theorem index_wrappedDelta_le_maxValue (old new : UInt8) :
    ExpGolomb.index (wrappedDelta old new) ≤ ExpGolomb.maxValue :=
  (index_wrappedDelta_le old new).trans (by decide)

theorem length_bits_deltas (stops : Bool) (last : UInt8) (vs : List UInt8) :
    (Code.concat ((deltas stops last vs).map Code.se)).bits.length =
      ((deltas stops last vs).map ExpGolomb.signedSize).sum := by
  have hcons (old new : UInt8) (ds : List Int)
      (h : (Code.concat (ds.map Code.se)).bits.length = (ds.map ExpGolomb.signedSize).sum) :
      (Code.concat ((wrappedDelta old new :: ds).map Code.se)).bits.length =
        ((wrappedDelta old new :: ds).map ExpGolomb.signedSize).sum := by
    have hindex := index_wrappedDelta_le_maxValue old new
    have hvalid : (Code.se (wrappedDelta old new)).Valid := ExpGolomb.valid_code hindex
    have hlength : (Code.se (wrappedDelta old new)).bits.length =
        ExpGolomb.signedSize (wrappedDelta old new) := ExpGolomb.length_bits_code hindex
    rw [List.map_cons, Code.concat, hvalid.bits_append, List.length_append, hlength, h,
      List.map_cons, List.sum_cons]
  induction vs generalizing last with
  | nil =>
    cases stops with
    | false => rfl
    | true => exact hcons last 0 [] rfl
  | cons v vs ih => exact hcons last v _ (ih v)

theorem signedSize_wrappedDelta_le (old new : UInt8) :
    ExpGolomb.signedSize (wrappedDelta old new) ≤ 17 := by
  have hindex := index_wrappedDelta_le old new
  rw [ExpGolomb.signedSize, ExpGolomb.size_eq (index_wrappedDelta_le_maxValue old new)]
  have hlog : Nat.log2 (ExpGolomb.index (wrappedDelta old new) + 1) < 9 :=
    (Nat.log2_lt (Nat.succ_ne_zero _)).mpr (by omega)
  omega

end Lengths

theorem getLastD_append_replicate (first : List UInt8) (v : UInt8) (k : Nat) (d : UInt8) :
    (first ++ [v] ++ List.replicate k v).getLastD d = v := by
  cases k with
  | zero => rw [List.replicate_zero, List.append_nil, List.getLastD_concat]
  | succ k => rw [List.replicate_succ', ← List.append_assoc, List.getLastD_concat]

/-- More repetitions of the last value do not change what is coded. -/
theorem withoutRepeats_append_replicate {vs : List UInt8} (h : vs ≠ []) (k : Nat) (d : UInt8) :
    withoutRepeats (vs ++ List.replicate k (vs.getLastD d)) = withoutRepeats vs := by
  obtain ⟨coded, v, rfl⟩ := (List.eq_nil_or_concat' vs).resolve_left h
  rw [List.getLastD_concat]
  cases k with
  | zero => rw [List.replicate_zero, List.append_nil]
  | succ k =>
    have hdrop : (coded ++ [v] ++ List.replicate (k + 1) v).reverse.dropWhile (· == v) =
        (coded ++ [v]).reverse.dropWhile (· == v) := by
      rw [List.reverse_append, List.reverse_replicate]
      exact List.dropWhile_append_of_pos fun a ha => by
        simpa using List.eq_of_mem_replicate ha
    have hlast : (coded ++ [v] ++ List.replicate (k + 1) v).getLast? = some v := by
      rw [List.replicate_succ', ← List.append_assoc, List.getLast?_concat]
    have hlast' : (coded ++ [v]).getLast? = some v := List.getLast?_concat
    simp only [withoutRepeats, hlast, hlast', hdrop]

namespace Coding

variable {l : ScalingList n}

/-- All codings of a list begin with the same values. They differ in how many of the repetitions
are spelled out behind them. -/
theorem exists_spelled (k : l.Coding) : ∃ v first j,
    withoutRepeats l.values = first ++ [v] ∧ k.coded = first ++ [v] ++ List.replicate j v ∧
      j + k.repeats = l.repeats := by
  -- The coded values have the same repetitions at their end, only fewer of them.
  have hsame : withoutRepeats l.values = withoutRepeats k.coded := by
    rw [k.values, withoutRepeats_append_replicate k.ne_nil]
  obtain ⟨v, first, j, hfirst, hcoded⟩ := exists_repeats k.ne_nil
  refine ⟨v, first, j, hsame.trans hfirst, hcoded, ?_⟩
  rw [ScalingList.repeats, hsame, hfirst, k.values, hcoded]
  simp only [List.length_append, List.length_replicate]
  omega

end Coding

/-- The number of bits of the values in front of the repetitions. -/
def valuesSize (l : ScalingList n) : Nat :=
  ((deltas false 8 (withoutRepeats l.values)).map ExpGolomb.signedSize).sum

/-- The number of bits of the mark that ends the list. -/
def stopSize (l : ScalingList n) : Nat :=
  ExpGolomb.signedSize (wrappedDelta (l.values.getLastD 8) 0)

namespace Coding

variable {l : ScalingList n}

theorem repeats_le (k : l.Coding) : k.repeats ≤ l.repeats := by
  obtain ⟨-, -, j, -, -, hj⟩ := k.exists_spelled
  omega

/-- A repetition that is spelled out takes one bit. -/
theorem length_code (k : l.Coding) : k.code.bits.length =
    l.valuesSize + (l.repeats - k.repeats) + if 0 < k.repeats then l.stopSize else 0 := by
  obtain ⟨v, first, j, hfirst, hcoded, hj⟩ := k.exists_spelled
  have hlast : l.values.getLastD 8 = v := by
    rw [k.values, hcoded, getLastD_append_replicate, List.append_assoc _ (List.replicate j v),
      List.replicate_append_replicate, getLastD_append_replicate]
  have hspelled : l.repeats - k.repeats = j := by omega
  rw [Coding.code, length_bits_deltas, hcoded, deltas_append, List.getLastD_concat,
    deltas_replicate, List.map_append, List.map_append, List.sum_append, List.sum_append,
    List.map_replicate, List.sum_replicate, signedSize_zero, valuesSize, hfirst, hspelled, stopSize,
    hlast]
  by_cases hrepeats : 0 < k.repeats
  · simp [deltas, hrepeats, Nat.add_assoc]
  · simp [deltas, hrepeats]

theorem exists_parse {l : ScalingList (n + 1)} (k : l.Coding) :
    ∃ r s, parse (n + 1) r = .ok l s ∧ s.pos = r.pos + k.code.bits.length := by
  obtain ⟨r, tail, hr, hrest⟩ := Reader.exists_rest k.code.bits
  obtain ⟨s, hs, hmoves⟩ := k.reads_code.run r hr hrest
  exact ⟨r, s, hs, hmoves.pos⟩

end Coding

theorem inBounds_of_parse {l : ScalingList (n + 1)} {r s : Reader}
    (h : parse (n + 1) r = .ok l s) : r.InBounds := by
  obtain ⟨first, t, hfirst, -⟩ := bind_eq_ok.mp h
  obtain ⟨delta, u, hdelta, -⟩ := bind_eq_ok.mp hfirst
  obtain ⟨value, v, hvalue, -⟩ := bind_eq_ok.mp hdelta
  exact Parse.inBounds_of_se hvalue

section Transfers

theorem Coding.bits_code_ne_nil {l : ScalingList n} (k : l.Coding) : k.code.bits ≠ [] := by
  obtain ⟨first, more, hmore⟩ := List.exists_cons_of_ne_nil k.ne_nil
  rw [← List.length_pos_iff, Coding.code, length_bits_deltas, hmore, deltas, List.map_cons,
    List.sum_cons]
  exact Nat.add_pos_left (ExpGolomb.size_pos _) _

theorem WellFormed.bits_code_ne_nil {l : ScalingList (n + 1)} (h : l.WellFormed) :
    l.code.bits ≠ [] := by
  cases hdefault : l.useDefault with
  | true =>
    rw [code, if_pos hdefault]
    decide
  | false =>
    rw [code_eq h.nonzero hdefault]
    exact Coding.bits_code_ne_nil _

/-- The lists that are read from any bits are those without zeros, with eights throughout if they
stand for the default list. All of them are transferred, and they are refused for lack of room
only. -/
theorem wellFormed_transfers (l : ScalingList (n + 1)) :
    (l.WellFormed ↔ ∃ r s, parse (n + 1) r = .ok l s) ∧
    (l.WellFormed → Transfers l.code.write (parse (n + 1)) l.code.bits.length l ∧
      Faults (·.kind = .bufferFull) l.code.write) := by
  refine ⟨⟨fun h => ?_, ?_⟩, fun h => ⟨?_, ?_⟩⟩
  · obtain ⟨r, tail, hr, hrest⟩ := Reader.exists_rest l.code.bits
    obtain ⟨s, hs, -⟩ := (reads_code h).run r hr hrest
    exact ⟨r, s, hs⟩
  · rintro ⟨r, s, h⟩
    obtain ⟨_, -, -, hl⟩ := accepts_parse r l s (inBounds_of_parse h) h
    exact hl
  · exact Reads.transfers (fun _ => reads_code h) h.bits_code_ne_nil
  · have hreads : Reads (parse (n + 1)) l.code [] l := reads_code h
    exact hreads.valid.faults_write

/-- Sixteen eights that do not stand for the default list, each spelled out, are written again in
ten bits. -/
theorem wellFormed_transfers_eights :
    let l := flat 16 8 false
    let r : Reader := { data := #[0xff, 0xff, 0xff], pos := 3 }
    parse 16 r = .ok l { r with pos := 19 } ∧ l.WellFormed ∧
      Transfers l.code.write (parse 16) 10 l ∧ Faults (·.kind = .bufferFull) l.code.write := by
  intro l r
  have hread : parse 16 r = .ok l { r with pos := 19 } := by cbv
  obtain ⟨hyields, htransfers⟩ := wellFormed_transfers l
  have hl := hyields.mpr ⟨r, _, hread⟩
  exact ⟨hread, hl, htransfers hl⟩

end Transfers

section Shortest

/-- The code that spells out all repetitions. -/
def spelledOut (l : ScalingList n) : Code := .concat ((deltas false 8 l.values).map Code.se)

/-- The coding without a mark at its end. -/
def inFull (l : ScalingList (n + 1)) (hnonzero : 0 ∉ l.values)
    (hdefault : l.useDefault = false) : l.Coding where
  coded := l.values
  repeats := 0
  ne_nil := List.ne_nil_of_length_eq_add_one l.length_values
  nonzero := hnonzero
  values := (List.append_nil _).symm
  useDefault := hdefault

variable {l : ScalingList (n + 1)}

theorem code_inFull (hnonzero : 0 ∉ l.values) (hdefault : l.useDefault = false) :
    (l.inFull hnonzero hdefault).code = l.spelledOut := rfl

theorem length_code (hnonzero : 0 ∉ l.values) (hdefault : l.useDefault = false) :
    l.code.bits.length = l.valuesSize + if 0 < l.repeats then l.stopSize else 0 := by
  rw [code_eq hnonzero hdefault, Coding.length_code, shortened, Nat.sub_self, Nat.add_zero]

theorem length_spelledOut (hnonzero : 0 ∉ l.values) (hdefault : l.useDefault = false) :
    l.spelledOut.bits.length = l.valuesSize + l.repeats := by
  rw [← code_inFull hnonzero hdefault, Coding.length_code, inFull, if_neg (Nat.lt_irrefl 0),
    Nat.sub_zero, Nat.add_zero]

/-- Some repetitions are left to the mark, and all others take one bit. -/
theorem size_of_parse (hdefault : l.useDefault = false) {r s : Reader}
    (h : parse (n + 1) r = .ok l s) : ∃ k ≤ l.repeats,
      s.pos = r.pos + (l.valuesSize + (l.repeats - k) + if 0 < k then l.stopSize else 0) := by
  obtain ⟨c, -, hmoves, hcodes⟩ := accepts_codings r l s (inBounds_of_parse h) h
  rcases hcodes with ⟨rfl, -⟩ | ⟨k, rfl⟩
  · cases hdefault
  · exact ⟨k.repeats, k.repeats_le, by rw [hmoves.pos, k.length_code]⟩

/-- Of all codes of a list either the one that stops as early as it can is shortest or the one that
spells everything out. It is the first if no value is repeated at the end, or if the mark takes no
more bits than there are repetitions, and else it takes at most 16 bits too many. -/
theorem shortest_code (hnonzero : 0 ∉ l.values) (hdefault : l.useDefault = false) :
    (∃ r s, parse (n + 1) r = .ok l s ∧ s.pos = r.pos + l.code.bits.length) ∧
    (∃ r s, parse (n + 1) r = .ok l s ∧ s.pos = r.pos + l.spelledOut.bits.length) ∧
    (∀ r s, parse (n + 1) r = .ok l s →
      r.pos + min l.code.bits.length l.spelledOut.bits.length ≤ s.pos ∧
      r.pos + l.code.bits.length ≤ s.pos + 16) ∧
    ((∀ r s, parse (n + 1) r = .ok l s → r.pos + l.code.bits.length ≤ s.pos) ↔
      l.repeats = 0 ∨ l.stopSize ≤ l.repeats) := by
  have hearly := length_code hnonzero hdefault
  have hfull := length_spelledOut hnonzero hdefault
  have hstop : l.stopSize ≤ 17 := signedSize_wrappedDelta_le _ _
  have hparse : ∃ r s, parse (n + 1) r = .ok l s ∧ s.pos = r.pos + l.spelledOut.bits.length := by
    rw [← code_inFull hnonzero hdefault]
    exact Coding.exists_parse _
  refine ⟨?_, hparse, ?_, ?_, ?_⟩
  · rw [code_eq hnonzero hdefault]
    exact Coding.exists_parse _
  · intro r s h
    obtain ⟨k, hk, hpos⟩ := size_of_parse hdefault h
    split at hearly <;> split at hpos <;> omega
  · intro hshortest
    obtain ⟨r, s, h, hpos⟩ := hparse
    have hle := hshortest r s h
    split at hearly <;> omega
  · intro hrepeats r s h
    obtain ⟨k, hk, hpos⟩ := size_of_parse hdefault h
    split at hearly <;> split at hpos <;> omega

/-- One repetition at the end is not worth a mark of nine bits. -/
theorem shortest_code_nines :
    let l : ScalingList 16 := { values := List.replicate 14 8 ++ [9, 9], length_values := rfl }
    0 ∉ l.values ∧ l.useDefault = false ∧ l.code.bits.length = 26 ∧
      (∃ r s, parse 16 r = .ok l s ∧ s.pos = r.pos + 18) ∧
      ¬∀ r s, parse 16 r = .ok l s → r.pos + l.code.bits.length ≤ s.pos := by
  intro l
  have hnonzero : 0 ∉ l.values := by decide
  have hspelled : l.spelledOut.bits.length = 18 := by decide
  obtain ⟨-, hfull, -, hshortest⟩ := shortest_code (l := l) hnonzero rfl
  rw [hspelled] at hfull
  rw [hshortest]
  exact ⟨hnonzero, rfl, by decide, hfull, by decide⟩

end Shortest

end ScalingList

end AvcSyntax

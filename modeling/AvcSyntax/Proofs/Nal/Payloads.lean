import AvcSyntax.Proofs.Nal.ByteStream
import AvcSyntax.Proofs.Nal.Escaping

/-!
# Payloads in a byte stream

Payloads are escaped, joined to a stream, found in it again and unescaped. Escaping puts a byte 3
behind every two of the zero bytes at the end of a payload. If their number is even, the escaped
form ends in that byte; if it is odd, in a zero byte, which nothing in the stream tells from those
in front of the next start code.
-/
namespace AvcSyntax

def trailingZeros (bs : List UInt8) : Nat := (bs.rtakeWhile (· == 0)).length

theorem dropTrailingZeros_append (bs : List UInt8) :
    dropTrailingZeros bs ++ List.replicate (trailingZeros bs) 0 = bs := by
  have hzeros : bs.rtakeWhile (· == 0) = List.replicate (trailingZeros bs) 0 :=
    List.eq_replicate_of_mem fun b hb => by simpa using List.mem_rtakeWhile_imp hb
  rw [← hzeros]
  exact List.rdropWhile_append_rtakeWhile

theorem trailingZeros_append_zeros {bs : List UInt8} (h : bs.getLast? ≠ some 0) (zeros : Nat) :
    trailingZeros (bs ++ List.replicate zeros 0) = zeros := by
  have hsplit := dropTrailingZeros_append (bs ++ List.replicate zeros 0)
  rw [dropTrailingZeros_append_zeros h] at hsplit
  have hlength := congrArg List.length (List.append_cancel_left hsplit)
  rwa [List.length_replicate, List.length_replicate] at hlength

section Parity

theorem escaped_zeros (zeros : Nat) :
    escaped 0 (List.replicate (zeros + 2) 0) =
      [0, 0, 3] ++ escaped 0 (List.replicate zeros 0) := by
  have hbehind : escaped 2 (List.replicate zeros 0) = 3 :: escaped 0 (List.replicate zeros 0) := by
    cases zeros with
    | zero => rfl
    | succ zeros => exact escaped_behind_two (by decide) _
  rw [List.replicate_succ, List.replicate_succ, escaped, if_neg (by simp), if_pos rfl, escaped,
    if_neg (by simp), if_pos rfl, hbehind]
  rfl

theorem getLast?_escaped_zeros (zeros : Nat) :
    (escaped 0 (List.replicate zeros 0)).getLast? = some 0 ↔ Odd zeros := by
  induction zeros using Nat.twoStepInduction with
  | zero => simp [escaped]
  | one => simp [escaped]
  | more zeros ih _ =>
    have hodd : Odd (zeros + 2) ↔ Odd zeros := by grind
    rw [escaped_zeros, hodd, ← ih, List.getLast?_append]
    cases (escaped 0 (List.replicate zeros 0)).getLast? <;> simp

/-- The escaped form ends in a zero byte if the number of those at the end is odd. -/
theorem getLast?_escaped_eq_zero (bs : List UInt8) :
    (escaped 0 bs).getLast? = some 0 ↔ Odd (trailingZeros bs) := by
  rw [← getLast?_escaped_zeros]
  have hlast := getLast?_dropTrailingZeros bs
  have hsplit := dropTrailingZeros_append bs
  cases hfront : (dropTrailingZeros bs).getLast? with
  | none =>
    rw [List.getLast?_eq_none_iff.mp hfront, List.nil_append] at hsplit
    rw [hsplit]
  | some b =>
    have hb : b ≠ 0 := fun hb => hlast (hb ▸ hfront)
    obtain ⟨front, hb', hescaped⟩ := exists_escaped_append hb hfront 0
    rw [← hsplit, hescaped, hsplit, List.getLast?_append, hb']
    cases (escaped 0 (List.replicate (trailingZeros bs) 0)).getLast? <;> simp [hb]

end Parity

/-- A payload whose escaped form can be told from what stands around it. -/
theorem framable_escaped_iff (payload : List UInt8) :
    Framable (escaped 0 payload) ↔ payload ≠ [] ∧ Even (trailingZeros payload) := by
  rw [← Nat.not_odd_iff_even, ← getLast?_escaped_eq_zero]
  constructor
  · intro h
    refine ⟨?_, h.getLast?_ne⟩
    rintro rfl
    exact h.ne_nil rfl
  · rintro ⟨hne, hlast⟩
    refine .of_last ?_ hlast fun x hx =>
      not_infix_escaped (Nat.zero_le 2) (UInt8.le_trans hx (by decide)) payload
    obtain ⟨b, bs, rfl⟩ := List.exists_cons_of_ne_nil hne
    rw [escaped, if_neg (by simp)]
    exact List.cons_ne_nil _ _

/-- Framable bytes are the escaped form of what they stand for. -/
theorem Framable.eq_escaped {u payload : List UInt8} (hu : Framable u)
    (h : unescape u = .ok payload) : escaped 0 payload = u := by
  have hend : ¬[0, 0] <:+ u := by
    rintro ⟨front, rfl⟩
    exact hu.getLast?_ne (by simp)
  exact Except.ok.inj ((escape_eq payload).symm.trans (escape_of_unescape h hend))

/-- Every list of payloads can be escaped. From the stream of the escaped forms the payloads come
back if and only if none is empty and each ends in an even number of zero bytes. That number is
even if zero words of two bytes follow a byte that is not zero. -/
theorem unescape_unitsOf_iff :
    (∀ payloads : List (List UInt8), ∃ units, payloads.mapM escape = .ok units ∧
      ((unitsOf (joinUnits units)).mapM unescape = .ok payloads ↔
        ∀ payload ∈ payloads, payload ≠ [] ∧ Even (trailingZeros payload))) ∧
    ∀ (bs : List UInt8) (words : Nat), bs.getLast? ≠ some 0 →
      Even (trailingZeros (bs ++ List.replicate (2 * words) 0)) := by
  refine ⟨fun payloads => ⟨payloads.map (escaped 0), ?_, ?_⟩, fun bs words hlast => ?_⟩
  · exact mapM_eq_ok.mpr (by simp [List.forall₂_map_right_iff, List.forall₂_same, escape_eq])
  · simp only [← framable_escaped_iff]
    constructor
    · intro h payload hpayload
      obtain ⟨u, hu, hread⟩ := exists_of_mapM h hpayload
      have hframable := framable_of_mem_unitsOf hu
      rwa [hframable.eq_escaped hread]
    · intro h
      rw [unitsOf_joinUnits (by simpa using h)]
      refine mapM_eq_ok.mpr ?_
      simp [List.forall₂_map_left_iff, List.forall₂_same, unescape_of_escape (escape_eq _)]
  · rw [trailingZeros_append_zeros hlast]
    exact even_two_mul words

/-- Two zero words at the end, and an odd number of zero bytes in front of another byte. At the
end a single zero byte is lost. -/
theorem unescape_unitsOf_iff_words :
    ([101, 128] : List UInt8).getLast? ≠ some 0 ∧
      Even (trailingZeros ([101, 128] ++ List.replicate (2 * 2) 0)) ∧
      (∃ units, [[101, 128, 0, 0, 0, 0], [0, 0, 0, 9]].mapM escape = .ok units ∧
        (unitsOf (joinUnits units)).mapM unescape = .ok [[101, 128, 0, 0, 0, 0], [0, 0, 0, 9]]) ∧
      ∃ units, [[101, 128, 0], [9]].mapM escape = .ok units ∧
        (unitsOf (joinUnits units)).mapM unescape ≠ .ok [[101, 128, 0], [9]] := by
  have hlast : ([101, 128] : List UInt8).getLast? ≠ some 0 := by decide
  have hwords := unescape_unitsOf_iff.2 [101, 128] 2 hlast
  obtain ⟨units, hunits, hback⟩ :=
    unescape_unitsOf_iff.1 [[101, 128, 0, 0, 0, 0], [0, 0, 0, 9]]
  obtain ⟨lossy, hlossy, hlost⟩ := unescape_unitsOf_iff.1 [[101, 128, 0], [9]]
  refine ⟨hlast, hwords, ⟨units, hunits, hback.mpr ?_⟩, lossy, hlossy, fun h => ?_⟩
  · simpa using ⟨hwords, (by decide : Even (trailingZeros [0, 0, 0, 9]))⟩
  · exact absurd (hlost.mp h [101, 128, 0] (by simp)).2 (by decide)

end AvcSyntax

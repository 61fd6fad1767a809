import AvcSyntax.Nal.Escaping
import Mathlib

/-!
# Escaping and unescaping

`escaped` and `stripped` are the two transformations without the outputs that they fill. Every
payload has an escaped form, and the payload is what it stands for. In an escaped form no two zero
bytes stand before a byte that an escape is there to keep away, nor at the end. Conversely, bytes
that stand for a payload and do not end in two zero bytes are its escaped form.
-/
namespace AvcSyntax

theorem toList_putBytes {data : Array UInt8} {index : Nat} {bs : List UInt8}
    (h : index + bs.length ≤ data.size) :
    (putBytes data index bs).toList =
      data.toList.take index ++ (bs ++ data.toList.drop (index + bs.length)) := by
  induction bs generalizing data index with
  | nil => exact (List.take_append_drop index data.toList).symm
  | cons b bs ih =>
    rw [List.length_cons] at h
    have hindex : index < data.toList.length := by
      rw [Array.length_toList]
      omega
    have hfront : (data.toList.set index b).take (index + 1) = data.toList.take index ++ [b] := by
      rw [List.take_succ_eq_append_getElem (by rwa [List.length_set]), List.getElem_set_self,
        List.take_set_of_le (Nat.le_refl _)]
    rw [putBytes, ih (by rw [Array.size_setIfInBounds]; omega), Array.toList_setIfInBounds, hfront,
      List.drop_set_of_lt (by omega), List.append_assoc, List.singleton_append, List.length_cons,
      Nat.add_assoc, Nat.add_comm 1, List.cons_append]

namespace Output

def pushAll : List UInt8 → Output → Except NalError Output
  | [], o => .ok o
  | b :: bs, o => do pushAll bs (← o.push b)

@[simp] theorem written_zeroed (size : Nat) : (zeroed size).written = [] := by
  simp [written, zeroed]

theorem push_of_room {o : Output} (h : o.filled < o.data.size) (b : UInt8) :
    ∃ v, o.push b = .ok v ∧ v.filled = o.filled + 1 ∧ v.data.size = o.data.size :=
  ⟨_, if_pos h, rfl, Array.size_setIfInBounds⟩

theorem pushAll_eq {o : Output} (h : o.filled ≤ o.data.size) (bs : List UInt8) :
    o.pushAll bs =
      if o.filled + bs.length ≤ o.data.size then
        .ok { data := putBytes o.data o.filled bs, filled := o.filled + bs.length }
      else .error (.bufferTooSmall o.data.size) := by
  induction bs generalizing o with
  | nil => exact (if_pos h).symm
  | cons b bs ih =>
    rw [pushAll, push]
    by_cases hroom : o.filled < o.data.size
    · have hfilled : o.filled + 1 ≤ (o.data.setIfInBounds o.filled b).size := by
        rw [Array.size_setIfInBounds]
        omega
      rw [if_pos hroom]
      apply (ih hfilled).trans
      rw [Array.size_setIfInBounds, List.length_cons, Nat.add_assoc, Nat.add_comm 1, putBytes]
    · have hnone : ¬o.filled + (b :: bs).length ≤ o.data.size := by
        rw [List.length_cons]
        omega
      rw [if_neg hroom, if_neg hnone]
      rfl

theorem pushAll_of_room {o : Output} {bs : List UInt8} (h : o.filled + bs.length ≤ o.data.size) :
    ∃ v, pushAll bs o = .ok v ∧ v.written = o.written ++ bs := by
  have hfilled : o.filled ≤ o.data.size := by omega
  have hlength : (o.data.toList.take o.filled).length = o.filled := by
    rwa [List.length_take, Array.length_toList, Nat.min_eq_left]
  refine ⟨_, (pushAll_eq hfilled bs).trans (if_pos h), ?_⟩
  simp only [written, Array.toList_extract, List.extract_eq_take_drop, List.drop_zero,
    Nat.sub_zero, toList_putBytes h]
  rw [← List.append_assoc, List.take_left' (by rw [List.length_append, hlength])]

end Output

/-- The escaped form of bytes that follow `zeros` zero bytes. -/
def escaped : (zeros : Nat) → List UInt8 → List UInt8
  | zeros, [] => if 2 ≤ zeros then [3] else []
  | zeros, b :: bs =>
    if zeros = 2 ∧ b ≤ 3 then 3 :: b :: escaped (if b = 0 then 1 else 0) bs
    else b :: escaped (if b = 0 then zeros + 1 else 0) bs

/-- What escaped bytes from `offset` on stand for, given that they follow `zeros` zero bytes. -/
def stripped : (zeros offset : Nat) → List UInt8 → Except NalError (List UInt8)
  | _, _, [] => .ok []
  | zeros, offset, b :: bs =>
    if zeros = 2 ∧ b < 3 then .error (.illegalEscape offset)
    else if zeros = 2 ∧ b = 3 then
      match bs.head? with
      | none => .ok []
      | some next =>
        if 3 < next then .error (.illegalEscape (offset + 1)) else stripped 0 (offset + 1) bs
    else (b :: ·) <$> stripped (if b = 0 then zeros + 1 else 0) (offset + 1) bs

theorem map_eq_ok {ε α β : Type} {f : α → β} {x : Except ε α} {b : β} :
    f <$> x = .ok b ↔ ∃ a, x = .ok a ∧ f a = b := by
  cases x with
  | error e => simp [Functor.map, Except.map]
  | ok a => simp [Functor.map, Except.map]

theorem mapM_eq_ok {ε α β : Type} {f : α → Except ε β} {xs : List α} {ys : List β} :
    xs.mapM f = .ok ys ↔ List.Forall₂ (fun x y => f x = .ok y) xs ys := by
  induction xs generalizing ys with
  | nil =>
    rw [List.forall₂_nil_left_iff]
    exact ⟨fun h => (Except.ok.inj h).symm, fun h => h ▸ rfl⟩
  | cons x xs ih =>
    rw [List.mapM_cons, List.forall₂_cons_left_iff]
    simp only [← ih]
    cases hx : f x with
    | error e => simp [bind, Except.bind]
    | ok y =>
      cases hxs : xs.mapM f with
      | error e => simp [bind, Except.bind]
      | ok rest => simp [bind, Except.bind, pure, Except.pure, eq_comm]

theorem exists_of_mapM {ε α β : Type} {f : α → Except ε β} {xs : List α} {ys : List β}
    (h : xs.mapM f = .ok ys) {y : β} (hy : y ∈ ys) : ∃ x ∈ xs, f x = .ok y := by
  have hall := mapM_eq_ok.mp h
  obtain ⟨i, hi, rfl⟩ := List.getElem_of_mem hy
  have hi' : i < xs.length := hall.length_eq ▸ hi
  exact ⟨xs[i], List.getElem_mem hi', hall.get hi' hi⟩

section Steps

theorem plain_of_not_le {zeros : Nat} {b : UInt8} (h : ¬(zeros = 2 ∧ b ≤ 3)) :
    ¬(zeros = 2 ∧ b < 3) ∧ ¬(zeros = 2 ∧ b = 3) :=
  ⟨fun hlt => h ⟨hlt.1, UInt8.le_of_lt hlt.2⟩, fun heq => h ⟨heq.1, heq.2 ▸ UInt8.le_refl 3⟩⟩

theorem stripped_cons {zeros : Nat} {b : UInt8} (h : ¬(zeros = 2 ∧ b ≤ 3)) (offset : Nat)
    (bs : List UInt8) :
    stripped zeros offset (b :: bs) =
      (b :: ·) <$> stripped (if b = 0 then zeros + 1 else 0) (offset + 1) bs := by
  obtain ⟨hless, hthree⟩ := plain_of_not_le h
  rw [stripped, if_neg hless, if_neg hthree]

/-- Behind two zero bytes an escape is left out, unless a byte that needs none follows. -/
theorem stripped_three {bs : List UInt8} (hnext : ∀ next, bs.head? = some next → next ≤ 3)
    (offset : Nat) : stripped 2 offset (3 :: bs) = stripped 0 (offset + 1) bs := by
  rw [stripped, if_neg (by decide), if_pos ⟨rfl, rfl⟩]
  cases bs with
  | nil => rfl
  | cons next bs =>
    rw [List.head?_cons]
    exact if_neg (UInt8.not_lt.mpr (hnext next rfl))

/-- Behind two zero bytes an escape in front of a byte that needs none is refused. -/
theorem stripped_three_above {bs : List UInt8} {next : UInt8} (hhead : bs.head? = some next)
    (habove : 3 < next) (offset : Nat) :
    stripped 2 offset (3 :: bs) = .error (.illegalEscape (offset + 1)) := by
  rw [stripped, if_neg (by decide), if_pos ⟨rfl, rfl⟩]
  simp only [hhead, if_pos habove]

/-- What is accepted begins with an escape, which is left out, or with a byte that is kept. -/
theorem stripped_cons_eq_ok {zeros offset : Nat} {b : UInt8} {bs found : List UInt8}
    (h : stripped zeros offset (b :: bs) = .ok found) :
    (zeros = 2 ∧ b = 3 ∧ (∀ next, bs.head? = some next → next ≤ 3) ∧
      stripped 0 (offset + 1) bs = .ok found) ∨
    (¬(zeros = 2 ∧ b ≤ 3) ∧ ∃ rest,
      stripped (if b = 0 then zeros + 1 else 0) (offset + 1) bs = .ok rest ∧ b :: rest = found) := by
  by_cases hplain : zeros = 2 ∧ b ≤ 3
  case neg =>
    rw [stripped_cons hplain] at h
    exact .inr ⟨hplain, map_eq_ok.mp h⟩
  case pos =>
    obtain ⟨rfl, hb⟩ := hplain
    rcases UInt8.lt_or_eq_of_le hb with hcode | rfl
    · rw [stripped, if_pos ⟨rfl, hcode⟩] at h
      cases h
    · by_cases hnext : ∀ next, bs.head? = some next → next ≤ 3
      · rw [stripped_three hnext] at h
        exact .inl ⟨rfl, rfl, hnext, h⟩
      · push Not at hnext
        obtain ⟨next, hhead, habove⟩ := hnext
        rw [stripped_three_above hhead (UInt8.not_le.mp habove)] at h
        cases h

end Steps

section Outputs

theorem escapeFrom_eq (zeros : Nat) (bs : List UInt8) (o : Output) :
    escapeFrom zeros bs o = o.pushAll (escaped zeros bs) := by
  induction bs generalizing zeros o with
  | nil =>
    rw [escapeFrom, escaped]
    split
    · unfold Output.pushAll
      cases o.push 3 <;> rfl
    · rfl
  | cons b bs ih =>
    rw [escapeFrom, escaped]
    split
    · simp only [ih, Output.pushAll]
    · simp only [ih, Output.pushAll]

/-- At most one byte is put in for every two zero bytes. -/
theorem length_escaped_le (zeros : Nat) (bs : List UInt8) :
    (escaped zeros bs).length ≤ bs.length + (bs.length + zeros) / 2 := by
  induction bs generalizing zeros with
  | nil =>
    unfold escaped
    split
    · rw [List.length_singleton, List.length_nil]
      omega
    · exact Nat.zero_le _
  | cons b bs ih =>
    unfold escaped
    split
    · have hrest := ih (if b = 0 then 1 else 0)
      have hnext : (if b = 0 then 1 else 0) ≤ 1 := by split <;> omega
      simp only [List.length_cons]
      omega
    · have hrest := ih (if b = 0 then zeros + 1 else 0)
      have hnext : (if b = 0 then zeros + 1 else 0) ≤ zeros + 1 := by split <;> omega
      simp only [List.length_cons]
      omega

theorem escape_eq (payload : List UInt8) : escape payload = .ok (escaped 0 payload) := by
  have hlength := length_escaped_le 0 payload
  have hroom : (Output.zeroed (maxEscapedSize payload.length)).filled +
      (escaped 0 payload).length ≤
      (Output.zeroed (maxEscapedSize payload.length)).data.size := by
    simp only [Output.zeroed, maxEscapedSize, Array.size_replicate]
    omega
  obtain ⟨v, hv, hwritten⟩ := Output.pushAll_of_room hroom
  rw [Output.written_zeroed, List.nil_append] at hwritten
  rw [escape, escapeInto, escapeFrom_eq, hv]
  exact congrArg Except.ok hwritten

theorem unescapeFrom_eq (zeros offset : Nat) {bs : List UInt8} {o : Output}
    (h : o.filled + bs.length ≤ o.data.size) :
    unescapeFrom zeros offset bs o = (stripped zeros offset bs).bind (o.pushAll ·) := by
  induction bs generalizing zeros offset o with
  | nil => rfl
  | cons b bs ih =>
    rw [List.length_cons] at h
    rw [unescapeFrom, stripped]
    split
    · rfl
    · split
      · cases hnext : bs.head? with
        | none => rfl
        | some next =>
          simp only
          split
          · rfl
          · exact ih 0 (offset + 1) (by omega)
      · obtain ⟨v, hv, hfilled, hsize⟩ := Output.push_of_room (o := o) (by omega) b
        have hrest : unescapeFrom (if b = 0 then zeros + 1 else 0) (offset + 1) bs v = _ :=
          ih _ _ (by omega)
        rw [hv]
        apply Eq.trans hrest
        cases stripped (if b = 0 then zeros + 1 else 0) (offset + 1) bs with
        | error e => rfl
        | ok found =>
          simp only [Functor.map, Except.map, Except.bind, Output.pushAll, hv]
          rfl

theorem length_stripped_le {zeros offset : Nat} {bs found : List UInt8}
    (h : stripped zeros offset bs = .ok found) : found.length ≤ bs.length := by
  induction bs generalizing zeros offset found with
  | nil =>
    cases h
    exact Nat.le_refl 0
  | cons b bs ih =>
    rw [List.length_cons]
    rcases stripped_cons_eq_ok h with ⟨-, -, -, hrest⟩ | ⟨-, rest, hrest, rfl⟩
    · exact Nat.le_succ_of_le (ih hrest)
    · exact Nat.succ_le_succ (ih hrest)

theorem unescape_eq (unit : List UInt8) : unescape unit = stripped 0 0 unit := by
  have hroom : (Output.zeroed unit.length).filled + unit.length ≤
      (Output.zeroed unit.length).data.size := by
    simp [Output.zeroed]
  rw [unescape, unescapeInto, unescapeFrom_eq 0 0 hroom]
  cases hfound : stripped 0 0 unit with
  | error e => rfl
  | ok found =>
    have hroom : (Output.zeroed unit.length).filled + found.length ≤
        (Output.zeroed unit.length).data.size := by
      simpa [Output.zeroed] using length_stripped_le hfound
    obtain ⟨v, hv, hwritten⟩ := Output.pushAll_of_room hroom
    rw [Output.written_zeroed, List.nil_append] at hwritten
    rw [Except.bind, hv]
    exact congrArg Except.ok hwritten

end Outputs

section RoundTrip

/-- A byte that is not escaped leaves no more than two zero bytes behind. -/
theorem zeros_behind_le {zeros : Nat} {b : UInt8} (hzeros : zeros ≤ 2)
    (h : ¬(zeros = 2 ∧ b ≤ 3)) : (if b = 0 then zeros + 1 else 0) ≤ 2 := by
  by_cases hb : b = 0
  · subst hb
    have hne : zeros ≠ 2 := fun heq => h ⟨heq, by decide⟩
    rw [if_pos rfl]
    omega
  · rw [if_neg hb]
    omega

theorem stripped_escaped {zeros : Nat} (hzeros : zeros ≤ 2) (offset : Nat) (bs : List UInt8) :
    stripped zeros offset (escaped zeros bs) = .ok bs := by
  induction bs generalizing zeros offset with
  | nil =>
    unfold escaped
    split
    · obtain rfl : zeros = 2 := by omega
      rfl
    · rfl
  | cons b bs ih =>
    unfold escaped
    split
    · rename_i hescape
      obtain ⟨rfl, hb⟩ := hescape
      have hnext : (if b = 0 then 0 + 1 else 0) ≤ 2 := by split <;> omega
      rw [stripped, if_neg (by decide), if_pos ⟨rfl, rfl⟩]
      simp only [List.head?_cons, UInt8.not_lt.mpr hb, if_false]
      rw [stripped_cons (by omega), ih hnext]
      rfl
    · rename_i hplain
      rw [stripped_cons hplain, ih (zeros_behind_le hzeros hplain)]
      rfl

theorem unescape_of_escape {payload unit : List UInt8} (h : escape payload = .ok unit) :
    unescape unit = .ok payload := by
  rw [escape_eq] at h
  obtain rfl := Except.ok.inj h
  rw [unescape_eq, stripped_escaped (Nat.zero_le 2)]

/-- Behind two zero bytes the escaped form starts with one byte more. -/
theorem escaped_behind_two {b : UInt8} (h : b ≤ 3) (bs : List UInt8) :
    escaped 2 (b :: bs) = 3 :: escaped 0 (b :: bs) := by
  have hzero : ¬(0 = 2 ∧ b ≤ 3) := fun heq => absurd heq.1 (by decide)
  rw [escaped, if_pos ⟨rfl, h⟩, escaped, if_neg hzero]

theorem zeros_behind_suffix (zeros : Nat) (b : UInt8) (bs : List UInt8) :
    List.replicate (if b = 0 then zeros + 1 else 0) 0 ++ bs <:+
      List.replicate zeros 0 ++ b :: bs := by
  by_cases hb : b = 0
  · subst hb
    have hsame : List.replicate (if (0 : UInt8) = 0 then zeros + 1 else 0) 0 ++ bs =
        List.replicate zeros 0 ++ 0 :: bs := by
      rw [if_pos rfl, List.replicate_succ', List.append_assoc, List.singleton_append]
    exact hsame ▸ List.suffix_refl _
  · rw [if_neg hb]
    exact (List.suffix_cons b bs).trans (List.suffix_append _ _)

theorem escaped_of_stripped {zeros offset : Nat} {bs found : List UInt8} (hzeros : zeros ≤ 2)
    (h : stripped zeros offset bs = .ok found)
    (hend : ¬[0, 0] <:+ List.replicate zeros 0 ++ bs) : escaped zeros found = bs := by
  induction bs generalizing zeros offset found with
  | nil =>
    cases h
    have hne : zeros ≠ 2 := by
      rintro rfl
      exact hend (List.suffix_refl _)
    rw [escaped, if_neg (by omega)]
  | cons b bs ih =>
    rcases stripped_cons_eq_ok h with ⟨rfl, rfl, hnext, hrest⟩ | ⟨hplain, rest, hrest, rfl⟩
    · have hescaped := ih (Nat.zero_le 2) hrest fun hsuffix =>
        hend (hsuffix.trans ((List.suffix_cons 3 bs).trans (List.suffix_append _ _)))
      -- An escape stands in front of the first byte that is found, or at the end.
      cases found with
      | nil =>
        obtain rfl : [] = bs := hescaped
        rfl
      | cons c found =>
        have hhead : bs.head? = some c := by
          rw [← hescaped, escaped, if_neg (by omega)]
          rfl
        rw [escaped_behind_two (hnext c hhead), hescaped]
    · rw [escaped, if_neg hplain, ih (zeros_behind_le hzeros hplain) hrest ?_]
      intro hsuffix
      exact hend (hsuffix.trans (zeros_behind_suffix zeros b bs))

/-- Bytes that do not end in two zero bytes are the escaped form of what they stand for. -/
theorem escape_of_unescape {unit payload : List UInt8} (h : unescape unit = .ok payload)
    (hend : ¬[0, 0] <:+ unit) : escape payload = .ok unit := by
  rw [unescape_eq] at h
  rw [escape_eq, escaped_of_stripped (Nat.zero_le 2) h hend]

end RoundTrip

section StartCodes

/-- Three bytes that start with two zero bytes end with the byte behind the zero bytes or come
later. -/
theorem infix_behind {zeros : Nat} (hzeros : zeros ≤ 2) {x b : UInt8} {bs : List UInt8}
    (h : [0, 0, x] <:+: List.replicate zeros 0 ++ b :: bs) :
    (zeros = 2 ∧ x = b) ∨
      [0, 0, x] <:+: List.replicate (if b = 0 then zeros + 1 else 0) 0 ++ bs := by
  by_cases hb : b = 0
  · subst hb
    rw [if_pos rfl, List.replicate_succ', List.append_assoc, List.singleton_append]
    exact .inr h
  · have hne : ¬0 = b := Ne.symm hb
    rw [if_neg hb]
    obtain rfl | rfl | rfl : zeros = 0 ∨ zeros = 1 ∨ zeros = 2 := by omega
    · simpa [List.infix_cons_iff, List.cons_prefix_cons, hne] using h
    · simpa [List.replicate, List.infix_cons_iff, List.cons_prefix_cons, hne] using h
    · simpa [List.replicate, List.infix_cons_iff, List.cons_prefix_cons, hne] using h

/-- No two zero bytes are followed by a byte below 3, also across the seam. -/
theorem not_infix_escaped {zeros : Nat} (hzeros : zeros ≤ 2) {x : UInt8} (hx : x ≤ 2)
    (bs : List UInt8) : ¬[0, 0, x] <:+: List.replicate zeros 0 ++ escaped zeros bs := by
  intro h
  have hthree : x ≠ 3 := by
    rintro rfl
    exact absurd hx (by decide)
  induction bs generalizing zeros with
  | nil =>
    unfold escaped at h
    split at h
    · rcases infix_behind hzeros h with ⟨-, hlast⟩ | hlater
      · exact hthree hlast
      · simpa using hlater.length_le
    · have hlength := h.length_le
      simp at hlength
      omega
  | cons b bs ih =>
    unfold escaped at h
    split at h
    · rename_i hescape
      obtain ⟨rfl, -⟩ := hescape
      rcases infix_behind hzeros h with ⟨-, hlast⟩ | hlater
      · exact hthree hlast
      · rcases infix_behind (Nat.zero_le 2) hlater with ⟨hzero, -⟩ | hlater
        · cases hzero
        · exact ih (by split <;> omega) hlater
    · rename_i hplain
      rcases infix_behind hzeros h with ⟨htwo, rfl⟩ | hlater
      · exact hplain ⟨htwo, UInt8.le_trans hx (by decide)⟩
      · exact ih (zeros_behind_le hzeros hplain) hlater

/-- Two zero bytes at the end stand behind any byte that is not zero. -/
theorem suffix_behind {zeros : Nat} {b : UInt8} {bs : List UInt8}
    (h : [0, 0] <:+ List.replicate zeros 0 ++ b :: bs) :
    [0, 0] <:+ List.replicate (if b = 0 then zeros + 1 else 0) 0 ++ bs := by
  by_cases hb : b = 0
  · subst hb
    rw [if_pos rfl, List.replicate_succ', List.append_assoc, List.singleton_append]
    exact h
  · rw [if_neg hb]
    have hbs : b :: bs <:+ List.replicate zeros 0 ++ b :: bs := List.suffix_append _ _
    rcases Nat.le_total (b :: bs).length 2 with hshort | hlong
    · have hmem := (List.suffix_of_suffix_length_le hbs h hshort).subset (List.mem_cons_self ..)
      exact absurd (by simpa using hmem) hb
    · rcases List.suffix_cons_iff.mp (List.suffix_of_suffix_length_le h hbs hlong) with heq | hlater
      · exact absurd (List.cons.inj heq).1.symm hb
      · exact hlater

/-- What is escaped does not end in two zero bytes, also across the seam. -/
theorem not_suffix_escaped {zeros : Nat} (hzeros : zeros ≤ 2) (bs : List UInt8) :
    ¬[0, 0] <:+ List.replicate zeros 0 ++ escaped zeros bs := by
  intro h
  induction bs generalizing zeros with
  | nil =>
    unfold escaped at h
    split at h
    · have hnone : [0, 0] <:+ ([] : List UInt8) := suffix_behind h
      exact absurd hnone.length_le (by decide)
    · have hlength := h.length_le
      simp at hlength
      omega
  | cons b bs ih =>
    unfold escaped at h
    split at h
    · rename_i hescape
      obtain ⟨rfl, -⟩ := hescape
      have hbehind : [0, 0] <:+ List.replicate 0 0 ++ b :: escaped (if b = 0 then 1 else 0) bs :=
        suffix_behind h
      exact ih (by split <;> omega) (suffix_behind hbehind)
    · rename_i hplain
      exact ih (zeros_behind_le hzeros hplain) (suffix_behind h)

/-- Behind a byte that is not zero escaping starts anew. -/
theorem exists_escaped_append {bs : List UInt8} {b : UInt8} (hb : b ≠ 0)
    (h : bs.getLast? = some b) (zeros : Nat) :
    ∃ front, front.getLast? = some b ∧
      ∀ rest, escaped zeros (bs ++ rest) = front ++ escaped 0 rest := by
  induction bs generalizing zeros with
  | nil => cases h
  | cons c bs ih =>
    -- What the first byte leaves behind goes on to the last one, unless it is the last one.
    have hrest : ∀ zeros, ∃ front, (c :: front).getLast? = some b ∧
        ∀ rest, escaped (if c = 0 then zeros else 0) (bs ++ rest) = front ++ escaped 0 rest := by
      intro zeros
      cases bs with
      | nil =>
        obtain rfl : c = b := by simpa using h
        exact ⟨[], rfl, fun rest => by rw [if_neg hb]; rfl⟩
      | cons d bs =>
        obtain ⟨front, hfront, hescaped⟩ := ih (by simpa using h) (if c = 0 then zeros else 0)
        exact ⟨front, by rw [List.getLast?_cons, hfront]; rfl, hescaped⟩
    by_cases hescape : zeros = 2 ∧ c ≤ 3
    · obtain ⟨front, hfront, hescaped⟩ := hrest 1
      refine ⟨3 :: c :: front, by rw [List.getLast?_cons, hfront]; rfl, fun rest => ?_⟩
      rw [List.cons_append, escaped, if_pos hescape, hescaped]
      rfl
    · obtain ⟨front, hfront, hescaped⟩ := hrest (zeros + 1)
      refine ⟨c :: front, hfront, fun rest => ?_⟩
      rw [List.cons_append, escaped, if_neg hescape, hescaped]
      rfl

theorem getLast?_escaped {zeros : Nat} {bs : List UInt8} {b : UInt8} (hb : b ≠ 0)
    (h : bs.getLast? = some b) : (escaped zeros bs).getLast? = some b := by
  obtain ⟨front, hfront, hescaped⟩ := exists_escaped_append hb h zeros
  have hnone : escaped 0 [] = [] := rfl
  have hall := hescaped []
  rw [List.append_nil, hnone, List.append_nil] at hall
  rw [hall, hfront]

end StartCodes

/-- Escaping is a bijection between all payloads and those bytes that stand for a payload and do
not end in two zero bytes. Among these two zero bytes are never followed by a byte below 3. -/
theorem escape_bijective :
    (∀ payload, ∃ unit, escape payload = .ok unit ∧ unescape unit = .ok payload ∧
      (∀ x : UInt8, x ≤ 2 → ¬[0, 0, x] <:+: unit) ∧ ¬[0, 0] <:+ unit) ∧
    ∀ unit payload, unescape unit = .ok payload → ¬[0, 0] <:+ unit →
      escape payload = .ok unit := by
  refine ⟨fun payload => ?_, fun unit payload h hend => escape_of_unescape h hend⟩
  have hescape := escape_eq payload
  exact ⟨_, hescape, unescape_of_escape hescape,
    fun x hx => not_infix_escaped (Nat.zero_le 2) hx payload,
    not_suffix_escaped (Nat.zero_le 2) payload⟩

/-- Six zero bytes take three escapes, the last of them at the end. A byte 3 that was there before
is told from them. -/
theorem escape_bijective_zeros :
    unescape [0, 0, 3, 0, 0, 3, 0, 0, 3, 3, 5, 0, 0, 3] = .ok [0, 0, 0, 0, 0, 0, 3, 5, 0, 0] ∧
      ¬[0, 0] <:+ ([0, 0, 3, 0, 0, 3, 0, 0, 3, 3, 5, 0, 0, 3] : List UInt8) ∧
      escape [0, 0, 0, 0, 0, 0, 3, 5, 0, 0] =
        .ok [0, 0, 3, 0, 0, 3, 0, 0, 3, 3, 5, 0, 0, 3] := by
  have hunit : unescape [0, 0, 3, 0, 0, 3, 0, 0, 3, 3, 5, 0, 0, 3] =
      .ok [0, 0, 0, 0, 0, 0, 3, 5, 0, 0] := by cbv
  have hend : ¬[0, 0] <:+ ([0, 0, 3, 0, 0, 3, 0, 0, 3, 3, 5, 0, 0, 3] : List UInt8) := by decide
  exact ⟨hunit, hend, escape_bijective.2 _ _ hunit hend⟩

end AvcSyntax

import AvcSyntax.Proofs.Nal.Escaping
import AvcSyntax.Proofs.Nal.UnitSearch

/-!
# What can be unescaped

Some sequences of bytes stand in no escaped form: two zero bytes before a byte below 3, and two
zero bytes, a byte 3 and a byte above it. Bytes that hold none of these are unescaped by leaving
out the last byte of every 0 0 3. In all others the first such sequence is where unescaping stops,
and the error names the place of its last byte.

Unescaping counts the zero bytes that it has passed and begins anew behind an escape. The count is
the number of zero bytes that stand in front of what is left, so the statements about a scan that
is under way are about these zero bytes and what is left.
-/
namespace AvcSyntax

inductive IllegalSequence : List UInt8 → Prop
  | code {x : UInt8} (h : x ≤ 2) : IllegalSequence [0, 0, x]
  | escape {x : UInt8} (h : 3 < x) : IllegalSequence [0, 0, 3, x]

/-- An illegal sequence in some bytes, from `start` on, in front of which none begins. -/
structure FirstIllegal (bs : List UInt8) (start : Nat) (seq : List UInt8) : Prop where
  illegal : IllegalSequence seq
  found : seq <+: bs.drop start
  first : ∀ (i : Nat) (t : List UInt8), IllegalSequence t → t <+: bs.drop i → start ≤ i

/-- Whether nothing illegal stands in some bytes. -/
def Legal (bs : List UInt8) : Prop := ∀ s, IllegalSequence s → ¬s <:+: bs

/-- Whether the byte at `i` is the last one of the bytes 0 0 3. -/
def EndsEscape (bs : List UInt8) (i : Nat) : Prop := 2 ≤ i ∧ [0, 0, 3] <+: bs.drop (i - 2)

instance (bs : List UInt8) (i : Nat) : Decidable (EndsEscape bs i) :=
  inferInstanceAs (Decidable (_ ∧ _))

/-- Bytes without the last one of every 0 0 3. -/
def withoutEscapes (bs : List UInt8) : List UInt8 :=
  (bs.zipIdx.filter fun p => !decide (EndsEscape bs p.2)).map Prod.fst

section Sequences

theorem IllegalSequence.exists_third {s : List UInt8} (h : IllegalSequence s) :
    ∃ x rest, x ≤ 3 ∧ s = 0 :: 0 :: x :: rest := by
  cases h with
  | @code x hx => exact ⟨x, [], UInt8.le_trans hx (by decide), rfl⟩
  | @escape x hx => exact ⟨3, [x], UInt8.le_refl 3, rfl⟩

/-- No two illegal sequences begin at the same place. -/
theorem IllegalSequence.eq_of_front {s t bs : List UInt8} (hs : IllegalSequence s)
    (ht : IllegalSequence t) (h : s <+: bs) (k : t <+: bs) : s = t := by
  have hthree {x : UInt8} (hx : x ≤ 2) : x ≠ 3 := fun heq => absurd (heq ▸ hx) (by decide)
  obtain ⟨rest, rfl⟩ := h
  cases hs with
  | code hx =>
    cases ht with
    | code hy => simpa [List.cons_prefix_cons, eq_comm] using k
    | escape hy => simp [List.cons_prefix_cons, (hthree hx).symm] at k
  | escape hx =>
    cases ht with
    | code hy => simp [List.cons_prefix_cons, hthree hy] at k
    | escape hy => simpa [List.cons_prefix_cons, eq_comm] using k

theorem FirstIllegal.isInfix {bs seq : List UInt8} {start : Nat} (h : FirstIllegal bs start seq) :
    seq <:+: bs := infix_iff_drop.mpr ⟨start, h.found⟩

theorem FirstIllegal.unique {bs s t : List UInt8} {i j : Nat} (hs : FirstIllegal bs i s)
    (ht : FirstIllegal bs j t) : i = j ∧ s = t := by
  obtain rfl : i = j :=
    Nat.le_antisymm (hs.first j t ht.illegal ht.found) (ht.first i s hs.illegal hs.found)
  exact ⟨rfl, hs.illegal.eq_of_front ht.illegal hs.found ht.found⟩

/-- No illegal sequence begins within the first bytes. -/
def NoneBegins (count : Nat) (bs : List UInt8) : Prop :=
  ∀ i < count, ∀ s, IllegalSequence s → ¬s <+: bs.drop i

variable {front bs : List UInt8}

/-- What follows decides if nothing begins in front of it. -/
theorem NoneBegins.legal (h : NoneBegins front.length (front ++ bs)) (hlegal : Legal bs) :
    Legal (front ++ bs) := by
  intro s hs hfound
  obtain ⟨i, hi⟩ := infix_iff_drop.mp hfound
  by_cases hfront : i < front.length
  · exact h i hfront s hs hi
  · rw [List.drop_append, List.drop_of_length_le (Nat.not_lt.mp hfront), List.nil_append] at hi
    exact hlegal s hs (infix_iff_drop.mpr ⟨_, hi⟩)

theorem NoneBegins.first (h : NoneBegins front.length (front ++ bs)) {start : Nat}
    {seq : List UInt8} (hfirst : FirstIllegal bs start seq) :
    FirstIllegal (front ++ bs) (front.length + start) seq := by
  constructor
  case illegal => exact hfirst.illegal
  case found =>
    rw [← List.drop_drop, List.drop_left]
    exact hfirst.found
  case first =>
    intro i t ht hfound
    by_cases hfront : i < front.length
    · exact absurd hfound (h i hfront t ht)
    · rw [List.drop_append, List.drop_of_length_le (Nat.not_lt.mp hfront), List.nil_append]
        at hfound
      have hle := hfirst.first _ t ht hfound
      omega

theorem FirstIllegal.of_front {seq : List UInt8} (hs : IllegalSequence seq) (h : seq <+: bs) :
    FirstIllegal bs 0 seq := ⟨hs, h, fun _ _ _ _ => Nat.zero_le _⟩

theorem legal_zeros {zeros : Nat} (hzeros : zeros ≤ 2) : Legal (List.replicate zeros 0) := by
  intro s hs h
  have hlength := h.length_le
  rw [List.length_replicate] at hlength
  cases hs with
  | code => simp at hlength; omega
  | escape => simp at hlength; omega

/-- Behind a byte that is neither zero nor a third one of an illegal sequence everything begins
anew. -/
theorem noneBegins_plain {zeros : Nat} (hzeros : zeros ≤ 2) {b : UInt8} (hb : b ≠ 0)
    (hplain : ¬(zeros = 2 ∧ b ≤ 3)) (bs : List UInt8) :
    NoneBegins (List.replicate zeros 0 ++ [b]).length ((List.replicate zeros 0 ++ [b]) ++ bs) := by
  intro i hi s hs hfound
  obtain ⟨x, rest, hx, rfl⟩ := hs.exists_third
  have hne : ¬0 = b := Ne.symm hb
  have hlength : i < zeros + 1 := by simpa using hi
  obtain rfl | rfl | rfl : zeros = 0 ∨ zeros = 1 ∨ zeros = 2 := by omega
  · obtain rfl : i = 0 := by omega
    simp [List.cons_prefix_cons, hne] at hfound
  · obtain rfl | rfl : i = 0 ∨ i = 1 := by omega
    all_goals simp [List.replicate, List.cons_prefix_cons, hne] at hfound
  · obtain rfl | rfl | rfl : i = 0 ∨ i = 1 ∨ i = 2 := by omega
    · have hthird : x = b ∧ rest <+: bs := by
        simpa [List.replicate, List.cons_prefix_cons] using hfound
      exact hplain ⟨rfl, hthird.1 ▸ hx⟩
    all_goals simp [List.replicate, List.cons_prefix_cons, hne] at hfound

/-- Nothing begins in an escape at the end or in front of a byte up to 3. -/
theorem noneBegins_escape {bs : List UInt8} (hnext : ∀ next, bs.head? = some next → next ≤ 3) :
    NoneBegins [0, 0, 3].length ([0, 0, 3] ++ bs) := by
  intro i hi s hs hfound
  have hlength : i < 3 := hi
  obtain rfl | rfl | rfl : i = 0 ∨ i = 1 ∨ i = 2 := by omega
  · cases hs with
    | @code x hx =>
      have hthree : x = 3 := by simpa [List.cons_prefix_cons] using hfound
      exact absurd (hthree ▸ hx) (by decide)
    | @escape x hx =>
      obtain ⟨rest, rfl⟩ : [x] <+: bs := by simpa [List.cons_prefix_cons] using hfound
      exact absurd (hnext x rfl) (UInt8.not_le.mpr hx)
  all_goals
    obtain ⟨x, rest, -, rfl⟩ := hs.exists_third
    simp [List.cons_prefix_cons] at hfound

end Sequences

section Escapes

variable {front bs : List UInt8}

theorem not_endsEscape_of_lt {i : Nat} (h : i < 2) : ¬EndsEscape bs i := fun hends => by
  have hle := hends.1
  omega

theorem endsEscape_add_two {i : Nat} :
    EndsEscape bs (i + 2) ↔ bs[i]? = some 0 ∧ bs[i + 1]? = some 0 ∧ bs[i + 2]? = some 3 := by
  rw [EndsEscape, Nat.add_sub_cancel, List.prefix_iff_getElem?]
  constructor
  · rintro ⟨-, h⟩
    have hat (k : Nat) (hk : k < 3) : bs[i + k]? = some ([0, 0, 3] : List UInt8)[k] := by
      rw [← List.getElem?_drop]
      exact h k hk
    exact ⟨hat 0 (by decide), hat 1 (by decide), hat 2 (by decide)⟩
  · rintro ⟨hfirst, hsecond, hthird⟩
    refine ⟨Nat.le_add_left 2 i, fun k hk => ?_⟩
    rw [List.getElem?_drop]
    match k, hk with
    | 0, _ => exact hfirst
    | 1, _ => exact hsecond
    | 2, _ => exact hthird

theorem withoutEscapes_eq_self (h : ¬[0, 0, 3] <:+: bs) : withoutEscapes bs = bs := by
  have hnone : ∀ p ∈ bs.zipIdx, (!decide (EndsEscape bs p.2)) = true := by
    intro p _
    rw [Bool.not_eq_true', decide_eq_false_iff_not]
    exact fun hends => h (infix_iff_drop.mpr ⟨_, hends.2⟩)
  rw [withoutEscapes, List.filter_eq_self.mpr hnone, List.zipIdx_map_fst]

theorem endsEscape_front {i : Nat} (hi : i < front.length) :
    EndsEscape (front ++ bs) i ↔ EndsEscape front i := by
  match i with
  | 0 | 1 => simp [EndsEscape]
  | i + 2 =>
    rw [endsEscape_add_two, endsEscape_add_two, List.getElem?_append_left (by omega),
      List.getElem?_append_left (by omega), List.getElem?_append_left hi]

/-- No escape goes on behind a byte that is not zero. -/
theorem endsEscape_behind {b : UInt8} (hb : b ≠ 0) (hlast : front.getLast? = some b) (i : Nat) :
    EndsEscape (front ++ bs) (front.length + i) ↔ EndsEscape bs i := by
  obtain ⟨front, rfl⟩ := List.getLast?_eq_some_iff.mp hlast
  have hbyte : (front ++ [b] ++ bs)[front.length]? ≠ some 0 := by simpa using hb
  rw [List.length_append, List.length_singleton]
  match i with
  | 0 =>
    refine ⟨fun h => ?_, fun h => absurd h (not_endsEscape_of_lt (by decide))⟩
    obtain ⟨more, hmore⟩ : ∃ more, front.length = more + 1 := ⟨front.length - 1, by
      have hle := h.1
      omega⟩
    rw [Nat.add_zero, hmore, endsEscape_add_two, ← hmore] at h
    exact absurd h.2.1 hbyte
  | 1 =>
    refine ⟨fun h => ?_, fun h => absurd h (not_endsEscape_of_lt (by decide))⟩
    exact absurd (endsEscape_add_two.mp h).1 hbyte
  | j + 2 =>
    have hbehind (k : Nat) :
        (front ++ [b] ++ bs)[front.length + 1 + j + k]? = bs[j + k]? := by
      rw [List.getElem?_append_right (by simp; omega)]
      congr 1
      simp
      omega
    have hfirst : (front ++ [b] ++ bs)[front.length + 1 + j]? = bs[j]? := hbehind 0
    rw [← Nat.add_assoc, endsEscape_add_two, endsEscape_add_two, hfirst, hbehind 1, hbehind 2]

/-- Behind a byte that is not zero escapes are looked for anew. -/
theorem withoutEscapes_append {b : UInt8} (hb : b ≠ 0) (hlast : front.getLast? = some b)
    (bs : List UInt8) :
    withoutEscapes (front ++ bs) = withoutEscapes front ++ withoutEscapes bs := by
  have hshift : bs.zipIdx front.length = bs.zipIdx.map (Prod.map id (· + front.length)) := by
    rw [List.map_snd_add_zipIdx_eq_zipIdx, Nat.add_zero]
  have hfront : front.zipIdx.filter (fun p => !decide (EndsEscape (front ++ bs) p.2)) =
      front.zipIdx.filter fun p => !decide (EndsEscape front p.2) := by
    refine List.filter_congr fun p hp => ?_
    rw [decide_eq_decide.mpr (endsEscape_front (List.snd_lt_of_mem_zipIdx hp))]
  have hbehind : (fun p : UInt8 × Nat => !decide (EndsEscape (front ++ bs) p.2)) ∘
      Prod.map id (· + front.length) = fun p => !decide (EndsEscape bs p.2) := by
    funext p
    simp only [Function.comp_apply, Prod.map_snd, Nat.add_comm p.2,
      decide_eq_decide.mpr (endsEscape_behind hb hlast p.2)]
  rw [withoutEscapes, List.zipIdx_append, Nat.zero_add, List.filter_append, hfront, hshift,
    List.filter_map, hbehind, List.map_append, List.map_map]
  rfl

/-- The bytes in front of the first zero byte of an escape are kept, and so is a byte behind zero
bytes that does not make one. -/
theorem withoutEscapes_plain {zeros : Nat} (hzeros : zeros ≤ 2) {b : UInt8} (hb : b ≠ 0)
    (hplain : ¬(zeros = 2 ∧ b ≤ 3)) :
    withoutEscapes (List.replicate zeros 0 ++ [b]) = List.replicate zeros 0 ++ [b] := by
  refine withoutEscapes_eq_self fun h => ?_
  rcases infix_behind hzeros h with ⟨htwo, rfl⟩ | hlater
  · exact hplain ⟨htwo, UInt8.le_refl 3⟩
  · rw [if_neg hb] at hlater
    simpa using hlater.length_le

end Escapes

/-- What unescaping `bs` from `offset` on comes to, behind `zeros` zero bytes that have been put
out. -/
inductive Unescapes (zeros offset : Nat) (bs : List UInt8) : Except NalError (List UInt8) → Prop
  | legal {found : List UInt8} (hlegal : Legal (List.replicate zeros 0 ++ bs))
      (hfound : withoutEscapes (List.replicate zeros 0 ++ bs) = List.replicate zeros 0 ++ found) :
      Unescapes zeros offset bs (.ok found)
  | illegal {start place : Nat} {seq : List UInt8}
      (hfirst : FirstIllegal (List.replicate zeros 0 ++ bs) start seq)
      (hplace : place + zeros + 1 = offset + start + seq.length) :
      Unescapes zeros offset bs (.error (.illegalEscape place))

namespace Unescapes

variable {zeros offset : Nat} {b : UInt8} {bs kept : List UInt8}
  {result : Except NalError (List UInt8)}

/-- One zero byte more has been put out. -/
theorem zero (h : Unescapes (zeros + 1) (offset + 1) bs result) :
    Unescapes zeros offset (0 :: bs) ((0 :: ·) <$> result) := by
  have hbytes : List.replicate (zeros + 1) 0 ++ bs = List.replicate zeros 0 ++ 0 :: bs := by
    rw [List.replicate_succ', List.append_assoc, List.singleton_append]
  cases h with
  | legal hlegal hfound =>
    refine .legal (hbytes ▸ hlegal) ?_
    rw [← hbytes, hfound, List.replicate_succ', List.append_assoc, List.singleton_append]
  | illegal hfirst hplace =>
    refine .illegal (hbytes ▸ hfirst) ?_
    omega

/-- Behind a byte that is not zero everything begins anew. -/
theorem behind (hb : b ≠ 0)
    (hnone : NoneBegins (List.replicate zeros 0 ++ [b]).length
      ((List.replicate zeros 0 ++ [b]) ++ bs))
    (hkept : withoutEscapes (List.replicate zeros 0 ++ [b]) = List.replicate zeros 0 ++ kept)
    (h : Unescapes 0 (offset + 1) bs result) :
    Unescapes zeros offset (b :: bs) ((kept ++ ·) <$> result) := by
  have hbytes : List.replicate zeros 0 ++ [b] ++ bs = List.replicate zeros 0 ++ b :: bs := by
    rw [List.append_assoc, List.singleton_append]
  have hlast : (List.replicate zeros 0 ++ [b]).getLast? = some b := by
    rw [List.getLast?_append, List.getLast?_singleton, Option.some_or]
  cases h with
  | legal hlegal hfound =>
    refine .legal (hbytes ▸ hnone.legal hlegal) ?_
    rw [← hbytes, withoutEscapes_append hb hlast, hkept, List.append_assoc]
    exact congrArg (fun later => List.replicate zeros 0 ++ (kept ++ later)) hfound
  | illegal hfirst hplace =>
    refine .illegal (hbytes ▸ hnone.first hfirst) ?_
    rw [List.length_append, List.length_replicate, List.length_singleton]
    omega

end Unescapes

/-- By induction on what is left: the scan fails at an illegal sequence, or it goes on behind a
byte that has not begun one. -/
theorem unescapes_stripped {zeros : Nat} (hzeros : zeros ≤ 2) (offset : Nat) (bs : List UInt8) :
    Unescapes zeros offset bs (stripped zeros offset bs) := by
  induction bs generalizing zeros offset with
  | nil =>
    refine .legal ?_ ?_
    · rw [List.append_nil]
      exact legal_zeros hzeros
    · rw [List.append_nil]
      refine withoutEscapes_eq_self fun h => ?_
      have hlength := h.length_le
      rw [List.length_replicate] at hlength
      exact absurd (hlength.trans hzeros) (by decide)
  | cons b bs ih =>
    by_cases hplain : zeros = 2 ∧ b ≤ 3
    · obtain ⟨rfl, hb⟩ := hplain
      rcases UInt8.lt_or_eq_of_le hb with hcode | rfl
      · have hseq : IllegalSequence [0, 0, b] :=
          .code (UInt8.le_iff_toNat_le.mpr (Nat.le_of_lt_succ (UInt8.lt_iff_toNat_lt.mp hcode)))
        rw [stripped, if_pos ⟨rfl, hcode⟩]
        exact .illegal (.of_front hseq ⟨bs, rfl⟩) rfl
      · by_cases hnext : ∀ next, bs.head? = some next → next ≤ 3
        · rw [stripped_three hnext]
          have hescape : withoutEscapes [0, 0, 3] = [0, 0] ++ [] := by decide
          have hrest : Unescapes 2 offset (3 :: bs) _ :=
            (ih (Nat.zero_le 2) (offset + 1)).behind (by decide) (noneBegins_escape hnext) hescape
          rwa [List.nil_append_fun, id_map] at hrest
        · push Not at hnext
          obtain ⟨next, hhead, habove⟩ := hnext
          have hnext : 3 < next := UInt8.not_le.mp habove
          rw [stripped_three_above hhead hnext]
          obtain ⟨later, rfl⟩ := List.head?_eq_some_iff.mp hhead
          exact .illegal (.of_front (.escape hnext) ⟨later, rfl⟩) rfl
    · rw [stripped_cons hplain]
      by_cases hb : b = 0
      · subst hb
        exact (ih (zeros_behind_le hzeros hplain) (offset + 1)).zero
      · have hnone := noneBegins_plain hzeros hb hplain bs
        have hkept := withoutEscapes_plain hzeros hb hplain
        rw [if_neg hb]
        exact (ih (Nat.zero_le 2) (offset + 1)).behind hb hnone hkept

/-- Bytes are unescaped if and only if no illegal sequence stands in them, by leaving out the last
byte of every 0 0 3. Otherwise the error names the place of the last byte of the first illegal
sequence. -/
theorem unescape_outcome (unit : List UInt8) :
    (∀ payload, unescape unit = .ok payload ↔ Legal unit ∧ payload = withoutEscapes unit) ∧
      ∀ e, unescape unit = .error e ↔
        ∃ start seq, FirstIllegal unit start seq ∧
          e = .illegalEscape (start + seq.length - 1) := by
  have hscan : Unescapes 0 0 unit (unescape unit) :=
    (unescape_eq unit).symm ▸ unescapes_stripped (Nat.zero_le 2) 0 unit
  generalize unescape unit = result at hscan
  cases hscan with
  | @legal found hlegal hfound =>
    have hpayload : withoutEscapes unit = found := hfound
    refine ⟨fun payload => ?_, fun e => ⟨nofun, ?_⟩⟩
    · rw [hpayload, Except.ok.injEq]
      exact ⟨fun h => ⟨hlegal, h.symm⟩, fun h => h.2.symm⟩
    · rintro ⟨start, seq, hfirst, -⟩
      exact absurd hfirst.isInfix (hlegal seq hfirst.illegal)
  | @illegal start place seq hfirst hplace =>
    have hlast : place = start + seq.length - 1 := by omega
    refine ⟨fun payload => ⟨nofun, ?_⟩, fun e => ⟨fun h => ?_, ?_⟩⟩
    · rintro ⟨hlegal, -⟩
      exact absurd hfirst.isInfix (hlegal seq hfirst.illegal)
    · exact ⟨start, seq, hfirst, by rw [← hlast]; exact (Except.error.inj h).symm⟩
    · rintro ⟨other, t, hother, rfl⟩
      obtain ⟨rfl, rfl⟩ := hfirst.unique hother
      rw [hlast]

/-- Three escapes, the second of them in front of a byte 3 of the payload and the third at the
end. -/
example : unescape [0, 0, 3, 0, 0, 3, 3, 0, 0, 3] = .ok [0, 0, 0, 0, 3, 0, 0] := by cbv

/-- A byte 4 needs no escape. The start code behind it is not looked at any more. -/
example : unescape [0, 0, 3, 0, 0, 3, 4, 0, 0, 1] = .error (.illegalEscape 6) := by cbv

end AvcSyntax

import AvcSyntax.Nal.ByteStream
import Mathlib

/-!
# Where a unit begins and ends

A unit begins behind the first 0 0 1 and ends where the next 0 0 0 or 0 0 1 begins. The search for
its end goes through the pairs of zero bytes that do not overlap and stops at the first one in
front of a 0 or a 1. No end is missed that way: a pair is passed only where a byte above 1 stands
behind it, and then no end begins with its second byte either.

Bytes are looked for with a search that is given, of which no more is known than that it finds the
first place, or the places one after the other that do not overlap.
-/
namespace AvcSyntax

section Places

variable {p : List UInt8 → Prop} {pos : Nat} {bs : List UInt8}

/-- The places, counted from `pos`, where what is left of some bytes has a property. -/
def places (p : List UInt8 → Prop) (pos : Nat) (bs : List UInt8) : Set Nat :=
  {e | ∃ i, e = pos + i ∧ p (bs.drop i)}

theorem infix_iff_drop {s : List UInt8} : s <:+: bs ↔ ∃ i, s <+: bs.drop i := by
  rw [List.infix_iff_prefix_suffix]
  constructor
  · rintro ⟨t, hprefix, hsuffix⟩
    exact ⟨_, List.suffix_iff_eq_drop.mp hsuffix ▸ hprefix⟩
  · rintro ⟨i, h⟩
    exact ⟨_, h, List.drop_suffix i bs⟩

/-- What is in front does not count where nothing begins in it. -/
theorem places_behind {n : Nat} (h : ∀ i < n, ¬p (bs.drop i)) (pos : Nat) :
    places p pos bs = places p (pos + n) (bs.drop n) := by
  ext e
  constructor
  · rintro ⟨i, rfl, hi⟩
    obtain ⟨j, rfl⟩ : ∃ j, i = n + j :=
      Nat.exists_eq_add_of_le (Nat.not_lt.mp fun hlt => h i hlt hi)
    exact ⟨j, by omega, by rwa [List.drop_drop]⟩
  · rintro ⟨j, rfl, hj⟩
    exact ⟨n + j, by omega, by rwa [List.drop_drop] at hj⟩

theorem isLeast_places (h : p bs) (pos : Nat) : IsLeast (places p pos bs) pos := by
  refine ⟨⟨0, rfl, h⟩, ?_⟩
  rintro e ⟨i, rfl, -⟩
  exact Nat.le_add_right pos i

theorem exists_isLeast_places {i : Nat} (h : p (bs.drop i)) (pos : Nat) :
    ∃ e, IsLeast (places p pos bs) e := ⟨_, isLeast_csInf ⟨pos + i, i, rfl, h⟩⟩

theorem not_isLeast_places (h : ∀ i, ¬p (bs.drop i)) (pos e : Nat) :
    ¬IsLeast (places p pos bs) e := by
  rintro ⟨⟨i, -, hi⟩, -⟩
  exact h i hi

theorem some_eq_iff_of_isLeast {s : Set Nat} {a e : Nat} (h : IsLeast s a) :
    some a = some e ↔ IsLeast s e := by
  rw [Option.some.injEq]
  exact ⟨fun heq => heq ▸ h, fun he => h.unique he⟩

theorem places_zero (p : List UInt8 → Prop) (bs : List UInt8) :
    places p 0 bs = {i | p (bs.drop i)} := by
  ext e
  simp [places]

theorem places_drop (p : List UInt8 → Prop) (start : Nat) (bs : List UInt8) :
    places p start (bs.drop start) = {e | start ≤ e ∧ p (bs.drop e)} := by
  ext e
  constructor
  · rintro ⟨i, rfl, hi⟩
    exact ⟨Nat.le_add_right start i, by rwa [List.drop_drop] at hi⟩
  · rintro ⟨hle, he⟩
    obtain ⟨i, rfl⟩ := Nat.exists_eq_add_of_le hle
    exact ⟨i, rfl, by rwa [List.drop_drop]⟩

end Places

/-- Whether what is left of a stream ends the unit in front of it. -/
def EndsUnit (bs : List UInt8) : Prop := [0, 0, 0] <+: bs ∨ [0, 0, 1] <+: bs

section Ends

variable {pos : Nat} {bs : List UInt8}

theorem endsUnit_iff_exists : EndsUnit bs ↔ ∃ x : UInt8, x ≤ 1 ∧ [0, 0, x] <+: bs := by
  constructor
  · rintro (h | h)
    · exact ⟨0, by decide, h⟩
    · exact ⟨1, by decide, h⟩
  · rintro ⟨x, hx, h⟩
    rcases UInt8.lt_or_eq_of_le hx with hzero | rfl
    · obtain rfl : x = 0 := UInt8.lt_one_iff.mp hzero
      exact .inl h
    · exact .inr h

/-- The end of a unit is two zero bytes with a 0 or a 1 behind them. -/
theorem endsUnit_iff_pair : EndsUnit bs ↔ [0, 0] <+: bs ∧ bs[2]?.any (· ≤ 1) = true := by
  rw [endsUnit_iff_exists]
  match bs with
  | [] | [_] => simp [List.cons_prefix_cons]
  | [a, b] => simp [List.cons_prefix_cons]
  | a :: b :: c :: bs => simp [List.cons_prefix_cons, and_comm]

theorem endsUnit_behind_pair : EndsUnit (0 :: 0 :: bs) ↔ bs.head?.any (· ≤ 1) = true := by
  have hpair : [0, 0] <+: 0 :: 0 :: bs := ⟨bs, rfl⟩
  rw [endsUnit_iff_pair, and_iff_right hpair, List.head?_eq_getElem?]
  rfl

theorem EndsUnit.length_le (h : EndsUnit bs) : 3 ≤ bs.length := by
  obtain ⟨x, -, h⟩ := endsUnit_iff_exists.mp h
  exact h.length_le

/-- Nothing ends a unit within two zero bytes that do not. -/
theorem not_endsUnit_in_pair (hpair : [0, 0] <+: bs) (h : ¬EndsUnit bs) :
    ∀ i < 2, ¬EndsUnit (bs.drop i) := by
  intro i hi hends
  match i with
  | 0 => exact h hends
  | 1 =>
    obtain ⟨rest, rfl⟩ := hpair
    obtain ⟨hlater, -⟩ := endsUnit_iff_pair.mp hends
    have hthird : [0] <+: rest := by simpa [List.cons_prefix_cons] using hlater
    exact h (.inl (by simpa [List.cons_prefix_cons] using hthird))

theorem unitStop?_eq_some {stop : Nat} :
    unitStop? pos bs = some stop ↔ IsLeast (places EndsUnit pos bs) stop := by
  fun_induction unitStop? pos bs with
  | case1 pos a b bs hzeros hends =>
    obtain ⟨rfl, rfl⟩ := hzeros
    exact some_eq_iff_of_isLeast (isLeast_places (endsUnit_behind_pair.mpr hends) pos)
  | case2 pos a b bs hzeros hgoes ih =>
    obtain ⟨rfl, rfl⟩ := hzeros
    have hnone : ¬EndsUnit (0 :: 0 :: bs) := fun h => hgoes (endsUnit_behind_pair.mp h)
    have hplaces : places EndsUnit pos (0 :: 0 :: bs) = places EndsUnit (pos + 2) bs :=
      places_behind (not_endsUnit_in_pair ⟨bs, rfl⟩ hnone) pos
    rw [hplaces]
    exact ih
  | case3 pos a b bs hzeros ih =>
    have hnone : ∀ i < 1, ¬EndsUnit ((a :: b :: bs).drop i) := by
      intro i hi hends
      obtain rfl : i = 0 := by omega
      have hpair := (endsUnit_iff_pair.mp hends).1
      exact hzeros (by simpa [List.cons_prefix_cons, eq_comm] using hpair)
    rw [places_behind hnone]
    exact ih
  | case4 bs pos hshort =>
    have hnone : ∀ i, ¬EndsUnit (bs.drop i) := by
      intro i hends
      have hlength := hends.length_le.trans (List.drop_suffix i bs).length_le
      rcases bs with _ | ⟨a, _ | ⟨b, bs⟩⟩
      · simp at hlength
      · simp at hlength
      · exact hshort a b bs rfl
    have hleast := not_isLeast_places hnone pos stop
    exact ⟨fun h => (Option.some_ne_none stop h.symm).elim, fun h => (hleast h).elim⟩

theorem unitStop?_of_endsUnit (h : EndsUnit bs) (pos : Nat) : unitStop? pos bs = some pos :=
  unitStop?_eq_some.mpr (isLeast_places h pos)

theorem unitStop?_eq_none : unitStop? pos bs = none ↔ ∀ i, ¬EndsUnit (bs.drop i) := by
  constructor
  · intro h i hi
    obtain ⟨stop, hstop⟩ := exists_isLeast_places hi pos
    rw [unitStop?_eq_some.mpr hstop] at h
    cases h
  · intro h
    cases hstop : unitStop? pos bs with
    | none => rfl
    | some stop => exact absurd (unitStop?_eq_some.mp hstop) (not_isLeast_places h pos stop)

/-- The search goes on behind what ends no unit. -/
theorem unitStop?_behind {n : Nat} (h : ∀ i < n, ¬EndsUnit (bs.drop i)) (pos : Nat) :
    unitStop? pos bs = unitStop? (pos + n) (bs.drop n) := by
  ext stop
  rw [unitStop?_eq_some, unitStop?_eq_some, places_behind h]

theorem afterStartCode?_eq_some {start : Nat} :
    afterStartCode? pos bs = some start ↔
      ∃ i, IsLeast (places ([0, 0, 1] <+: ·) pos bs) i ∧ start = i + 3 := by
  induction bs generalizing pos with
  | nil =>
    have hnone : ∀ i, ¬([0, 0, 1] <+: ([] : List UInt8).drop i) := by simp
    refine ⟨nofun, ?_⟩
    rintro ⟨i, hi, -⟩
    exact absurd hi (not_isLeast_places hnone pos i)
  | cons b bs ih =>
    have hcode : (b = 0 ∧ bs.take 2 = [0, 1]) ↔ [0, 0, 1] <+: b :: bs := by
      rw [List.cons_prefix_cons, List.prefix_iff_eq_take, eq_comm, eq_comm (a := [0, 1])]
      rfl
    rw [afterStartCode?]
    by_cases hfront : b = 0 ∧ bs.take 2 = [0, 1]
    · have hleast := isLeast_places (p := ([0, 0, 1] <+: ·)) (hcode.mp hfront) pos
      rw [if_pos hfront, Option.some.injEq]
      constructor
      · rintro rfl
        exact ⟨pos, hleast, rfl⟩
      · rintro ⟨i, hi, rfl⟩
        rw [hleast.unique hi]
    · have hnone : ∀ i < 1, ¬[0, 0, 1] <+: (b :: bs).drop i := by
        intro i hi h
        obtain rfl : i = 0 := by omega
        exact hfront (hcode.mpr h)
      rw [if_neg hfront, places_behind (p := ([0, 0, 1] <+: ·)) hnone]
      exact ih

theorem afterStartCode?_eq_none :
    afterStartCode? pos bs = none ↔ ¬[0, 0, 1] <:+: bs := by
  rw [infix_iff_drop, not_exists]
  constructor
  · intro h i hi
    obtain ⟨e, he⟩ := exists_isLeast_places (p := ([0, 0, 1] <+: ·)) hi pos
    rw [afterStartCode?_eq_some.mpr ⟨e, he, rfl⟩] at h
    cases h
  · intro h
    cases hstart : afterStartCode? pos bs with
    | none => rfl
    | some start =>
      obtain ⟨i, hi, -⟩ := afterStartCode?_eq_some.mp hstart
      exact absurd hi (not_isLeast_places h pos i)

end Ends

/-- A search for bytes in others: for the first place where they stand, and for places one after
the other that do not overlap. -/
structure SubstringSearch where
  find : (hay needle : List UInt8) → Option Nat
  findAll : (hay needle : List UInt8) → List Nat
  find_eq_some : ∀ hay needle i,
    find hay needle = some i ↔ IsLeast {i | needle <+: hay.drop i} i
  findAll_eq : ∀ hay needle, needle ≠ [] →
    findAll hay needle =
      match find hay needle with
      | none => []
      | some i =>
        i :: (findAll (hay.drop (i + needle.length)) needle).map (i + needle.length + ·)

namespace SubstringSearch

/-- Searches place by place. -/
def findAt (hay needle : List UInt8) : Option Nat :=
  (List.range (hay.length + 1)).find? fun i => decide (needle <+: hay.drop i)

theorem findAt_eq_some {hay needle : List UInt8} {i : Nat} :
    findAt hay needle = some i ↔ IsLeast {i | needle <+: hay.drop i} i := by
  rw [findAt, List.find?_range_eq_some]
  constructor
  · rintro ⟨hi, -, hbefore⟩
    refine ⟨of_decide_eq_true hi, fun j hj => Nat.not_lt.mp fun hlt => ?_⟩
    have hnone := hbefore j hlt
    rw [Bool.not_eq_true', decide_eq_false_iff_not] at hnone
    exact hnone hj
  · rintro ⟨hi, hleast⟩
    refine ⟨decide_eq_true hi, ?_, fun j hlt => ?_⟩
    · -- Behind the end stand at most no bytes, and these stand in front as well.
      rw [List.mem_range]
      by_contra hlate
      have hdrop : hay.drop i = [] := List.drop_of_length_le (by omega)
      have hempty : needle = [] := List.prefix_nil.mp (hdrop ▸ hi)
      have hzero : i ≤ 0 := hleast (hempty ▸ List.nil_prefix)
      omega
    · rw [Bool.not_eq_true', decide_eq_false_iff_not]
      exact fun hj => Nat.not_le.mpr hlt (hleast hj)

/-- Searches anew behind each place that is found. -/
def findAllAt (hay needle : List UInt8) : List Nat :=
  if _hne : needle = [] then []
  else
    match _h : findAt hay needle with
    | none => []
    | some i =>
      i :: (findAllAt (hay.drop (i + needle.length)) needle).map (i + needle.length + ·)
termination_by hay.length
decreasing_by
  have hlength := (findAt_eq_some.mp _h).1.length_le
  have hpositive := List.length_pos_iff.mpr _hne
  rw [List.length_drop] at hlength ⊢
  omega

/-- A search that looks at one place after the other. -/
def placewise : SubstringSearch where
  find := findAt
  findAll := findAllAt
  find_eq_some _ _ _ := findAt_eq_some
  findAll_eq hay needle hne := by
    rw [findAllAt, dif_neg hne]
    split <;> simp_all

variable (search : SubstringSearch)

/-- Whether two zero bytes at `i` end a unit. -/
def endsPair (bs : List UInt8) (i : Nat) : Bool := bs[i + 2]?.any (· ≤ 1)

/-- The length of a unit that `bs` starts with, if anything ends it. -/
def unitLength? (bs : List UInt8) : Option Nat := (search.findAll bs [0, 0]).find? (endsPair bs)

def findUnit (stream : List UInt8) : Except NalError (Option UnitSpan) :=
  match search.find stream [0, 0, 1] with
  | none => .ok none
  | some i =>
    let start := i + 3
    if stream.length ≤ start then .ok none
    else
      match search.unitLength? (stream.drop start) with
      | some length => .ok (some ⟨start, start + length⟩)
      | none => .error (.notTerminated start)

theorem find_startCode (stream : List UInt8) :
    (search.find stream [0, 0, 1]).map (· + 3) = afterStartCode? 0 stream := by
  ext start
  rw [Option.map_eq_some_iff, afterStartCode?_eq_some]
  simp only [search.find_eq_some, places_zero, eq_comm]

theorem find_eq_none {hay needle : List UInt8} (h : search.find hay needle = none) (i : Nat) :
    ¬needle <+: hay.drop i := by
  intro hi
  obtain ⟨e, he⟩ := exists_isLeast_places (p := (needle <+: ·)) hi 0
  rw [places_zero] at he
  rw [(search.find_eq_some hay needle e).mpr he] at h
  cases h

theorem unitLength?_of_none {bs : List UInt8} (h : search.find bs [0, 0] = none) :
    search.unitLength? bs = none := by
  rw [unitLength?, search.findAll_eq bs [0, 0] (List.cons_ne_nil _ _), h]
  rfl

/-- The first pair of zero bytes is the end, or the end is looked for behind it. -/
theorem unitLength?_of_some {bs : List UInt8} {i : Nat} (h : search.find bs [0, 0] = some i) :
    search.unitLength? bs =
      if endsPair bs i then some i
      else (search.unitLength? (bs.drop (i + 2))).map (i + 2 + ·) := by
  rw [unitLength?, search.findAll_eq bs [0, 0] (List.cons_ne_nil _ _), h]
  simp only [List.length_cons, List.length_nil, Nat.zero_add]
  split
  · rename_i hends
    exact List.find?_cons_of_pos hends
  · rename_i hgoes
    rw [List.find?_cons_of_neg hgoes, List.find?_map, unitLength?]
    congr 2
    funext k
    rw [Function.comp_apply, endsPair, endsPair, List.getElem?_drop, Nat.add_assoc (i + 2)]

/-- By induction on what is left: a pair of zero bytes that does not end the unit is passed, and
with it nothing that does. -/
theorem unitLength?_eq (pos : Nat) (bs : List UInt8) :
    (search.unitLength? bs).map (pos + ·) = unitStop? pos bs := by
  induction hlength : bs.length using Nat.strong_induction_on generalizing pos bs with
  | _ n ih =>
    cases hfind : search.find bs [0, 0] with
    | none =>
      have hnone : ∀ i, ¬EndsUnit (bs.drop i) := fun i hi =>
        search.find_eq_none hfind i (endsUnit_iff_pair.mp hi).1
      rw [search.unitLength?_of_none hfind, unitStop?_eq_none.mpr hnone]
      rfl
    | some i =>
      obtain ⟨hpair, hleast⟩ : [0, 0] <+: bs.drop i ∧ _ :=
        (search.find_eq_some bs [0, 0] i).mp hfind
      have hbefore : ∀ j < i, ¬EndsUnit (bs.drop j) := fun j hlt hj =>
        Nat.not_le.mpr hlt (hleast (endsUnit_iff_pair.mp hj).1)
      have hthird : EndsUnit (bs.drop i) ↔ endsPair bs i := by
        rw [endsUnit_iff_pair, and_iff_right hpair, List.getElem?_drop, endsPair]
      rw [search.unitLength?_of_some hfind, unitStop?_behind hbefore]
      split
      · rename_i hends
        rw [unitStop?_of_endsUnit (hthird.mpr hends)]
        rfl
      · rename_i hgoes
        have hshort := hpair.length_le
        rw [List.length_drop] at hshort
        have hlater := ih _ (by rw [List.length_drop]; simp at hshort; omega) (pos + (i + 2))
          (bs.drop (i + 2)) rfl
        rw [unitStop?_behind (not_endsUnit_in_pair hpair (mt hthird.mp hgoes)), List.drop_drop,
          Nat.add_assoc, ← hlater, Option.map_map]
        congr 1
        funext k
        rw [Function.comp_apply, Nat.add_assoc pos]

theorem findUnit_eq (stream : List UInt8) :
    search.findUnit stream = AvcSyntax.findUnit stream := by
  have hcode := search.find_startCode stream
  rw [findUnit, AvcSyntax.findUnit, scanUnit, ← hcode]
  cases search.find stream [0, 0, 1] with
  | none => rfl
  | some i =>
    have hempty : (stream.drop (i + 3)).isEmpty = decide (stream.length ≤ i + 3) := by
      rw [Bool.eq_iff_iff, List.isEmpty_iff, List.drop_eq_nil_iff, decide_eq_true_iff]
    simp only [Option.map_some, hempty, decide_eq_true_eq, ← search.unitLength?_eq (i + 3)]
    split
    · rfl
    · cases search.unitLength? (stream.drop (i + 3)) <;> rfl

end SubstringSearch

inductive UnitOutcome (stream : List UInt8) : Except NalError (Option UnitSpan) → Prop
  | noCode (h : ¬[0, 0, 1] <:+: stream) : UnitOutcome stream (.ok none)
  | atEnd {i : Nat} (h : IsLeast {i | [0, 0, 1] <+: stream.drop i} i)
      (hend : i + 3 = stream.length) : UnitOutcome stream (.ok none)
  | unit {i stop : Nat} (h : IsLeast {i | [0, 0, 1] <+: stream.drop i} i)
      (hstop : IsLeast {e | i + 3 ≤ e ∧ EndsUnit (stream.drop e)} stop) :
      UnitOutcome stream (.ok (some ⟨i + 3, stop⟩))
  | unended {i : Nat} (h : IsLeast {i | [0, 0, 1] <+: stream.drop i} i)
      (hrest : i + 3 ≠ stream.length) (hnone : ∀ e, i + 3 ≤ e → ¬EndsUnit (stream.drop e)) :
      UnitOutcome stream (.error (.notTerminated (i + 3)))

section Outcomes

variable {stream : List UInt8} {start i : Nat}

theorem unitStop?_drop_eq_some {stop : Nat} :
    unitStop? start (stream.drop start) = some stop ↔
      IsLeast {e | start ≤ e ∧ EndsUnit (stream.drop e)} stop := by
  rw [unitStop?_eq_some, places_drop]

theorem unitStop?_drop_eq_none :
    unitStop? start (stream.drop start) = none ↔
      ∀ e, start ≤ e → ¬EndsUnit (stream.drop e) := by
  rw [unitStop?_eq_none]
  constructor
  · intro h e hle
    obtain ⟨i, rfl⟩ := Nat.exists_eq_add_of_le hle
    rw [← List.drop_drop]
    exact h i
  · intro h i
    rw [List.drop_drop]
    exact h _ (Nat.le_add_right start i)

theorem findUnit_of_noCode (h : ¬[0, 0, 1] <:+: stream) : findUnit stream = .ok none := by
  rw [findUnit, scanUnit, afterStartCode?_eq_none.mpr h]

theorem findUnit_of_code (h : IsLeast {i | [0, 0, 1] <+: stream.drop i} i) :
    findUnit stream =
      if i + 3 = stream.length then .ok none
      else
        match unitStop? (i + 3) (stream.drop (i + 3)) with
        | some stop => .ok (some ⟨i + 3, stop⟩)
        | none => .error (.notTerminated (i + 3)) := by
  have hplace : IsLeast (places ([0, 0, 1] <+: ·) 0 stream) i := (places_zero _ stream).symm ▸ h
  have hstart := afterStartCode?_eq_some.mpr ⟨i, hplace, rfl⟩
  have hlength : i + 3 ≤ stream.length := by
    have hcode := h.1.length_le
    rw [List.length_drop] at hcode
    simp at hcode
    omega
  have hempty : (stream.drop (i + 3)).isEmpty ↔ i + 3 = stream.length := by
    rw [List.isEmpty_iff, List.drop_eq_nil_iff]
    exact ⟨fun hle => Nat.le_antisymm hlength hle, fun heq => heq.ge⟩
  simp only [findUnit, scanUnit, hstart, hempty]
  by_cases hend : i + 3 = stream.length
  · simp only [if_pos hend]
  · simp only [if_neg hend]
    cases unitStop? (i + 3) (stream.drop (i + 3)) <;> rfl

theorem UnitOutcome.findUnit_eq {outcome : Except NalError (Option UnitSpan)}
    (h : UnitOutcome stream outcome) : findUnit stream = outcome := by
  cases h with
  | noCode h => exact findUnit_of_noCode h
  | atEnd h hend => rw [findUnit_of_code h, if_pos hend]
  | @unit i stop h hstop =>
    have hrest : i + 3 ≠ stream.length := by
      have hends := hstop.1.2.length_le
      rw [List.length_drop] at hends
      have hle := hstop.1.1
      omega
    rw [findUnit_of_code h, if_neg hrest, unitStop?_drop_eq_some.mpr hstop]
  | unended h hrest hnone =>
    rw [findUnit_of_code h, if_neg hrest, unitStop?_drop_eq_none.mpr hnone]

theorem unitOutcome_findUnit (stream : List UInt8) : UnitOutcome stream (findUnit stream) := by
  by_cases hcode : [0, 0, 1] <:+: stream
  case neg => exact findUnit_of_noCode hcode ▸ .noCode hcode
  case pos =>
    obtain ⟨j, hj⟩ := infix_iff_drop.mp hcode
    obtain ⟨i, hi⟩ := exists_isLeast_places (p := ([0, 0, 1] <+: ·)) hj 0
    rw [places_zero] at hi
    rw [findUnit_of_code hi]
    split
    · rename_i hend
      exact .atEnd hi hend
    · rename_i hrest
      cases hstop : unitStop? (i + 3) (stream.drop (i + 3)) with
      | some stop => exact .unit hi (unitStop?_drop_eq_some.mp hstop)
      | none => exact .unended hi hrest (unitStop?_drop_eq_none.mp hstop)

end Outcomes

/-- A stream has a unit behind its first start code, up to where the next 0 0 0 or 0 0 1 begins. If
there is no start code or nothing behind it there is none, and a unit that nothing ends is an
error. Any search for bytes leads to this outcome. -/
theorem findUnit_outcome (search : SubstringSearch) (stream : List UInt8) :
    search.findUnit stream = findUnit stream ∧
      ∀ outcome, findUnit stream = outcome ↔ UnitOutcome stream outcome :=
  ⟨search.findUnit_eq stream, fun _ =>
    ⟨fun h => h ▸ unitOutcome_findUnit stream, UnitOutcome.findUnit_eq⟩⟩

/-- A unit of three bytes behind a byte and a start code. Inside it two zero bytes stand before a
byte 2, and behind it three zero bytes that a search for pairs takes as one pair. -/
theorem findUnit_outcome_pairs :
    let stream : List UInt8 := [7, 0, 0, 1, 0, 0, 2, 0, 0, 0, 1]
    SubstringSearch.placewise.findUnit stream = .ok (some ⟨4, 7⟩) ∧
      UnitOutcome stream (.ok (some ⟨4, 7⟩)) := by
  intro stream
  have hunit : findUnit stream = .ok (some ⟨4, 7⟩) := by decide
  obtain ⟨hsearch, houtcome⟩ := findUnit_outcome .placewise stream
  exact ⟨hsearch.trans hunit, (houtcome _).mp hunit⟩

end AvcSyntax

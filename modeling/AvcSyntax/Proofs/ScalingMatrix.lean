import AvcSyntax.Proofs.Bits.Words
import AvcSyntax.ScalingMatrix

/-!
# Scaling lists are read back

A list can be coded in more than one way, for it may stop early or repeat its last value. What
reading yields has no zeros, and holds eights throughout if it stands for the default list; the
code of such a list is read as that list.
-/
namespace AvcSyntax

variable {tail : Bits} {n : Nat}

namespace ScalingList

/-- A list that reading can yield. -/
structure WellFormed (l : ScalingList n) : Prop where
  nonzero : 0 ∉ l.values
  default : l.useDefault = true → l.values = List.replicate n 8

theorem wrappedDelta_bounds (old new : UInt8) :
    -128 ≤ wrappedDelta old new ∧ wrappedDelta old new ≤ 127 := by
  simp only [wrappedDelta, Int.bmod]
  split <;> omega

/-- The difference leads from the old value to the new one. -/
theorem add_wrappedDelta (old new : UInt8) :
    (((old.toNat : Int) + wrappedDelta old new) % 256).toNat.toUInt8 = new := by
  have hnew := new.toNat_lt
  have hmod : ((old.toNat : Int) + wrappedDelta old new) % 256 = new.toNat := by
    simp only [wrappedDelta, Int.bmod]
    split <;> omega
  rw [hmod]
  simp

/-- No other difference in the interval does. -/
theorem wrappedDelta_add (old : UInt8) {delta : Int} (hlow : -128 ≤ delta) (hhigh : delta ≤ 127) :
    wrappedDelta old (((old.toNat : Int) + delta) % 256).toNat.toUInt8 = delta := by
  have hbyte : (((old.toNat : Int) + delta) % 256).toNat < 256 := by omega
  have hnat : (((old.toNat : Int) + delta) % 256).toNat.toUInt8.toNat =
      (((old.toNat : Int) + delta) % 256).toNat := by simpa using hbyte
  simp only [wrappedDelta, Int.bmod, hnat]
  split <;> omega

theorem reads_parseNext (last next : UInt8) :
    Reads (parseNext last) (.se (wrappedDelta last next)) tail next :=
  (Parse.reads_seWithin (wrappedDelta_bounds last next).1
    (wrappedDelta_bounds last next).2).bind_pure (add_wrappedDelta last next)

theorem accepts_parseNext (last : UInt8) :
    Accepts (parseNext last) fun next c => c = .se (wrappedDelta last next) := by
  refine Parse.accepts_seWithin.bind ?_
  rintro delta _ ⟨⟨hlow, hhigh⟩, rfl⟩
  exact Accepts.pure (by rw [Code.append_empty, wrappedDelta_add last hlow hhigh])

/-- The values that are coded, and how often the last of them is repeated behind them. -/
theorem exists_repeats {vs : List UInt8} (h : vs ≠ []) :
    ∃ v coded k, withoutRepeats vs = coded ++ [v] ∧ vs = coded ++ [v] ++ List.replicate k v := by
  obtain ⟨v, hv⟩ : ∃ v, vs.getLast? = some v :=
    ⟨vs.getLast h, List.getLast?_eq_some_getLast h⟩
  have hhead : vs.reverse.head? = some v := by rw [List.head?_reverse, hv]
  obtain ⟨rest, hrest⟩ : ∃ rest, vs.reverse = v :: rest := by
    cases hcases : vs.reverse with
    | nil => simp [hcases] at hhead
    | cons a rest =>
      rw [hcases] at hhead
      exact ⟨rest, by rw [Option.some.inj hhead]⟩
  have hsame : rest.takeWhile (· == v) = List.replicate (rest.takeWhile (· == v)).length v :=
    List.eq_replicate_iff.mpr ⟨rfl, fun b hb => by
      simpa using List.all_eq_true.mp List.all_takeWhile b hb⟩
  refine ⟨v, (rest.dropWhile (· == v)).reverse, (rest.takeWhile (· == v)).length, ?_, ?_⟩
  · simp [withoutRepeats, hv, hrest]
  · have hsplit : vs = (v :: (rest.takeWhile (· == v) ++ rest.dropWhile (· == v))).reverse := by
      rw [List.takeWhile_append_dropWhile, ← hrest, List.reverse_reverse]
    rw [hsplit, hsame]
    simp [List.replicate_succ, ← List.replicate_succ', List.append_assoc]

theorem length_withoutRepeats_le (vs : List UInt8) : (withoutRepeats vs).length ≤ vs.length := by
  by_cases h : vs = []
  · subst h
    exact Nat.le_refl 0
  · obtain ⟨v, coded, k, hcoded, hvs⟩ := exists_repeats h
    rw [hcoded, hvs]
    simp

theorem withoutRepeats_ne_nil {vs : List UInt8} (h : vs ≠ []) : withoutRepeats vs ≠ [] := by
  obtain ⟨v, coded, k, hcoded, -⟩ := exists_repeats h
  simp [hcoded]

/-- The values that are coded and the repetitions of the last of them. -/
theorem withoutRepeats_append (vs : List UInt8) (d : UInt8) :
    withoutRepeats vs ++ List.replicate (vs.length - (withoutRepeats vs).length)
      ((withoutRepeats vs).getLastD d) = vs := by
  by_cases h : vs = []
  · subst h
    rfl
  · obtain ⟨v, coded, k, hcoded, hvs⟩ := exists_repeats h
    have hcount : vs.length - (coded ++ [v]).length = k := by
      rw [hvs, List.length_append, List.length_replicate, Nat.add_sub_cancel_left]
    rw [hcoded, hcount, List.getLastD_concat]
    exact hvs.symm

/-- Values and the repetitions of the last of them behind a value that is not zero. -/
theorem reads_parseAfter {last : UInt8} {coded : List UInt8} {k : Nat}
    {vs : { vs : List UInt8 // vs.length = n }} (hcoded : 0 ∉ coded)
    (hvs : vs.val = coded ++ List.replicate k (coded.getLastD last)) :
    Reads (parseAfter n last) (.concat ((deltas (0 < k) last coded).map Code.se)) tail vs := by
  have hn := vs.property
  rw [hvs, List.length_append, List.length_replicate] at hn
  induction coded generalizing n last tail with
  | nil =>
    obtain rfl : k = n := by simpa using hn
    cases k with
    | zero =>
      obtain rfl : vs = ⟨[], rfl⟩ := Subtype.ext hvs
      exact Reads.pure _
    | succ k =>
      obtain rfl : vs = ⟨List.replicate (k + 1) last, by simp⟩ := Subtype.ext hvs
      refine (reads_parseNext last 0).bind ?_
      rw [if_pos rfl]
      exact Reads.pure _
  | cons v coded ih =>
    obtain ⟨hv, hcoded⟩ : v ≠ 0 ∧ 0 ∉ coded := by
      simpa [eq_comm] using hcoded
    cases n with
    | zero => simp at hn
    | succ n =>
      obtain ⟨_, hlength⟩ := vs
      subst hvs
      refine (reads_parseNext last v).bind ?_
      rw [if_neg hv]
      have hvs : (coded ++ List.replicate k (coded.getLastD v)).length = n := by
        simpa using hlength
      have hrest : Reads (parseAfter n v) (.concat ((deltas (0 < k) v coded).map Code.se)) tail
          ⟨_, hvs⟩ := ih hcoded rfl (by simpa using hvs)
      exact hrest.bind_pure (Subtype.ext (by simp [List.getLast?_cons]))

/-- A way to code a list by its values: some of them, and behind them as many repetitions of the
last one as there are more. -/
structure Coding (l : ScalingList n) where
  coded : List UInt8
  repeats : Nat
  ne_nil : coded ≠ []
  nonzero : 0 ∉ coded
  values : l.values = coded ++ List.replicate repeats (coded.getLastD 8)
  useDefault : l.useDefault = false

/-- The code of the values, and the mark that ends the list if others follow. -/
def Coding.code {l : ScalingList n} (k : l.Coding) : Code :=
  .concat ((deltas (0 < k.repeats) 8 k.coded).map Code.se)

theorem Coding.reads_code {l : ScalingList (n + 1)} (k : l.Coding) :
    Reads (parse (n + 1)) k.code tail l := by
  obtain ⟨values, hlength, useDefault⟩ := l
  obtain ⟨coded, repeats, hne, hnonzero, hvalues, hdefault⟩ := k
  simp only at hvalues hdefault
  subst hvalues hdefault
  cases coded with
  | nil => exact absurd rfl hne
  | cons first more =>
    obtain ⟨hfirst, hmore⟩ : first ≠ 0 ∧ 0 ∉ more := by simpa [eq_comm] using hnonzero
    have hn : (more ++ List.replicate repeats (more.getLastD first)).length = n := by
      simpa using hlength
    refine (reads_parseNext 8 first).bind ?_
    rw [if_neg hfirst]
    have hreads : Reads (parseAfter n first)
        (.concat ((deltas (0 < repeats) first more).map Code.se)) tail ⟨_, hn⟩ :=
      reads_parseAfter hmore rfl
    exact hreads.bind_pure (by simp [List.getLast?_cons])

/-- How many repetitions of the last value end the list. -/
def repeats (l : ScalingList n) : Nat := l.values.length - (withoutRepeats l.values).length

/-- The coding that stops as early as it can. -/
def shortened (l : ScalingList (n + 1)) (hnonzero : 0 ∉ l.values)
    (hdefault : l.useDefault = false) : l.Coding where
  coded := withoutRepeats l.values
  repeats := l.repeats
  ne_nil := withoutRepeats_ne_nil (List.ne_nil_of_length_eq_add_one l.length_values)
  nonzero hzero := by
    rw [← withoutRepeats_append l.values 8] at hnonzero
    exact hnonzero (List.mem_append_left _ hzero)
  values := (withoutRepeats_append l.values 8).symm
  useDefault := hdefault

theorem code_eq {l : ScalingList (n + 1)} (hnonzero : 0 ∉ l.values)
    (hdefault : l.useDefault = false) : l.code = (l.shortened hnonzero hdefault).code := by
  have hcontains : ¬l.values.contains 0 = true := by simpa using hnonzero
  rw [code, hdefault, if_neg Bool.false_ne_true, if_neg hcontains]
  simp only [Coding.code, shortened, repeats, Nat.sub_pos_iff_lt]

theorem reads_code {l : ScalingList (n + 1)} (h : l.WellFormed) :
    Reads (parse (n + 1)) l.code tail l := by
  cases hdefault : l.useDefault with
  | true =>
    obtain rfl : l = flat (n + 1) 8 true := by
      obtain ⟨values, hlength, useDefault⟩ := l
      obtain rfl : useDefault = true := hdefault
      obtain rfl := h.default rfl
      rfl
    apply (reads_parseNext 8 0).last
    rw [if_pos rfl]
  | false =>
    rw [code_eq h.nonzero hdefault]
    exact Coding.reads_code _

/-- Whatever is read are values and the repetitions of the last of them. -/
theorem accepts_parseAfter (last : UInt8) :
    Accepts (parseAfter n last) fun vs c => ∃ coded k, 0 ∉ coded ∧
      vs.val = coded ++ List.replicate k (coded.getLastD last) ∧
      c = .concat ((deltas (0 < k) last coded).map Code.se) := by
  induction n generalizing last with
  | zero => exact Accepts.pure ⟨[], 0, by simp, rfl, rfl⟩
  | succ n ih =>
    refine (accepts_parseNext last).bind ?_
    rintro next _ rfl
    refine Accepts.ite (fun hnext => ?_) fun hnext => ?_
    · subst hnext
      exact Accepts.pure ⟨[], n + 1, by simp, rfl, rfl⟩
    · refine (ih next).bind ?_
      rintro ⟨vs, hlength⟩ _ ⟨coded, k, hcoded, hvs, rfl⟩
      refine Accepts.pure ⟨next :: coded, k, ?_, ?_, ?_⟩
      · simpa [eq_comm, hnext] using hcoded
      · simp only at hvs
        simp [hvs, List.getLast?_cons]
      · rw [Code.append_empty]
        rfl

theorem accepts_codings : Accepts (parse (n + 1)) fun l c =>
    (l = flat (n + 1) 8 true ∧ c = .se (-8)) ∨ ∃ k : l.Coding, c = k.code := by
  refine (accepts_parseNext 8).bind ?_
  rintro first _ rfl
  refine Accepts.ite (fun hfirst => ?_) fun hfirst => ?_
  · subst hfirst
    exact Accepts.pure (.inl ⟨rfl, Code.append_empty _⟩)
  · refine (accepts_parseAfter first).bind ?_
    rintro ⟨vs, hlength⟩ _ ⟨coded, k, hcoded, hvs, rfl⟩
    refine Accepts.pure (.inr ⟨⟨first :: coded, k, by simp, ?_, ?_, rfl⟩, ?_⟩)
    · simpa [eq_comm, hfirst] using hcoded
    · simp only at hvs
      simp [hvs, List.getLast?_cons]
    · rw [Code.append_empty]
      rfl

theorem Coding.wellFormed {l : ScalingList n} (k : l.Coding) : l.WellFormed := by
  refine ⟨?_, fun hdefault => ?_⟩
  · rw [k.values]
    intro hzero
    rcases List.mem_append.mp hzero with hcoded | hrepeat
    · exact k.nonzero hcoded
    · have hlast := (List.mem_replicate.mp hrepeat).2
      rw [List.getLastD_eq_getLast?, List.getLast?_eq_some_getLast k.ne_nil, Option.getD_some]
        at hlast
      exact k.nonzero (hlast ▸ List.getLast_mem k.ne_nil)
  · rw [k.useDefault] at hdefault
    cases hdefault

theorem accepts_parse : Accepts (parse (n + 1)) fun l _ => l.WellFormed := by
  refine accepts_codings.mono ?_
  rintro l _ (⟨rfl, -⟩ | ⟨k, -⟩)
  · exact ⟨by simp [flat], fun _ => rfl⟩
  · exact k.wellFormed

theorem length_deltas_le (stops : Bool) (last : UInt8) (vs : List UInt8) :
    (deltas stops last vs).length ≤ vs.length + stops.toNat := by
  induction vs generalizing last with
  | nil => cases stops <;> simp [deltas]
  | cons v vs ih =>
    have := ih v
    simp only [deltas, List.length_cons]
    omega

theorem atMost_code (l : ScalingList n) : l.code.AtMost (65 * (n + 1)) := by
  unfold code
  split
  · exact (Code.atMost_se _).mono (by omega)
  split
  · exact (Code.atMost_fail _).mono (Nat.zero_le _)
  · have hdeltas := length_deltas_le ((withoutRepeats l.values).length < l.values.length) 8
      (withoutRepeats l.values)
    have hvalues := length_withoutRepeats_le l.values
    have hone := Bool.toNat_le (decide ((withoutRepeats l.values).length < l.values.length))
    rw [l.length_values] at hvalues
    apply (Code.AtMost.concat fun delta _ => Code.atMost_se delta).mono
    rw [Nat.mul_comm]
    exact Nat.mul_le_mul_left 65 (by omega)

end ScalingList

namespace ScalingSlots

/-- What reading puts into slots of which the first `count` are coded. -/
structure WellFormed (slots : ScalingSlots n) (count : Nat) : Prop where
  lists : ∀ o ∈ slots.toList, ∀ l ∈ o, l.WellFormed
  absent : ∀ i (h : i < 6), count ≤ i → slots[i] = none

theorem ofList_take {slots : ScalingSlots n} {count : Nat} (h : slots.WellFormed count) :
    ofList (slots.toList.take count) = slots := by
  refine Vector.ext fun i hi => ?_
  rw [ofList, Vector.getElem_ofFn]
  by_cases hcount : i < count
  · simp [hcount, hi]
  · rw [h.absent i hi (Nat.not_lt.mp hcount)]
    simp [hcount]

theorem wellFormed_ofList {lists : List (Option (ScalingList n))}
    (h : ∀ o ∈ lists, ∀ l ∈ o, l.WellFormed) : (ofList lists).WellFormed lists.length := by
  refine ⟨fun o ho l hl => ?_, fun i hi hlength => ?_⟩
  · obtain ⟨i, hi, rfl⟩ := List.getElem_of_mem ho
    simp only [ofList, Vector.getElem_toList, Vector.getElem_ofFn, Option.mem_def,
      Option.join_eq_some_iff] at hl
    exact h _ (List.mem_of_getElem? hl) l rfl
  · rw [ofList, Vector.getElem_ofFn, List.getElem?_eq_none hlength]
    rfl

theorem WellFormed.mono {slots : ScalingSlots n} {count count' : Nat} (h : slots.WellFormed count)
    (hcount : min count 6 = min count' 6) : slots.WellFormed count' :=
  ⟨h.lists, fun i hi hle => h.absent i hi (by omega)⟩

end ScalingSlots

namespace ScalingMatrix

/-- A matrix that reading can yield if the first `count` lists are coded. -/
structure WellFormed (m : ScalingMatrix) (count : Nat) : Prop where
  count_le : count ≤ 12
  lists4x4 : m.lists4x4.WellFormed count
  lists8x8 : m.lists8x8.WellFormed (count - 6)

theorem reads_code {m : ScalingMatrix} {count : Nat} (h : m.WellFormed count) :
    Reads (parse count) (m.code count) tail m := by
  have hcount := h.count_le
  have hmatrix : ({ lists4x4 := .ofList (m.lists4x4.toList.take count)
                    lists8x8 := .ofList (m.lists8x8.toList.take (count - 6)) } : ScalingMatrix) =
      m := by
    rw [ScalingSlots.ofList_take h.lists4x4, ScalingSlots.ofList_take h.lists8x8]
  have hsmall : ∀ o ∈ m.lists4x4.toList.take count, ∀ l ∈ o, l.WellFormed :=
    fun o ho => h.lists4x4.lists o (List.mem_of_mem_take ho)
  have hlarge : ∀ o ∈ m.lists8x8.toList.take (count - 6), ∀ l ∈ o, l.WellFormed :=
    fun o ho => h.lists8x8.lists o (List.mem_of_mem_take ho)
  have hlength : (m.lists4x4.toList.take count).length = min count 6 := by simp
  have hlength' : (m.lists8x8.toList.take (count - 6)).length = count - 6 := by
    simp
    omega
  rw [code, Code.inRange_eq_empty (by omega) (by omega), Code.append_assoc]
  generalize m.lists4x4.toList.take count = small at hsmall hlength hmatrix
  generalize m.lists8x8.toList.take (count - 6) = large at hlarge hlength' hmatrix
  refine (Parse.reads_inRange (by omega) (by omega)).bind ?_
  rw [← hlength, ← hlength']
  refine (Parse.reads_times fun o ho _ => Parse.reads_optional fun l hl =>
    ScalingList.reads_code (hsmall o ho l hl)).bind ?_
  exact (Parse.reads_times fun o ho _ => Parse.reads_optional fun l hl =>
    ScalingList.reads_code (hlarge o ho l hl)).bind_pure hmatrix

theorem accepts_parse (count : Nat) : Accepts (parse count) fun m _ => m.WellFormed count := by
  refine Parse.accepts_inRange.bind ?_
  rintro _ _ ⟨⟨_, hcount⟩, -⟩
  refine (Parse.accepts_times_mem (Parse.accepts_optional_mem ScalingList.accepts_parse) _).bind ?_
  rintro small _ ⟨hsmall, hlists⟩
  refine (Parse.accepts_times_mem (Parse.accepts_optional_mem ScalingList.accepts_parse) _).bind ?_
  rintro large _ ⟨hlarge, hlists'⟩
  refine Accepts.pure ⟨by omega, ?_, ?_⟩
  · exact (ScalingSlots.wellFormed_ofList hlists).mono (by omega)
  · exact hlarge ▸ ScalingSlots.wellFormed_ofList hlists'

theorem atMost_code (m : ScalingMatrix) (count : Nat) : (m.code count).AtMost 32000 := by
  have hslot {n : Nat} (o : Option (ScalingList n)) :
      (Code.optional ScalingList.code o).AtMost (1 + 65 * (n + 1)) :=
    Code.AtMost.optional fun l _ => l.atMost_code
  have hsmall := Code.AtMost.concat fun o (_ : o ∈ m.lists4x4.toList.take count) => hslot o
  have hlarge := Code.AtMost.concat fun o (_ : o ∈ m.lists8x8.toList.take (count - 6)) => hslot o
  apply (((Code.atMost_inRange _ _ _ _).append hsmall).append hlarge).mono
  simp only [List.length_take, Vector.length_toList]
  omega

end ScalingMatrix

end AvcSyntax

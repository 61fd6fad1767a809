import AvcSyntax.Proofs.Nal.UnitSearch

/-!
# Units are found again in a byte stream

A unit is framable if it does not end in a zero byte and holds no start code, nor two zero bytes
before a third. A stream of framable units is split into just these units, however many zero bytes
stand between them and whatever without a start code stands in front. Conversely whatever a stream
is split into is framable, for the zero bytes in front of a start code belong to none of the units,
and stands in the stream right behind start codes.
-/
namespace AvcSyntax

structure Framable (u : List UInt8) : Prop where
  last : ∃ b, u.getLast? = some b ∧ b ≠ 0
  codeFree : ∀ x : UInt8, x ≤ 1 → ¬[0, 0, x] <:+: u

theorem Framable.ne_nil {u : List UInt8} (h : Framable u) : u ≠ [] := by
  obtain ⟨b, hb, -⟩ := h.last
  rintro rfl
  cases hb

theorem Framable.getLast?_ne {u : List UInt8} (h : Framable u) : u.getLast? ≠ some 0 := by
  obtain ⟨b, hb, hne⟩ := h.last
  rw [hb]
  exact fun heq => hne (Option.some.inj heq)

theorem Framable.of_last {u : List UInt8} (hne : u ≠ []) (hlast : u.getLast? ≠ some 0)
    (hfree : ∀ x : UInt8, x ≤ 1 → ¬[0, 0, x] <:+: u) : Framable u := by
  refine ⟨?_, hfree⟩
  cases hb : u.getLast? with
  | none => exact absurd (List.getLast?_eq_none_iff.mp hb) hne
  | some b => exact ⟨b, rfl, fun hzero => hlast (hzero ▸ hb)⟩

section Joining

/-- The search for the end passes over what holds no start code. -/
theorem unitStop?_append {u : List UInt8} (hlast : u.getLast? ≠ some 0)
    (hfree : ∀ x : UInt8, x ≤ 1 → ¬[0, 0, x] <:+: u) (pos : Nat) (rest : List UInt8) :
    unitStop? pos (u ++ rest) = unitStop? (pos + u.length) rest := by
  have hnone : ∀ i < u.length, ¬EndsUnit ((u ++ rest).drop i) := by
    intro i hi hends
    obtain ⟨x, hx, hfound⟩ := endsUnit_iff_exists.mp hends
    rw [List.drop_append_of_le_length hi.le] at hfound
    rcases Nat.lt_or_ge (u.drop i).length 3 with hshort | hlong
    · -- What is left of the unit is zero bytes, the last of which is its last byte.
      have hpair : [0, 0] <+: u.drop i ++ rest := .trans ⟨[x], rfl⟩ hfound
      have hzeros : u.drop i <+: [0, 0] :=
        List.prefix_of_prefix_length_le (List.prefix_append _ _) hpair (Nat.le_of_lt_succ hshort)
      have hne : u.drop i ≠ [] := by
        rw [Ne, List.drop_eq_nil_iff]
        omega
      have hb : (u.drop i).getLast hne = 0 := by
        simpa using hzeros.subset (List.getLast_mem hne)
      have hlastLeft : (u.drop i).getLast? = u.getLast? := by
        rw [List.getLast?_drop, if_neg (Nat.not_le.mpr hi)]
      rw [← hlastLeft, List.getLast?_eq_some_getLast hne, hb] at hlast
      exact hlast rfl
    · have hinside : [0, 0, x] <+: u.drop i :=
        (List.isPrefix_append_of_length (by exact hlong)).mp hfound
      exact hfree x hx (infix_iff_drop.mpr ⟨i, hinside⟩)
  rw [unitStop?_behind hnone, List.drop_left]

theorem unitsOf_of_nothing {stream : List UInt8} (h : scanUnit stream = .nothing) :
    unitsOf stream = [] := by
  rw [unitsOf]
  split <;> simp_all

theorem unitsOf_of_unit {stream : List UInt8} {span : UnitSpan} (h : scanUnit stream = .unit span)
    (hne : span.isEmpty = false) :
    unitsOf stream = span.slice stream :: unitsOf (stream.drop span.stop) := by
  rw [unitsOf]
  split <;> simp_all

theorem unitsOf_of_unended {stream : List UInt8} {start : Nat}
    (h : scanUnit stream = .unended start) (hne : dropTrailingZeros (stream.drop start) ≠ []) :
    unitsOf stream = [dropTrailingZeros (stream.drop start)] := by
  rw [unitsOf]
  split <;> simp_all

theorem dropTrailingZeros_eq_self {bs : List UInt8} (h : bs.getLast? ≠ some 0) :
    dropTrailingZeros bs = bs := by
  rw [← List.head?_reverse] at h
  rw [dropTrailingZeros]
  cases hreverse : bs.reverse with
  | nil =>
    rw [List.reverse_eq_nil_iff.mp hreverse]
    rfl
  | cons b rest =>
    rw [hreverse] at h
    have hb : ¬(b == 0) = true := by simpa using h
    rw [List.dropWhile_cons, if_neg hb, ← hreverse, List.reverse_reverse]

theorem getLast?_dropTrailingZeros (bs : List UInt8) :
    (dropTrailingZeros bs).getLast? ≠ some 0 := by
  intro h
  rw [dropTrailingZeros, List.getLast?_reverse] at h
  have hhead := List.head?_dropWhile_not (· == (0 : UInt8)) bs.reverse
  rw [h] at hhead
  simp at hhead

theorem dropTrailingZeros_append_zeros {bs : List UInt8} (h : bs.getLast? ≠ some 0)
    (zeros : Nat) : dropTrailingZeros (bs ++ List.replicate zeros 0) = bs := by
  have hzeros : ∀ b ∈ List.replicate zeros (0 : UInt8), (b == 0) = true := by simp
  rw [dropTrailingZeros, List.reverse_append, List.reverse_replicate,
    List.dropWhile_append_of_pos hzeros]
  exact dropTrailingZeros_eq_self h

/-- Zero bytes behind bytes without a start code do not make one. -/
theorem not_infix_append_zeros {bs : List UInt8} (h : ¬[0, 0, 1] <:+: bs) (zeros : Nat) :
    ¬[0, 0, 1] <:+: bs ++ List.replicate zeros 0 := by
  induction zeros with
  | zero => rwa [List.replicate_zero, List.append_nil]
  | succ zeros ih =>
    rw [List.replicate_succ', ← List.append_assoc, List.infix_concat_iff]
    rintro (hsuffix | hinfix)
    · have hlast := hsuffix.getLast (List.cons_ne_nil _ _)
      simp at hlast
    · exact ih hinfix

/-- The first start code is found behind bytes that hold none: an earlier one would have to end
in one of its two zero bytes. -/
theorem afterStartCode?_append {front : List UInt8} (h : ¬[0, 0, 1] <:+: front) (pos : Nat)
    (rest : List UInt8) :
    afterStartCode? pos (front ++ ([0, 0, 1] ++ rest)) = some (pos + front.length + 3) := by
  induction front generalizing pos with
  | nil => rfl
  | cons b front ih =>
    have hfront := ih (fun hlater => h (hlater.trans (List.suffix_cons b front).isInfix)) (pos + 1)
    rw [List.cons_append, afterStartCode?, if_neg, hfront, List.length_cons]
    · congr 1
      omega
    · rintro ⟨rfl, hnext⟩
      cases front with
      | nil => simp at hnext
      | cons c front =>
        cases front with
        | nil => simp at hnext
        | cons d front =>
          obtain ⟨rfl, rfl⟩ : c = 0 ∧ d = 1 := by simpa using hnext
          exact h (List.IsPrefix.isInfix ⟨front, rfl⟩)

/-- The search for the end of a unit behind the first start code begins with what follows the
unit. -/
theorem scanUnit_behind_startCode {front u : List UInt8} (hfront : ¬[0, 0, 1] <:+: front)
    (hu : Framable u) (rest : List UInt8) :
    scanUnit (front ++ ([0, 0, 1] ++ (u ++ rest))) =
      match unitStop? (front.length + 3 + u.length) rest with
      | some stop => .unit ⟨front.length + 3, stop⟩
      | none => .unended (front.length + 3) := by
  have hstart := afterStartCode?_append hfront 0 (u ++ rest)
  rw [Nat.zero_add] at hstart
  have hdrop : (front ++ ([0, 0, 1] ++ (u ++ rest))).drop (front.length + 3) = u ++ rest := by
    rw [← List.drop_drop, List.drop_left]
    rfl
  have hempty : (u ++ rest).isEmpty = false := by simp [hu.ne_nil]
  simp only [scanUnit, hstart, hdrop, hempty, unitStop?_append hu.getLast?_ne hu.codeFree]
  rfl

/-- A stream with the given number of zero bytes in front of the start code of each unit. -/
def padded (units : List (Nat × List UInt8)) : List UInt8 :=
  units.flatMap fun p => List.replicate p.1 0 ++ ([0, 0, 1] ++ p.2)

theorem padded_cons (zeros : Nat) (u : List UInt8) (units : List (Nat × List UInt8)) :
    padded ((zeros, u) :: units) =
      List.replicate zeros 0 ++ ([0, 0, 1] ++ (u ++ padded units)) := by
  simp only [padded, List.flatMap_cons, List.append_assoc]

theorem joinUnits_eq_padded (units : List (List UInt8)) :
    joinUnits units = padded (units.map (1, ·)) := by
  rw [joinUnits, padded, List.flatMap_map]
  rfl

/-- Two zero bytes in front of a zero byte or of the last byte of a start code end a unit. -/
theorem unitStop?_padded (pos zeros : Nat) (units : List (Nat × List UInt8)) :
    unitStop? pos (padded units ++ List.replicate zeros 0) =
      if units = [] ∧ zeros ≤ 2 then none else some pos := by
  match units with
  | [] =>
    match zeros with
    | 0 | 1 | 2 => rfl
    | zeros + 3 => simp [padded, unitStop?, List.replicate_succ]
  | (0, u) :: units | (1, u) :: units => simp [padded_cons, unitStop?]
  | (more + 2, u) :: units =>
    cases more <;> simp [padded_cons, unitStop?, List.replicate_succ]

/-- Framable units are found between zero bytes, whatever without a start code stands in front
of them. -/
theorem unitsOf_padded (units : List (Nat × List UInt8)) (h : ∀ p ∈ units, Framable p.2)
    {front : List UInt8} (hfront : ¬[0, 0, 1] <:+: front) (zeros : Nat) :
    unitsOf (front ++ (padded units ++ List.replicate zeros 0)) = units.map Prod.snd := by
  induction units generalizing front with
  | nil =>
    have hstart : afterStartCode? 0 (front ++ List.replicate zeros 0) = none :=
      afterStartCode?_eq_none.mpr (not_infix_append_zeros hfront zeros)
    exact unitsOf_of_nothing (by simp only [scanUnit, padded, List.flatMap_nil, List.nil_append,
      hstart])
  | cons p units ih =>
    obtain ⟨gap, u⟩ := p
    obtain ⟨hu, hunits⟩ := List.forall_mem_cons.mp h
    -- The zero bytes in front of the start code count as bytes in front of the stream.
    obtain ⟨lead, hlead⟩ : ∃ lead, lead = front ++ List.replicate gap 0 := ⟨_, rfl⟩
    obtain ⟨rest, hrest⟩ : ∃ rest, rest = padded units ++ List.replicate zeros 0 := ⟨_, rfl⟩
    have hstream : front ++ (padded ((gap, u) :: units) ++ List.replicate zeros 0) =
        lead ++ ([0, 0, 1] ++ (u ++ rest)) := by
      simp only [padded_cons, hlead, hrest, List.append_assoc]
    have hscan := scanUnit_behind_startCode (hlead ▸ not_infix_append_zeros hfront gap) hu rest
    have hdrop : (lead ++ ([0, 0, 1] ++ (u ++ rest))).drop (lead.length + 3) = u ++ rest := by
      rw [← List.drop_drop, List.drop_left]
      rfl
    rw [hstream, List.map_cons]
    rw [hrest, unitStop?_padded, ← hrest] at hscan
    by_cases hlast : units = [] ∧ zeros ≤ 2
    · rw [if_pos hlast] at hscan
      obtain ⟨rfl, -⟩ := hlast
      have htrimmed : dropTrailingZeros (u ++ rest) = u := by
        rw [hrest]
        exact dropTrailingZeros_append_zeros hu.getLast?_ne zeros
      rw [unitsOf_of_unended hscan (by rw [hdrop, htrimmed]; exact hu.ne_nil), hdrop, htrimmed,
        List.map_nil]
    · rw [if_neg hlast] at hscan
      have hslice : UnitSpan.slice ⟨lead.length + 3, lead.length + 3 + u.length⟩
          (lead ++ ([0, 0, 1] ++ (u ++ rest))) = u := by
        rw [UnitSpan.slice, UnitSpan.length, hdrop, Nat.add_sub_cancel_left, List.take_left]
      have hne : UnitSpan.isEmpty ⟨lead.length + 3, lead.length + 3 + u.length⟩ = false := by
        simp [UnitSpan.isEmpty, hu.ne_nil]
      rw [unitsOf_of_unit hscan hne, hslice, ← List.drop_drop, hdrop, List.drop_left, hrest]
      exact congrArg (u :: ·) (ih hunits (by simp : ¬[0, 0, 1] <:+: ([] : List UInt8)))

theorem unitsOf_joinUnits {units : List (List UInt8)} (h : ∀ u ∈ units, Framable u) :
    unitsOf (joinUnits units) = units := by
  have hpadded := unitsOf_padded (units.map (1, ·)) (by simpa using h)
    (by simp : ¬[0, 0, 1] <:+: ([] : List UInt8)) 0
  rw [List.replicate_zero, List.append_nil, List.nil_append, ← joinUnits_eq_padded] at hpadded
  rw [hpadded, List.map_map]
  exact List.map_id units

end Joining

section Splitting

/-- The search for the end stops behind a byte that is not zero, since a zero byte would make for an
end in front of it. -/
theorem getLast?_of_unitStop? {pos stop : Nat} {bs : List UInt8}
    (h : unitStop? pos bs = some stop) : (bs.take (stop - pos)).getLast? ≠ some 0 := by
  obtain ⟨⟨i, rfl, hends⟩, hleast⟩ := unitStop?_eq_some.mp h
  rw [Nat.add_sub_cancel_left]
  intro hlast
  match i with
  | 0 => simp at hlast
  | i + 1 =>
    have hi : i < bs.length := by
      have hlength := hends.length_le
      rw [List.length_drop] at hlength
      omega
    rw [List.take_succ_eq_append_getElem hi, List.getLast?_concat, Option.some.injEq] at hlast
    have hearlier : EndsUnit (bs.drop i) := by
      rw [List.drop_eq_getElem_cons hi, hlast]
      exact .inl (List.cons_prefix_cons.mpr ⟨rfl, (endsUnit_iff_pair.mp hends).1⟩)
    have hle : pos + (i + 1) ≤ pos + i := hleast ⟨i, rfl, hearlier⟩
    omega

theorem scanUnit_eq_unit {stream : List UInt8} {span : UnitSpan}
    (h : scanUnit stream = .unit span) :
    afterStartCode? 0 stream = some span.start ∧ stream.drop span.start ≠ [] ∧
      unitStop? span.start (stream.drop span.start) = some span.stop := by
  simp only [scanUnit] at h
  split at h
  · cases h
  · rename_i start hstart
    split at h
    · cases h
    · rename_i hrest
      split at h
      · rename_i stop hstop
        obtain rfl := UnitScan.unit.inj h
        exact ⟨hstart, by simpa using hrest, hstop⟩
      · cases h

theorem scanUnit_eq_unended {stream : List UInt8} {start : Nat}
    (h : scanUnit stream = .unended start) :
    afterStartCode? 0 stream = some start ∧ unitStop? start (stream.drop start) = none := by
  simp only [scanUnit] at h
  split at h
  · cases h
  · rename_i found hstart
    split at h
    · cases h
    · split at h
      · cases h
      · rename_i hstop
        obtain rfl := UnitScan.unended.inj h
        exact ⟨hstart, hstop⟩

/-- Bytes in front of the end of a unit hold no start code and no three zero bytes. -/
theorem codeFree_of_unitStop? {pos : Nat} {bs v : List UInt8} (hv : v <+: bs)
    (hstop : ∀ stop, unitStop? pos bs = some stop → pos + v.length ≤ stop) {x : UInt8}
    (hx : x ≤ 1) : ¬[0, 0, x] <:+: v := by
  intro h
  obtain ⟨i, hi⟩ := infix_iff_drop.mp h
  have hends : EndsUnit (bs.drop i) := endsUnit_iff_exists.mpr ⟨x, hx, hi.trans (hv.drop i)⟩
  obtain ⟨stop, hleast⟩ := exists_isLeast_places hends pos
  have hbefore : stop ≤ pos + i := hleast.2 ⟨i, rfl, hends⟩
  have hbehind := hstop stop (unitStop?_eq_some.mpr hleast)
  have hlength : 3 ≤ (v.drop i).length := hi.length_le
  rw [List.length_drop] at hlength
  omega

theorem dropTrailingZeros_isPrefix (bs : List UInt8) : dropTrailingZeros bs <+: bs := by
  have hsuffix := (List.dropWhile_suffix (· == (0 : UInt8)) (l := bs.reverse)).reverse
  rwa [List.reverse_reverse] at hsuffix

theorem framable_of_mem_unitsOf {stream u : List UInt8} (h : u ∈ unitsOf stream) :
    Framable u := by
  fun_induction unitsOf stream with
  | case1 => cases h
  | case2 stream span hscan later hempty ih => exact ih h
  | case3 stream span hscan later hempty ih =>
    obtain ⟨-, hrest, hstop⟩ := scanUnit_eq_unit hscan
    have hle := pos_le_of_unitStop? hstop
    rcases List.mem_cons.mp h with rfl | hlater
    · refine .of_last ?_ (getLast?_of_unitStop? hstop) fun x hx => ?_
      · have hlength : span.length ≠ 0 := by
          simp only [UnitSpan.isEmpty, beq_iff_eq] at hempty
          rw [UnitSpan.length]
          omega
        simp only [UnitSpan.slice, ne_eq, List.take_eq_nil_iff, hlength, hrest, or_self,
          not_false_iff]
      · have hend : ∀ stop, unitStop? span.start (stream.drop span.start) = some stop →
            span.start + (span.slice stream).length ≤ stop := by
          intro stop h
          obtain rfl := Option.some.inj (hstop.symm.trans h)
          rw [UnitSpan.slice, UnitSpan.length, List.length_take]
          omega
        exact codeFree_of_unitStop? (List.take_prefix _ _) hend hx
    · exact ih hlater
  | case4 => cases h
  | case5 stream start hscan last hempty =>
    obtain ⟨-, hstop⟩ := scanUnit_eq_unended hscan
    obtain rfl := List.mem_singleton.mp h
    refine .of_last (by simpa using hempty) (getLast?_dropTrailingZeros _) fun x hx => ?_
    have hend : ∀ stop, unitStop? start (stream.drop start) = some stop →
        start + (dropTrailingZeros (stream.drop start)).length ≤ stop := by simp [hstop]
    exact codeFree_of_unitStop? (dropTrailingZeros_isPrefix _) hend hx

theorem last_of_mem_unitsOf {stream u : List UInt8} (h : u ∈ unitsOf stream) :
    ∃ b, u.getLast? = some b ∧ b ≠ 0 := (framable_of_mem_unitsOf h).last

/-- The units of a stream in order, each right behind a start code and apart from the others. -/
inductive PlacedIn : List (List UInt8) → List UInt8 → Prop
  | nil (rest : List UInt8) : PlacedIn [] rest
  | cons {units : List (List UInt8)} {rest : List UInt8} (gap u : List UInt8)
      (h : PlacedIn units rest) : PlacedIn (u :: units) (gap ++ ([0, 0, 1] ++ (u ++ rest)))

namespace PlacedIn

theorem behind {units : List (List UInt8)} {stream : List UInt8} (h : PlacedIn units stream)
    (front : List UInt8) : PlacedIn units (front ++ stream) := by
  cases h with
  | nil => exact .nil _
  | cons gap u h => exact List.append_assoc front gap _ ▸ .cons (front ++ gap) u h

/-- Units that are not empty take four bytes each, with their start codes. -/
theorem length_le {units : List (List UInt8)} {stream : List UInt8} (h : PlacedIn units stream)
    (hne : ∀ u ∈ units, u ≠ []) : 4 * units.length ≤ stream.length := by
  induction h with
  | nil => exact Nat.zero_le _
  | cons gap u h ih =>
    obtain ⟨hu, hunits⟩ := List.forall_mem_cons.mp hne
    have hlength := List.length_pos_iff.mpr hu
    have hrest := ih hunits
    simp only [List.length_cons, List.length_append, List.length_nil]
    omega

end PlacedIn

theorem exists_gap_of_afterStartCode? {pos start : Nat} {bs : List UInt8}
    (h : afterStartCode? pos bs = some start) :
    ∃ gap, bs = gap ++ ([0, 0, 1] ++ bs.drop (start - pos)) := by
  obtain ⟨e, ⟨⟨i, rfl, rest, hrest⟩, -⟩, rfl⟩ := afterStartCode?_eq_some.mp h
  have hstart : pos + i + 3 - pos = i + 3 := by omega
  have hdrop : bs.drop (i + 3) = rest := by
    rw [← List.drop_drop, ← hrest]
    rfl
  exact ⟨bs.take i, by rw [hstart, hdrop, hrest, List.take_append_drop]⟩

theorem placedIn_unitsOf (stream : List UInt8) : PlacedIn (unitsOf stream) stream := by
  fun_induction unitsOf stream with
  | case1 => exact .nil _
  | case2 stream span hscan later hempty ih =>
    have hstream := List.take_append_drop span.stop stream
    exact hstream ▸ ih.behind (stream.take span.stop)
  | case3 stream span hscan later hempty ih =>
    obtain ⟨hstart, -, hstop⟩ := scanUnit_eq_unit hscan
    obtain ⟨gap, hgap⟩ := exists_gap_of_afterStartCode? hstart
    have hle := pos_le_of_unitStop? hstop
    have hsplit : stream.drop span.start = span.slice stream ++ stream.drop span.stop := by
      have hdrop : stream.drop span.stop = (stream.drop span.start).drop span.length := by
        rw [List.drop_drop, UnitSpan.length]
        congr 1
        omega
      rw [hdrop, UnitSpan.slice, List.take_append_drop]
    rw [Nat.sub_zero, hsplit] at hgap
    have hplaced := PlacedIn.cons gap (span.slice stream) ih
    rwa [← hgap] at hplaced
  | case4 => exact .nil _
  | case5 stream start hscan last hempty =>
    obtain ⟨hstart, -⟩ := scanUnit_eq_unended hscan
    obtain ⟨gap, hgap⟩ := exists_gap_of_afterStartCode? hstart
    obtain ⟨zeros, hzeros⟩ := dropTrailingZeros_isPrefix (stream.drop start)
    rw [Nat.sub_zero, ← hzeros] at hgap
    have hplaced := PlacedIn.cons gap last (.nil zeros)
    rwa [← hgap] at hplaced

end Splitting

/-- Framable units are found, in order, in any stream that has them behind start codes, with any
number of zero bytes in front of each start code and at the end, and with any bytes in front that
hold no start code. What any stream whatsoever is split into are framable units that stand in it
behind start codes; there is at most one for every four bytes, and they can be joined and split
again. -/
theorem unitsOf_framing :
    (∀ (front : List UInt8) (units : List (Nat × List UInt8)) (zeros : Nat),
      ¬[0, 0, 1] <:+: front → (∀ p ∈ units, Framable p.2) →
        unitsOf (front ++ (padded units ++ List.replicate zeros 0)) = units.map Prod.snd) ∧
    ∀ stream, (∀ u ∈ unitsOf stream, Framable u) ∧ PlacedIn (unitsOf stream) stream ∧
      4 * (unitsOf stream).length ≤ stream.length ∧
      unitsOf (joinUnits (unitsOf stream)) = unitsOf stream := by
  refine ⟨fun front units zeros hfront hunits => unitsOf_padded units hunits hfront zeros, ?_⟩
  intro stream
  have hframable : ∀ u ∈ unitsOf stream, Framable u := fun _ => framable_of_mem_unitsOf
  have hplaced := placedIn_unitsOf stream
  exact ⟨hframable, hplaced, hplaced.length_le fun u hu => (hframable u hu).ne_nil,
    unitsOf_joinUnits hframable⟩

/-- Start codes of five and three bytes behind a byte and two zero bytes, and zero bytes at the
end. One unit has two zero bytes inside. -/
theorem unitsOf_framing_zeros :
    ¬[0, 0, 1] <:+: ([255, 0, 0] : List UInt8) ∧ Framable [6, 0, 0, 3, 1] ∧ Framable [9, 240] ∧
      unitsOf [255, 0, 0, 0, 0, 0, 0, 1, 6, 0, 0, 3, 1, 0, 0, 1, 9, 240, 0, 0, 0, 0] =
        [[6, 0, 0, 3, 1], [9, 240]] := by
  have hfront : ¬[0, 0, 1] <:+: ([255, 0, 0] : List UInt8) := by decide
  have hsei : Framable [6, 0, 0, 3, 1] := by
    refine ⟨⟨1, rfl, by decide⟩, ?_⟩
    rintro x hx h
    obtain rfl : x = 3 := by simpa [List.infix_cons_iff, List.cons_prefix_cons] using h
    exact absurd hx (by decide)
  have hdelimiter : Framable [9, 240] :=
    ⟨⟨240, rfl, by decide⟩, fun x _ h => by simpa using h.length_le⟩
  have hunits : ∀ p ∈ [(2, [6, 0, 0, 3, 1]), (0, [9, 240])], Framable p.2 := by
    simpa using ⟨hsei, hdelimiter⟩
  exact ⟨hfront, hsei, hdelimiter, unitsOf_framing.1 [255, 0, 0] _ 4 hfront hunits⟩

end AvcSyntax

import AvcSyntax.Proofs.Bits.Overrun
import AvcSyntax.Proofs.Bits.Written

/-!
# Data in front of the stop bit

Nothing in a payload says where its data ends. A reader looks for a one bit behind the next bit,
and takes what it finds for data unless that next bit is the last one bit of all. So whatever the
data are, closed by a stop bit and followed by any number of zero bytes, a reader inside them finds
more and a reader at their end does not. This holds also of data that themselves look like the end
of a payload.

Looking is free: of the reader only the recorded accesses change, and they only grow.
-/
namespace AvcSyntax

namespace Bits

theorem hasMore_eq_false {bs : Bits} :
    hasMore bs = false ↔ bs = [] ∨ ∃ zeros, bs = stop zeros := by
  constructor
  · intro h
    by_contra hother
    rw [not_or, not_exists] at hother
    rw [hasMore_eq_true hother.1 hother.2] at h
    cases h
  · rintro (rfl | ⟨zeros, rfl⟩)
    · rfl
    · exact hasMore_stop zeros

/-- What is left of closed data tells whether any of them is left. -/
theorem hasMore_closed (bs : Bits) (zeros : Nat) :
    hasMore (bs ++ stop zeros) = decide (bs ≠ []) := by
  by_cases h : bs = []
  · rw [h, List.nil_append, hasMore_stop, decide_eq_false (not_not.mpr rfl)]
  · rw [hasMore_append_stop h, decide_eq_true h]

theorem stop_append_zeros (zeros more : Nat) :
    stop zeros ++ List.replicate more false = stop (zeros + more) := by
  rw [stop, List.cons_append, ← List.replicate_add, stop]

theorem ofBytes_zeros (zeros : Nat) :
    ofBytes (List.replicate zeros 0) = List.replicate (8 * zeros) false := by
  induction zeros with
  | zero => rfl
  | succ zeros ih =>
    have hbyte : ofByte 0 = List.replicate 8 false := by decide
    rw [List.replicate_succ, ofBytes_cons, ih, hbyte, ← List.replicate_add, Nat.mul_succ,
      Nat.add_comm]

end Bits

namespace Reader

theorem rest_eq_drop (r : Reader) : r.rest = (Bits.ofBytes r.data.toList).drop r.pos := by
  rw [← bitsAt_all]
  by_cases hr : r.InBounds
  · have hsplit := bitsAt_append r.data 0 r.pos r.remaining
    have hlength : r.pos + r.remaining = 8 * r.data.size := by
      unfold InBounds size at hr
      unfold remaining size
      omega
    rw [hlength, Nat.zero_add] at hsplit
    rw [hsplit, List.drop_left' (length_bitsAt _ _ _), rest]
  · have hend : r.atEnd := by
      rw [atEnd_iff]
      exact (Nat.not_le.mp hr).le
    rw [rest_eq_nil_iff.mpr hend, List.drop_of_length_le]
    rw [length_bitsAt]
    exact r.atEnd_iff.mp hend

end Reader

namespace Parse

variable {α β : Type} {p : Parse α} {f : α → Parse β}

/-- The action records accesses behind those already recorded, also where it fails. -/
def Records (p : Parse α) : Prop :=
  ∀ r : Reader, ∃ added : Array Access, (p.reach r).trace = r.trace.map (· ++ added)

theorem Records.of_trace_eq (h : ∀ r : Reader, (p.reach r).trace = r.trace) : Records p := by
  intro r
  refine ⟨#[], ?_⟩
  rw [h r]
  simp

theorem Records.pure (a : α) : Records (Pure.pure a) := .of_trace_eq fun _ => rfl

theorem Records.bind (hp : p.Records) (hf : ∀ a, (f a).Records) : (p >>= f).Records := by
  refine reach_bind (R := fun r s => ∃ added, s.trace = r.trace.map (· ++ added)) ?_ hp hf
  intro r s t h k
  obtain ⟨first, hfirst⟩ := h
  obtain ⟨later, hlater⟩ := k
  refine ⟨first ++ later, ?_⟩
  rw [hlater, hfirst, Option.map_map]
  congr 1
  funext accesses
  exact Array.append_assoc

theorem records_u (count : Nat) : (u count).Records := by
  intro r
  by_cases hroom : r.remaining < min count 64
  · rw [reach_of_error (if_pos hroom)]
    exact ⟨#[], by simp [Reader.exhausted]⟩
  · rw [reach_of_ok (if_neg hroom)]
    exact ⟨#[.bits r.pos (min count 64) (bitsAt r.data r.pos (min count 64)).toNat], rfl⟩

theorem records_flag : flag.Records := (records_u 1).bind fun _ => .pure _

theorem records_skip (count : Nat) : (skip count).Records := by
  apply Records.of_trace_eq
  intro r
  by_cases hroom : r.remaining < count
  · rw [reach_of_error (if_pos hroom), Reader.exhausted]
  · rw [reach_of_ok (if_neg hroom), Reader.advance]

theorem records_oneBitWithin (count : Nat) : (oneBitWithin count).Records := by
  induction count with
  | zero => exact .pure false
  | succ count ih =>
    refine records_flag.bind fun b => ?_
    cases b with
    | true => exact .pure true
    | false => exact ih

theorem Records.lookahead (hp : p.Records) : (lookahead p).Records := by
  intro r
  obtain ⟨added, hadded⟩ := hp r
  refine ⟨added, ?_⟩
  rw [← hadded, reach, reach, Parse.lookahead]
  cases p r <;> rfl

theorem records_moreData : moreData.Records := by
  -- What is done depends on the reader, but for each reader it is an action that records.
  have hstep (r : Reader) :
      (if r.atEnd then Pure.pure false
        else if !r.peekBit then Pure.pure true
        else lookahead do
          skip 1
          oneBitWithin (r.remaining - 1)).Records := by
    split
    · exact .pure false
    split
    · exact .pure true
    · exact ((records_skip 1).bind fun _ => records_oneBitWithin _).lookahead
  exact fun r => hstep r r

/-- A look at what is left, which changes nothing but the recorded accesses. -/
theorem moreData_eq_hasMore (r : Reader) : ∃ added : Array Access,
    moreData r = .ok (Bits.hasMore r.rest) { r with trace := r.trace.map (· ++ added) } := by
  obtain ⟨t, ht⟩ := moreData_eq r
  obtain ⟨added, hadded⟩ := records_moreData r
  rw [reach_of_ok ht] at hadded
  exact ⟨added, hadded ▸ ht⟩

end Parse

/-- A reader of what was written, followed by zero bytes. -/
theorem Writer.Fills.rest_eq_drop {w v : Writer} {bs : Bits} (h : w.Fills bs v) (hne : bs ≠ [])
    (haligned : v.pos % 8 = 0) {r : Reader} {zeros : Nat}
    (hdata : r.data = (v.written ++ List.replicate zeros 0).toArray) {passed : Nat}
    (hpos : r.pos = w.pos + passed) (hpassed : passed ≤ bs.length) :
    r.rest = bs.drop passed ++ List.replicate (8 * zeros) false := by
  have hstart : ({ data := v.written.toArray, pos := w.pos } : Reader).rest = bs :=
    (h.rest_written hne haligned rfl rfl).2
  rw [Reader.rest_eq_drop] at hstart
  have hlength := congrArg List.length hstart
  rw [List.length_drop] at hlength
  have hwritten : w.pos + passed ≤ (Bits.ofBytes v.written).length := by
    have hpositive := List.length_pos_iff.mpr hne
    change (Bits.ofBytes v.written).length - w.pos = bs.length at hlength
    omega
  rw [Reader.rest_eq_drop, hdata, hpos, Bits.ofBytes_append, Bits.ofBytes_zeros,
    List.drop_append_of_le_length hwritten, ← List.drop_drop, hstart]

namespace Parse

/-- Behind data, a stop bit and zero bytes, a reader finds more if and only if it has not passed
the data. -/
theorem hasMore_of_written {w s v : Writer} {bs : Bits} (hdata : w.Fills bs s)
    (hstop : s.Fills (.stop (7 - s.pos % 8)) v) {r : Reader} {zeros : Nat}
    (hread : r.data = (v.written ++ List.replicate zeros 0).toArray) (hlow : w.pos ≤ r.pos)
    (hhigh : r.pos ≤ w.pos + bs.length) :
    Bits.hasMore r.rest = decide (r.pos < w.pos + bs.length) := by
  have hne : bs ++ Bits.stop (7 - s.pos % 8) ≠ [] := by simp [Bits.stop]
  have haligned : v.pos % 8 = 0 := by
    rw [hstop.moves.pos, Bits.length_stop]
    omega
  obtain ⟨passed, hpassed⟩ := Nat.exists_eq_add_of_le hlow
  have hinside : passed ≤ bs.length := by omega
  have hrest := (hdata.trans hstop).rest_eq_drop hne haligned hread hpassed
    (by rw [List.length_append]; omega)
  rw [List.drop_append_of_le_length hinside, List.append_assoc, Bits.stop_append_zeros] at hrest
  rw [hrest, Bits.hasMore_closed, decide_eq_decide, ne_eq, List.drop_eq_nil_iff]
  omega

/-- Bits written from any position on, however they are put together, are told from the stop bit
behind them: with any number of zero bytes at the end, a reader that stands among the bits finds
more data and one that stands behind the last of them does not. Any reader finds none if and only
if nothing is left or a one bit with only zero bits behind it. Looking leaves the reader where it
is. -/
theorem moreData_outcome :
    (∀ (build : Build Unit) (bs : Bits) (w : Writer), Appends build bs () →
      bs.length < w.remaining →
        ∃ v, (do build; Build.trailingBits) w = .ok () v ∧
          ∀ (r : Reader) (zeros : Nat), r.data = (v.written ++ List.replicate zeros 0).toArray →
            w.pos ≤ r.pos → r.pos ≤ w.pos + bs.length →
              ∃ added : Array Access, moreData r = .ok (decide (r.pos < w.pos + bs.length))
                { r with trace := r.trace.map (· ++ added) }) ∧
    (∀ bs : Bits, Appends (bs.forM Build.flag) bs ()) ∧
    ∀ r : Reader, ∃ (more : Bool) (added : Array Access),
      moreData r = .ok more { r with trace := r.trace.map (· ++ added) } ∧
        (more = false ↔
          r.remaining = 0 ∨ ∃ zeros, r.rest = true :: List.replicate zeros false) := by
  refine ⟨?_, Build.appends_flags, ?_⟩
  · intro build bs w hbuild hroom
    obtain ⟨s, hs, hmoves⟩ := hbuild w hroom.le
    have hleft : 0 < s.remaining := by
      rw [hmoves.remaining]
      omega
    obtain ⟨v, hv, hstop⟩ := Build.exists_trailingBits hleft
    have hstopRoom : (Bits.stop (7 - s.pos % 8)).length ≤ s.remaining := by
      rw [Bits.length_stop]
      unfold Writer.remaining at hleft ⊢
      omega
    refine ⟨v, (bind_of_ok hs).trans hv, ?_⟩
    intro r zeros hread hlow hhigh
    rw [← hasMore_of_written ⟨hmoves, hroom.le⟩ ⟨hstop, hstopRoom⟩ hread hlow hhigh]
    exact moreData_eq_hasMore r
  · intro r
    obtain ⟨added, hadded⟩ := moreData_eq_hasMore r
    refine ⟨_, added, hadded, ?_⟩
    rw [Bits.hasMore_eq_false, ← List.length_eq_zero_iff, Reader.length_rest]
    rfl

/-- Off a byte boundary and over a buffer of ones: data of a one bit and three zero bits, which
look like the end of a payload, and two zero bytes behind the stop bit. -/
theorem moreData_outcome_lookalike :
    let w : Writer := { data := Array.replicate 3 0xff, pos := 3 }
    let bs : Bits := [true, false, false, false]
    let r (v : Writer) (pos : Nat) : Reader :=
      { data := (v.written ++ List.replicate 2 0).toArray, pos }
    Appends (bs.forM Build.flag) bs () ∧ bs.length < w.remaining ∧
      ∃ v, (do bs.forM Build.flag; Build.trailingBits) w = .ok () v ∧
        moreData (r v 3) = .ok true (r v 3) ∧ moreData (r v 7) = .ok false (r v 7) := by
  intro w bs r
  have hbuild : Appends (bs.forM Build.flag) bs () := Build.appends_flags bs
  have hroom : bs.length < w.remaining := by decide
  obtain ⟨v, hv, hread⟩ := moreData_outcome.1 _ bs w hbuild hroom
  have hread' (pos : Nat) (hlow : 3 ≤ pos) (hhigh : pos ≤ 7) :
      ∃ added : Array Access, moreData (r v pos) = .ok (decide (pos < 7))
        { r v pos with trace := (r v pos).trace.map (· ++ added) } :=
    hread (r v pos) 2 rfl hlow hhigh
  obtain ⟨_, hinside⟩ := hread' 3 (by decide) (by decide)
  obtain ⟨_, hbehind⟩ := hread' 7 (by decide) (by decide)
  exact ⟨hbuild, hroom, v, hv, hinside, hbehind⟩

end Parse

end AvcSyntax

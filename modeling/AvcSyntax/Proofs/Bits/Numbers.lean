import AvcSyntax.Proofs.Bits.Primitives
import AvcSyntax.Proofs.Bits.Written

/-!
# Numbers one behind the other

Numbers of any widths are written from any bit position on, over whatever the buffer held. The
bits in front of them and behind them stay as they were, and the same widths read from the same
position give the same numbers. A number that is refused leaves the buffer alone, and the mark of
a lost write is set only for one that fits its field.
-/
namespace AvcSyntax

/-- The bits of numbers one behind the other, each given behind its width. -/
def Bits.ofNumbers (fields : List (Nat × Nat)) : Bits := fields.flatMap fun f => ofNat f.1 f.2

theorem Bits.length_ofNumbers (fields : List (Nat × Nat)) :
    (ofNumbers fields).length = (fields.map Prod.fst).sum := by
  simp [ofNumbers, List.length_flatMap]

/-- Writing leaves alone what stands in front and what stands behind. -/
theorem Writer.Fills.bitAt_eq {w v : Writer} {bs : Bits} (h : w.Fills bs v) {i : Nat}
    (hi : i < w.pos ∨ v.pos ≤ i) : bitAt v.data i = bitAt w.data i := by
  have hend := h.moves.pos
  cases bs with
  | nil => rw [h.moves.data, putBits]
  | cons b bs =>
    have hbound := h.pos_le (List.cons_ne_nil b bs)
    rw [hend, h.moves.data, size_putBits] at hbound
    rw [h.moves.data, bitAt_putBits hbound]
    by_cases hfront : i < w.pos
    · rw [if_pos hfront]
    · have hbehind : (b :: bs).length ≤ i - w.pos := by omega
      rw [if_neg hfront, List.getElem?_eq_none hbehind, Option.getD_none]

namespace Build

/-- A number is refused for its width before the room is looked at. -/
theorem u_eq_error {count value : Nat} {w v : Writer} {e : Fault} :
    u count value w = .error e v ↔
      (2 ^ min count 64 ≤ value ∧ e = .valueTooWide ∧ v = w) ∨
      (value < 2 ^ min count 64 ∧ w.remaining < min count 64 ∧ e = .noRoomForBits ∧
        v = { w with overrun := true }) := by
  rw [u, Nat.one_shiftLeft]
  by_cases hwide : 2 ^ min count 64 ≤ value
  · rw [if_pos hwide]
    constructor
    · intro h
      cases h
      exact .inl ⟨hwide, rfl, rfl⟩
    · intro h
      cases h with
      | inl h => rw [h.2.1, h.2.2]
      | inr h => exact absurd hwide (Nat.not_le.mpr h.1)
  · rw [if_neg hwide]
    by_cases hroom : w.remaining < min count 64
    · rw [if_pos hroom]
      constructor
      · intro h
        cases h
        exact .inr ⟨Nat.not_le.mp hwide, hroom, rfl, rfl⟩
      · intro h
        cases h with
        | inl h => exact absurd h.1 hwide
        | inr h => rw [h.2.2.1, h.2.2.2]
    · simp [hwide, hroom]

theorem faults_u {count value : Nat} (h : value < 2 ^ min count 64) :
    Faults (·.kind = .bufferFull) (u count value) := by
  intro w e v he
  rcases u_eq_error.mp he with ⟨hwide, -, -⟩ | ⟨-, -, rfl, -⟩
  · exact absurd h (Nat.not_lt.mpr hwide)
  · rfl

theorem faults_octets (bs : List UInt8) : Faults (·.kind = .bufferFull) (octets bs) := by
  induction bs with
  | nil => exact .pure ()
  | cons b bs ih => exact (faults_u b.toNat_lt).bind fun _ => ih

theorem faults_someBytes (bs : List UInt8) : Faults (·.kind = .bufferFull) (someBytes bs) := by
  have hmodify (f : Writer → Writer) :
      Faults (·.kind = .bufferFull) (modify f : Build Unit) := by
    intro w e v h
    cases h
  refine .get fun w => .ite (fun _ => .pure 0) fun _ => ?_
  refine .ite (fun _ => (hmodify _).bind fun _ => .pure _) fun _ => ?_
  refine .ite (fun _ => (hmodify _).bind fun _ => .pure _) fun _ => ?_
  exact (faults_octets _).bind fun _ => .pure _

theorem faults_bytes (bs : List UInt8) : Faults (·.kind = .bufferFull) (bytes bs) := by
  refine (faults_someBytes bs).bind fun count => .ite (fun _ => .pure ()) fun _ => ?_
  exact (faults_someBytes _).bind fun _ => .throw rfl

theorem appends_numbers {fields : List (Nat × Nat)}
    (hfits : ∀ f ∈ fields, f.1 ≤ 64 ∧ f.2 < 2 ^ f.1) :
    Appends (fields.forM fun f => u f.1 f.2) (.ofNumbers fields) () := by
  induction fields with
  | nil => exact Appends.pure ()
  | cons f fields ih =>
    obtain ⟨⟨hwidth, hvalue⟩, hfits⟩ := List.forall_mem_cons.mp hfits
    exact (appends_u hwidth hvalue).bind (ih hfits)

end Build

/-- Fields that hold what they should are refused for lack of room only. -/
theorem Code.Valid.faults_write {c : Code} (h : c.Valid) :
    Faults (·.kind = .bufferFull) c.write := by
  obtain ⟨fields, fault⟩ := c
  obtain ⟨rfl, hfits⟩ := h
  have hfields : Faults (·.kind = .bufferFull) (Field.writeAll fields) := by
    induction fields with
    | nil => exact .pure ()
    | cons f fields ih =>
      obtain ⟨hf, hfits⟩ := List.forall_mem_cons.mp hfits
      have hfield : Faults (·.kind = .bufferFull) f.write := by
        cases f with
        | number width value =>
          obtain ⟨hwidth, hvalue⟩ := hf
          exact Build.faults_u (by rwa [Nat.min_eq_left hwidth])
        | bytes bs => exact Build.faults_bytes bs
      exact hfield.bind fun _ => ih hfits
  exact hfields.bind fun _ => .pure ()

namespace Parse

theorem mapM_u_of_bitsAt {fields : List (Nat × Nat)}
    (hfits : ∀ f ∈ fields, f.1 ≤ 64 ∧ f.2 < 2 ^ f.1) {r : Reader}
    (hroom : (Bits.ofNumbers fields).length ≤ r.remaining)
    (hbits : bitsAt r.data r.pos (Bits.ofNumbers fields).length = .ofNumbers fields) :
    ∃ s, (fields.map Prod.fst).mapM u r = .ok (fields.map Prod.snd) s ∧
      s.pos = r.pos + (Bits.ofNumbers fields).length ∧ s.overrun = r.overrun := by
  induction fields generalizing r with
  | nil => exact ⟨r, rfl, rfl, rfl⟩
  | cons f fields ih =>
    obtain ⟨width, value⟩ := f
    obtain ⟨⟨hwidth, hvalue⟩, hfits⟩ := List.forall_mem_cons.mp hfits
    have hsplit : Bits.ofNumbers ((width, value) :: fields) =
        .ofNat width value ++ .ofNumbers fields := rfl
    rw [hsplit, List.length_append, Bits.length_ofNat] at hroom hbits
    rw [bitsAt_append] at hbits
    obtain ⟨hfirst, hlater⟩ := List.append_inj hbits (by rw [length_bitsAt, Bits.length_ofNat])
    have hu : u width r = .ok value ((r.note (.bits r.pos width value)).advance width) := by
      refine (u_eq_ok hwidth).mpr ⟨by omega, ?_, rfl⟩
      rw [hfirst, Bits.toNat_ofNat_of_lt hvalue]
    have hleft : (Bits.ofNumbers fields).length ≤
        ((r.note (.bits r.pos width value)).advance width).remaining := by
      rw [Reader.remaining] at hroom ⊢
      change _ ≤ r.size - (r.pos + width)
      omega
    obtain ⟨s, hs, hpos, hover⟩ := ih hfits hleft hlater
    refine ⟨s, ?_, ?_, hover⟩
    · rw [List.map_cons, List.mapM_cons, bind_of_ok hu, bind_of_ok hs]
      rfl
    · rw [hpos, hsplit, List.length_append, Bits.length_ofNat, ← Nat.add_assoc]
      rfl

end Parse

namespace Writer

/-- Numbers that fit their fields, and the fields the buffer, are written and read back, and all
bits around them stay. A number that is refused is lost without a trace in the buffer. -/
theorem numbers_read_back (w : Writer) :
    (∀ fields : List (Nat × Nat), (∀ f ∈ fields, f.1 ≤ 64 ∧ f.2 < 2 ^ f.1) →
      (fields.map Prod.fst).sum ≤ w.remaining →
        ∃ v, (fields.forM fun f => Build.u f.1 f.2) w = .ok () v ∧
          v.pos = w.pos + (fields.map Prod.fst).sum ∧ v.overrun = w.overrun ∧
          v.data.size = w.data.size ∧
          (∀ i, i < w.pos ∨ v.pos ≤ i → bitAt v.data i = bitAt w.data i) ∧
          ∀ r : Reader, r.data = v.data → r.pos = w.pos →
            ∃ s, (fields.map Prod.fst).mapM Parse.u r = .ok (fields.map Prod.snd) s ∧
              s.pos = v.pos ∧ s.overrun = r.overrun) ∧
    (∀ (count value : Nat) (e : Fault) (v : Writer), Build.u count value w = .error e v ↔
      (2 ^ min count 64 ≤ value ∧ e = .valueTooWide ∧ v = w) ∨
      (value < 2 ^ min count 64 ∧ w.remaining < min count 64 ∧ e = .noRoomForBits ∧
        v = { w with overrun := true })) := by
  refine ⟨?_, fun _ _ _ _ => Build.u_eq_error⟩
  intro fields hfits hroom
  rw [← Bits.length_ofNumbers] at hroom ⊢
  obtain ⟨v, hv, hmoves⟩ := Build.appends_numbers hfits w hroom
  have hfills : w.Fills (.ofNumbers fields) v := ⟨hmoves, hroom⟩
  have hsize : v.data.size = w.data.size := by
    rw [hmoves.data, size_putBits]
  refine ⟨v, hv, hmoves.pos, hmoves.overrun, hsize, fun _ => hfills.bitAt_eq, ?_⟩
  intro r hdata hpos
  have hleft : (Bits.ofNumbers fields).length ≤ r.remaining := by
    rwa [Reader.remaining, Reader.size, hdata, hpos, hsize]
  have hbits : bitsAt r.data r.pos (Bits.ofNumbers fields).length = .ofNumbers fields := by
    rw [hdata, hpos]
    by_cases hempty : Bits.ofNumbers fields = []
    · rw [hempty]
      rfl
    · exact hfills.bitsAt_eq hempty
  obtain ⟨s, hs, hend, hover⟩ := Parse.mapM_u_of_bitsAt hfits hleft hbits
  exact ⟨s, hs, by rw [hend, hpos, hmoves.pos], hover⟩

/-- A full word between two narrow numbers and one without bits, off a byte boundary and over a
buffer of ones. Of two numbers that find no room only the one that fits its field sets the mark. -/
theorem numbers_read_back_stale :
    let w : Writer := { data := Array.replicate 10 0xff, pos := 5 }
    let fields : List (Nat × Nat) := [(3, 5), (64, 2 ^ 63 + 1), (0, 0), (1, 0)]
    (∃ v, (fields.forM fun f => Build.u f.1 f.2) w = .ok () v ∧ v.pos = 73 ∧
      (∀ i, i < 5 ∨ v.pos ≤ i → bitAt v.data i = bitAt w.data i) ∧
      ∃ s, ([3, 64, 0, 1].mapM Parse.u : Parse (List Nat)) { data := v.data, pos := 5 } =
        .ok [5, 2 ^ 63 + 1, 0, 0] s) ∧
    Build.u 3 8 { w with pos := 78 } = .error .valueTooWide { w with pos := 78 } ∧
    Build.u 3 7 { w with pos := 78 } =
      .error .noRoomForBits { w with pos := 78, overrun := true } := by
  intro w fields
  have hfits : ∀ f ∈ fields, f.1 ≤ 64 ∧ f.2 < 2 ^ f.1 := by decide
  have hroom : (fields.map Prod.fst).sum ≤ w.remaining := by decide
  obtain ⟨v, hv, hpos, -, -, hframe, hread⟩ := (numbers_read_back w).1 fields hfits hroom
  obtain ⟨s, hs, -⟩ := hread { data := v.data, pos := 5 } rfl rfl
  have hrefused := (numbers_read_back { w with pos := 78 }).2
  refine ⟨⟨v, hv, hpos, hframe, s, hs⟩, ?_, ?_⟩
  · exact (hrefused 3 8 _ _).mpr (.inl ⟨by decide, rfl, rfl⟩)
  · exact (hrefused 3 7 _ _).mpr (.inr ⟨by decide, by decide, rfl, rfl⟩)

end Writer

end AvcSyntax

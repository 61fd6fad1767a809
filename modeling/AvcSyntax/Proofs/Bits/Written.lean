import AvcSyntax.Proofs.Bits.Writing

/-!
# What has been written

A builder that succeeds has had room for what it wrote. This is the way back from the success of
a build to the bits in the buffer: a valid code whose writing succeeds stands in the buffer from
the position of the writer on, and whatever reads the code from any reader reads it there. No
assumption is made about the writer, which may even be marked as overrun.

That the code is valid need not be known beforehand. A code that was written broke no rule, and
its numbers fit their fields.
-/
namespace AvcSyntax

namespace Writer

/-- `v` is the writer `w` after the bits `bs` were written, for which there was room. -/
structure Fills (w : Writer) (bs : Bits) (v : Writer) : Prop where
  moves : w.Moves bs v
  room : bs.length ≤ w.remaining

theorem Fills.refl (w : Writer) : w.Fills [] w := ⟨.refl w, Nat.zero_le _⟩

theorem Fills.trans {w v u : Writer} {bs cs : Bits} (h : w.Fills bs v) (k : v.Fills cs u) :
    w.Fills (bs ++ cs) u := by
  refine ⟨h.moves.trans k.moves, ?_⟩
  have hfirst := h.room
  have hlater := k.room
  rw [h.moves.remaining] at hlater
  rw [List.length_append]
  omega

theorem Fills.pos_le {w v : Writer} {bs : Bits} (h : w.Fills bs v) (hne : bs ≠ []) :
    v.pos ≤ 8 * v.data.size := by
  have hroom := h.room
  have hlength := List.length_pos_iff.mpr hne
  rw [Writer.remaining] at hroom
  rw [h.moves.pos, h.moves.size]
  omega

theorem Fills.bitsAt_eq {w v : Writer} {bs : Bits} (h : w.Fills bs v) (hne : bs ≠ []) :
    bitsAt v.data w.pos bs.length = bs := by
  have hbound := h.pos_le hne
  rw [h.moves.pos, h.moves.data, size_putBits] at hbound
  rw [h.moves.data, bitsAt_putBits hbound]

end Writer

namespace Build

variable {w v : Writer}

theorem fills_of_u {count value : Nat} (h : u count value w = .ok () v) :
    value < 2 ^ min count 64 ∧ w.Fills (.ofNat (min count 64) value) v := by
  simp only [u] at h
  split at h
  · cases h
  · split at h
    · cases h
    · rename_i hvalue hroom
      cases h
      refine ⟨by omega, w.moves_append (.bits w.pos (min count 64) value) _, ?_⟩
      rw [Bits.length_ofNat]
      omega

theorem fills_of_octets {bs : List UInt8} (h : octets bs w = .ok () v) :
    w.Fills (.ofBytes bs) v := by
  induction bs generalizing w with
  | nil =>
    cases h
    exact .refl _
  | cons b bs ih =>
    obtain ⟨_, s, hb, hbs⟩ := bind_eq_ok.mp h
    exact (fills_of_u hb).2.trans (ih hbs)

/-- Only a write that was not cut short counts. -/
theorem fills_of_someBytes {bs : List UInt8} (h : someBytes bs w = .ok bs.length v) :
    w.Fills (.ofBytes bs) v := by
  rw [someBytes, get_bind] at h
  by_cases hempty : bs = []
  · subst hempty
    cases h
    exact .refl _
  · rw [if_neg (by simpa using hempty), ite_bind, ite_bind] at h
    obtain ⟨_, s, hwritten, hcount⟩ := bind_eq_ok.mp h
    obtain ⟨hwhole, rfl⟩ : min bs.length (w.remaining / 8) = bs.length ∧ s = v := by
      simpa [pure, EStateM.pure] using hcount
    have hne : ¬bs.length = 0 := fun hzero => hempty (List.length_eq_zero_iff.mp hzero)
    rw [hwhole, if_neg hne, List.take_length] at hwritten
    split at hwritten
    · rename_i haligned
      cases hwritten
      have hroom : 8 * bs.length ≤ w.remaining := by omega
      refine ⟨Writer.moves_appendBytes (w.isAligned_iff.mp haligned) hroom _, ?_⟩
      rwa [Bits.length_ofBytes]
    · exact fills_of_octets hwritten

theorem fills_of_bytes {bs : List UInt8} (h : bytes bs w = .ok () v) :
    w.Fills (.ofBytes bs) v := by
  obtain ⟨count, s, hsome, h⟩ := bind_eq_ok.mp h
  split at h
  · rename_i hcount
    cases h
    exact fills_of_someBytes (hcount ▸ hsome)
  · obtain ⟨_, _, _, hfailed⟩ := bind_eq_ok.mp h
    cases hfailed

/-- Writing stops at a byte boundary. -/
theorem fills_of_align (h : align w = .ok () v) : v.pos % 8 = 0 ∧ ∃ bs, w.Fills bs v := by
  rw [align, get_bind] at h
  by_cases haligned : w.isAligned
  · rw [if_pos haligned] at h
    cases h
    exact ⟨w.isAligned_iff.mp haligned, [], .refl w⟩
  · rw [if_neg haligned] at h
    rw [Writer.isAligned_iff] at haligned
    obtain ⟨-, hfills⟩ := fills_of_u h
    refine ⟨?_, _, hfills⟩
    rw [hfills.moves.pos, Bits.length_ofNat]
    omega

theorem fills_of_trailingBits (h : trailingBits w = .ok () v) : ∃ bs, w.Fills bs v := by
  obtain ⟨_, s, hstop, halign⟩ := bind_eq_ok.mp h
  obtain ⟨-, bs, hfills⟩ := fills_of_align halign
  exact ⟨_, (fills_of_u hstop).2.trans hfills⟩

/-- The number of bytes is that of all bits in front. -/
theorem fills_of_finish {size : Nat} (h : finish w = .ok size v) :
    v.pos % 8 = 0 ∧ size = v.pos / 8 ∧ ∃ bs, w.Fills bs v := by
  obtain ⟨_, s, halign, hsize⟩ := bind_eq_ok.mp h
  cases hsize
  obtain ⟨haligned, hfills⟩ := fills_of_align halign
  exact ⟨haligned, rfl, hfills⟩

end Build

namespace Field

/-- A number that fits its field, however wide that is. -/
def InWidth : Field → Prop
  | number width value => value < 2 ^ width
  | bytes _ => True

theorem inWidth_of_write {f : Field} {w v : Writer} (h : f.write w = .ok () v) : f.InWidth := by
  cases f with
  | number width value =>
    exact (Build.fills_of_u h).1.trans_le (Nat.pow_le_pow_right (by decide) (Nat.min_le_left _ _))
  | bytes bs => trivial

theorem Fits.fills_of_write {f : Field} (hf : f.Fits) {w v : Writer} (h : f.write w = .ok () v) :
    w.Fills f.bits v := by
  cases f with
  | number width value =>
    have hfills := (Build.fills_of_u h).2
    rwa [Nat.min_eq_left hf.1] at hfills
  | bytes bs => exact Build.fills_of_bytes h

end Field

namespace Code

/-- Whether no rule is broken and every number fits its field. A code that is not valid in spite
of that has a field of more than 64 bits. -/
def Writable (c : Code) : Prop := c.fault = none ∧ ∀ f ∈ c.fields, f.InWidth

theorem writeAll_of_write {c : Code} {w v : Writer} (h : c.write w = .ok () v) :
    c.fault = none ∧ Field.writeAll c.fields w = .ok () v := by
  obtain ⟨_, s, hall, hend⟩ := bind_eq_ok.mp h
  cases hfault : c.fault with
  | none =>
    rw [hfault] at hend
    cases hend
    exact ⟨rfl, hall⟩
  | some e =>
    rw [hfault] at hend
    cases hend

theorem writable_of_write {c : Code} {w v : Writer} (h : c.write w = .ok () v) : c.Writable := by
  obtain ⟨hfault, hall⟩ := writeAll_of_write h
  refine ⟨hfault, ?_⟩
  clear h hfault
  generalize c.fields = fields at hall ⊢
  induction fields generalizing w with
  | nil => simp
  | cons f fields ih =>
    obtain ⟨_, s, hf, hfields⟩ := bind_eq_ok.mp hall
    exact List.forall_mem_cons.mpr ⟨Field.inWidth_of_write hf, ih hfields⟩

theorem Valid.fills_of_write {c : Code} (hc : c.Valid) {w v : Writer}
    (h : c.write w = .ok () v) : w.Fills c.bits v := by
  obtain ⟨-, hall⟩ := writeAll_of_write h
  obtain ⟨-, hfits⟩ := hc
  rw [bits]
  clear h
  generalize c.fields = fields at hall hfits ⊢
  induction fields generalizing w with
  | nil =>
    cases hall
    exact .refl _
  | cons f fields ih =>
    obtain ⟨hf, hfits⟩ := List.forall_mem_cons.mp hfits
    obtain ⟨_, s, hfirst, hlater⟩ := bind_eq_ok.mp hall
    exact (hf.fills_of_write hfirst).trans (ih hlater hfits)

theorem exists_fills_of_write {c : Code} {w v : Writer} (h : c.write w = .ok () v) :
    ∃ bs, w.Fills bs v := by
  obtain ⟨-, hall⟩ := writeAll_of_write h
  clear h
  generalize c.fields = fields at hall
  induction fields generalizing w with
  | nil =>
    cases hall
    exact ⟨[], .refl _⟩
  | cons f fields ih =>
    obtain ⟨_, s, hfirst, hlater⟩ := bind_eq_ok.mp hall
    obtain ⟨cs, hcs⟩ := ih hlater
    cases f with
    | number width value => exact ⟨_, (Build.fills_of_u hfirst).2.trans hcs⟩
    | bytes bs => exact ⟨_, (Build.fills_of_bytes hfirst).trans hcs⟩

theorem writable_append {c d : Code} : (c ++ d).Writable ↔ c.Writable ∧ d.Writable := by
  by_cases hc : c.fault = none
  · rw [append_of_no_fault hc]
    simp only [Writable, List.forall_mem_append, hc, true_and]
    tauto
  · rw [append_of_fault (Option.isSome_iff_ne_none.mpr hc)]
    simp only [Writable, hc, false_and]

theorem writable_onlyIf {p : Prop} [Decidable p] {c : Code} :
    (onlyIf p c).Writable ↔ (p → c.Writable) := by
  by_cases hp : p
  · rw [onlyIf_true hp]
    simp only [hp, forall_const]
  · rw [onlyIf_false hp]
    simp [hp, Writable, empty]

theorem writable_u {width value : Nat} : (u width value).Writable ↔ value < 2 ^ width := by
  simp [Writable, u, Field.InWidth]

theorem writable_inRange {quantity : String} {low high value : Int} :
    (inRange quantity low high value).Writable ↔ low ≤ value ∧ value ≤ high := by
  rw [Writable, fault_inRange]
  simp [inRange]

end Code

/-- The reader stands where the writer `w` stood and finds the bits that were written up to `v`. -/
structure Reader.Follows (r : Reader) (w v : Writer) : Prop where
  pos : r.pos = w.pos
  inBounds : v.pos ≤ r.size
  bits : ∀ i, w.pos ≤ i → i < v.pos → bitAt r.data i = bitAt v.data i

theorem Writer.Fills.follows {w v : Writer} {bs : Bits} (h : w.Fills bs v) (hne : bs ≠ []) :
    ({ data := v.data, pos := w.pos } : Reader).Follows w v :=
  ⟨rfl, h.pos_le hne, fun _ _ _ => rfl⟩

theorem Reader.Follows.rest_eq {r : Reader} {w v : Writer} {bs : Bits} (h : r.Follows w v)
    (hfills : w.Fills bs v) (hne : bs ≠ []) : r.InBounds ∧ ∃ tail, r.rest = bs ++ tail := by
  have hend := h.inBounds
  rw [hfills.moves.pos] at hend
  have hwindow : bitsAt r.data r.pos bs.length = bs := by
    rw [h.pos]
    calc bitsAt r.data w.pos bs.length
        = bitsAt v.data w.pos bs.length := bitsAt_congr fun i hi =>
          h.bits _ (Nat.le_add_right _ _) (by rw [hfills.moves.pos]; omega)
      _ = bs := hfills.bitsAt_eq hne
  have hpos := h.pos
  have hcount : bs.length ≤ r.remaining := by
    rw [remaining]
    omega
  have hrest := rest_eq_bitsAt_append hcount
  rw [hwindow] at hrest
  exact ⟨by rw [InBounds]; omega, _, hrest⟩

/-- The bytes up to the end of what was written can be read on their own, and nothing else stands
in front of the reader. -/
theorem Writer.Fills.rest_written {w v : Writer} {bs : Bits} (h : w.Fills bs v) (hne : bs ≠ [])
    (haligned : v.pos % 8 = 0) {r : Reader} (hdata : r.data = v.written.toArray)
    (hpos : r.pos = w.pos) : r.InBounds ∧ r.rest = bs := by
  have hbound := h.pos_le hne
  have hextract : r.data = v.data.extract 0 (v.pos / 8) := hdata
  have hsize : r.size = v.pos := by
    rw [Reader.size, hextract, Array.size_extract]
    omega
  have hfollows : r.Follows w v := by
    refine ⟨hpos, hsize.ge, fun i _ hi => ?_⟩
    have hindex : i / 8 < min (v.pos / 8) v.data.size - 0 := by omega
    rw [bitAt, bitAt, hextract, Array.getD_eq_getD_getElem?, Array.getD_eq_getD_getElem?,
      Array.getElem?_extract, if_pos hindex, Nat.zero_add]
  obtain ⟨hinBounds, tail, hrest⟩ := hfollows.rest_eq h hne
  -- The reader ends where the bits do.
  have hlength := congrArg List.length hrest
  have hend := h.moves.pos
  rw [Reader.length_rest, Reader.remaining, hsize, hpos, List.length_append] at hlength
  have htail : tail = [] := List.length_eq_zero_iff.mp (by omega)
  exact ⟨hinBounds, by rw [hrest, htail, List.append_nil]⟩

/-- What reads a code back reads it where it was written, and reads nothing else. -/
theorem Reads.of_fills {ε α : Type} {p : EStateM ε Reader α} {c : Code} {a : α}
    (hp : ∀ tail, Reads p c tail a) {w v : Writer} (hfills : w.Fills c.bits v)
    (hne : c.bits ≠ []) {r : Reader} (hr : r.Follows w v) :
    ∃ s, p r = .ok a s ∧ s.pos = v.pos ∧ s.overrun = r.overrun := by
  obtain ⟨hbounds, tail, hrest⟩ := hr.rest_eq hfills hne
  obtain ⟨s, hs, hmoves⟩ := (hp tail).run r hbounds hrest
  refine ⟨s, hs, ?_, hmoves.overrun⟩
  rw [hmoves.pos, hfills.moves.pos, hr.pos]

end AvcSyntax

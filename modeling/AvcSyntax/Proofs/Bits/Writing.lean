import AvcSyntax.Nal.Trailing
import AvcSyntax.Proofs.Nal.Trailing

/-!
# What builders write

`Writes pos p bs a` says that from bit position `pos` on the builder `p` writes the bits `bs` and
yields `a`, wherever there is room for them. The position matters because some builders fill up
the byte that they stand in. The relation is closed under sequencing, so that whatever writes
codes and trailing bits is followed part by part.

The counterpart on the side of readers does not depend on the position. Where that of writers does
not either, nor on what was lost before, it is `Appends p bs a`.
-/
namespace AvcSyntax

namespace Writer

structure Moves (w : Writer) (bs : Bits) (v : Writer) : Prop where
  data : v.data = putBits w.data w.pos bs
  pos : v.pos = w.pos + bs.length
  overrun : v.overrun = w.overrun

theorem Moves.refl (w : Writer) : w.Moves [] w := ⟨rfl, rfl, rfl⟩

theorem Moves.trans {w v u : Writer} {bs cs : Bits} (h : w.Moves bs v) (k : v.Moves cs u) :
    w.Moves (bs ++ cs) u where
  data := by rw [k.data, h.data, h.pos, putBits_append]
  pos := by rw [k.pos, h.pos, List.length_append, Nat.add_assoc]
  overrun := k.overrun.trans h.overrun

theorem Moves.size {w v : Writer} {bs : Bits} (h : w.Moves bs v) :
    v.data.size = w.data.size := by rw [h.data, size_putBits]

theorem Moves.remaining {w v : Writer} {bs : Bits} (h : w.Moves bs v) :
    v.remaining = w.remaining - bs.length := by
  rw [Writer.remaining, Writer.remaining, h.size, h.pos, Nat.sub_sub]

theorem moves_append (w : Writer) (a : Access) (bs : Bits) :
    w.Moves bs ((w.note a).append bs) := ⟨rfl, rfl, rfl⟩

theorem moves_appendBytes {w : Writer} (haligned : w.pos % 8 = 0) {bs : List UInt8}
    (hroom : 8 * bs.length ≤ w.remaining) (a : Access) :
    w.Moves (Bits.ofBytes bs) ((w.note a).appendBytes bs) := by
  unfold Writer.remaining at hroom
  refine ⟨?_, ?_, rfl⟩
  · by_cases hempty : bs = []
    · subst hempty
      rfl
    · have hpos := List.length_pos_iff.mpr hempty
      have hindex : 8 * (w.pos / 8) = w.pos := by omega
      simp only [appendBytes, note]
      rw [putBytes_eq_putBits (by omega), hindex]
  · rw [Bits.length_ofBytes]
    rfl

theorem isAligned_iff (w : Writer) : w.isAligned ↔ w.pos % 8 = 0 := by simp [isAligned]

theorem ofBytes_written {w v : Writer} {bs : Bits} (h : w.Moves bs v) (hstart : w.pos = 0)
    (haligned : bs.length % 8 = 0) (hroom : bs.length ≤ w.remaining) :
    Bits.ofBytes (v.data.extract 0 (v.pos / 8)).toList = bs := by
  have hpos := h.pos
  have hsize := h.size
  unfold Writer.remaining at hroom
  have hbits := bitsAt_bytes v.data 0 (v.pos / 8) (by omega)
  rw [Nat.zero_add] at hbits
  have hlength : 8 * (v.pos / 8) = bs.length := by omega
  rw [← hbits, Nat.mul_zero, hlength, h.data, hstart]
  exact bitsAt_putBits (by omega)

end Writer

/-- From bit position `pos` on the builder writes the bits `bs` and yields `a`, if there is room
for them and nothing has been lost before. -/
def Writes {ε α : Type} (pos : Nat) (p : EStateM ε Writer α) (bs : Bits) (a : α) : Prop :=
  ∀ w : Writer, w.pos = pos → w.overrun = false → bs.length ≤ w.remaining →
    ∃ v, p w = .ok a v ∧ w.Moves bs v

/-- Wherever there is room for them, the builder writes the bits `bs` and yields `a`. -/
def Appends {ε α : Type} (p : EStateM ε Writer α) (bs : Bits) (a : α) : Prop :=
  ∀ w : Writer, bs.length ≤ w.remaining → ∃ v, p w = .ok a v ∧ w.Moves bs v

section Sequencing

variable {ε α β : Type} {pos : Nat} {p : EStateM ε Writer α} {f : α → EStateM ε Writer β}
  {bs cs : Bits} {a : α} {b : β}

theorem Appends.pure (a : α) : Appends (Pure.pure a : EStateM ε Writer α) [] a :=
  fun w _ => ⟨w, rfl, .refl w⟩

theorem Appends.bind (hp : Appends p bs a) (hf : Appends (f a) cs b) :
    Appends (p >>= f) (bs ++ cs) b := by
  intro w hroom
  rw [List.length_append] at hroom
  obtain ⟨v, hv, hmoves⟩ := hp w (by omega)
  have hlater := hmoves.remaining
  obtain ⟨u, hu, hmoves'⟩ := hf v (by omega)
  exact ⟨u, (bind_of_ok hv).trans hu, hmoves.trans hmoves'⟩

theorem Appends.last (hp : Appends p bs a) (h : f a = Pure.pure b) : Appends (p >>= f) bs b := by
  have hpure : Appends (f a) [] b := h ▸ Appends.pure b
  exact List.append_nil bs ▸ hp.bind hpure

theorem Appends.report {p : Build α} (h : Appends p bs a) : Appends (reportFaults p) bs a := by
  intro w hroom
  obtain ⟨v, hv, hmoves⟩ := h w hroom
  exact ⟨v, reportFaults_eq_ok.mpr hv, hmoves⟩

/-- There is one bit string that an action appends wherever there is room for it. -/
theorem Appends.unique (h : Appends p bs a) {b : α} (k : Appends p cs b) : bs = cs := by
  let w := Writer.zeroed (bs.length + cs.length)
  have hsize : w.data.size = bs.length + cs.length := Array.size_replicate
  have hpos : w.pos = 0 := rfl
  have hroom : bs.length + cs.length ≤ w.remaining := by
    rw [Writer.remaining, hpos, hsize]
    omega
  obtain ⟨v, hv, hmoves⟩ := h w (by omega)
  obtain ⟨u, hu, hmoves'⟩ := k w (by omega)
  obtain rfl : v = u := by
    rw [hv] at hu
    cases hu
    rfl
  have hlength : bs.length = cs.length := by
    have hend := hmoves.pos.symm.trans hmoves'.pos
    omega
  have hfirst : bitsAt v.data w.pos bs.length = bs := by
    rw [hmoves.data]
    exact bitsAt_putBits (by omega)
  have hsecond : bitsAt v.data w.pos cs.length = cs := by
    rw [hmoves'.data]
    exact bitsAt_putBits (by omega)
  rw [← hfirst, ← hsecond, hlength]

theorem Appends.writes (h : Appends p bs a) : Writes pos p bs a := fun w _ _ hroom => h w hroom

theorem Writes.pure (a : α) : Writes pos (Pure.pure a : EStateM ε Writer α) [] a :=
  fun w _ _ _ => ⟨w, rfl, .refl w⟩

theorem Writes.bind (hp : Writes pos p bs a) (hf : Writes (pos + bs.length) (f a) cs b) :
    Writes pos (p >>= f) (bs ++ cs) b := by
  intro w hpos hover hroom
  rw [List.length_append] at hroom
  obtain ⟨v, hv, hmoves⟩ := hp w hpos hover (by omega)
  obtain ⟨u, hu, hmoves'⟩ := hf v (by rw [hmoves.pos, hpos]) (hmoves.overrun.trans hover)
    (by rw [hmoves.remaining]; omega)
  exact ⟨u, (bind_of_ok hv).trans hu, hmoves.trans hmoves'⟩

theorem Writes.get {f : Writer → EStateM ε Writer α}
    (hf : ∀ w : Writer, w.pos = pos → w.overrun = false → f w = p) (hp : Writes pos p bs a) :
    Writes pos (MonadState.get >>= f) bs a := by
  intro w hpos hover hroom
  rw [get_bind, hf w hpos hover]
  exact hp w hpos hover hroom

theorem Writes.report {p : Build α} (h : Writes pos p bs a) : Writes pos (reportFaults p) bs a := by
  intro w hpos hover hroom
  obtain ⟨v, hv, hmoves⟩ := h w hpos hover hroom
  exact ⟨v, reportFaults_eq_ok.mpr hv, hmoves⟩

theorem Writes.ofExcept {x : Except ε α} (h : x = .ok a) :
    Writes pos (liftM x : EStateM ε Writer α) [] a := by
  subst h
  exact fun w _ _ _ => ⟨w, rfl, .refl w⟩

end Sequencing

namespace Build

variable {pos : Nat}

theorem appends_u {count value : Nat} (hcount : count ≤ 64) (hvalue : value < 2 ^ count) :
    Appends (u count value) (.ofNat count value) () := by
  intro w hroom
  rw [Bits.length_ofNat] at hroom
  refine ⟨_, ?_, w.moves_append (.bits w.pos count value) _⟩
  rw [u, Nat.min_eq_left hcount, if_neg (by omega), if_neg (by omega)]

theorem appends_flag (b : Bool) : Appends (flag b) [b] () := by
  rw [← Bits.ofNat_one]
  exact appends_u (by decide) b.toNat_lt

/-- Any bits can be written, one at a time. -/
theorem appends_flags (bs : Bits) : Appends (bs.forM flag) bs () := by
  induction bs with
  | nil => exact Appends.pure ()
  | cons b bs ih => exact (appends_flag b).bind ih

theorem appends_octets (bs : List UInt8) : Appends (octets bs) (.ofBytes bs) () := by
  induction bs with
  | nil => exact Appends.pure ()
  | cons b bs ih => exact (appends_u (by decide) b.toNat_lt).bind ih

theorem appends_bytes (bs : List UInt8) : Appends (bytes bs) (.ofBytes bs) () := by
  have hsome : Appends (someBytes bs) (.ofBytes bs) bs.length := by
    intro w hroom
    rw [Bits.length_ofBytes] at hroom
    rw [someBytes, get_bind]
    by_cases hempty : bs = []
    · subst hempty
      exact ⟨w, rfl, .refl w⟩
    have hcount : min bs.length (w.remaining / 8) = bs.length := by omega
    have hne : ¬bs.length = 0 := fun h => hempty (List.length_eq_zero_iff.mp h)
    rw [if_neg (by simpa using hempty), hcount, if_neg hne, List.take_length]
    by_cases haligned : w.isAligned
    · rw [if_pos haligned]
      exact ⟨_, rfl, Writer.moves_appendBytes (w.isAligned_iff.mp haligned) hroom
        (.bytes w.pos bs.length)⟩
    · rw [if_neg haligned]
      have hoctets : Appends (do octets bs; return bs.length) (.ofBytes bs) bs.length :=
        (appends_octets bs).last rfl
      exact hoctets w (by rwa [Bits.length_ofBytes])
  exact hsome.last (if_pos rfl)

theorem writes_bytes (bs : List UInt8) : Writes pos (bytes bs) (.ofBytes bs) () :=
  (appends_bytes bs).writes

theorem exists_align {w : Writer} (hroom : (8 - w.pos % 8) % 8 ≤ w.remaining) :
    ∃ v, align w = .ok () v ∧ w.Moves (List.replicate ((8 - w.pos % 8) % 8) false) v := by
  rw [align, get_bind]
  by_cases haligned : w.pos % 8 = 0
  · rw [if_pos (w.isAligned_iff.mpr haligned), haligned]
    exact ⟨w, rfl, .refl w⟩
  · have hcount : (8 - w.pos % 8) % 8 = 8 - w.pos % 8 := by omega
    rw [hcount] at hroom
    rw [if_neg (mt w.isAligned_iff.mp haligned), hcount, ← Bits.ofNat_replicate_false]
    exact appends_u (by omega) (Nat.pow_pos (by decide)) w (by rwa [Bits.length_ofNat])

/-- The stop bit and as many zero bits as the byte has left. Where there is room for the stop bit
there is room for all of them. -/
theorem exists_trailingBits {w : Writer} (hroom : 0 < w.remaining) :
    ∃ v, trailingBits w = .ok () v ∧ w.Moves (.stop (7 - w.pos % 8)) v := by
  obtain ⟨s, hs, hmoves⟩ := appends_flag true w hroom
  have hpos : s.pos = w.pos + 1 := hmoves.pos
  have hzeros : (8 - s.pos % 8) % 8 = 7 - w.pos % 8 := by omega
  have hleft : (8 - s.pos % 8) % 8 ≤ s.remaining := by
    rw [hmoves.remaining, List.length_singleton]
    unfold Writer.remaining at hroom ⊢
    omega
  obtain ⟨v, hv, hmoves'⟩ := exists_align hleft
  rw [hzeros] at hmoves'
  exact ⟨v, (bind_of_ok hs).trans hv, hmoves.trans hmoves'⟩

theorem writes_align : Writes pos align (List.replicate ((8 - pos % 8) % 8) false) () := by
  rintro w rfl _ hroom
  rw [List.length_replicate] at hroom
  exact exists_align hroom

theorem writes_trailingBits : Writes pos trailingBits (.stop (7 - pos % 8)) () := by
  rintro w rfl _ hroom
  rw [Bits.length_stop] at hroom
  exact exists_trailingBits (Nat.lt_of_lt_of_le (Nat.succ_pos _) hroom)

/-- The end of a payload that began at a byte boundary. -/
theorem writes_closing (hpos : pos % 8 = 0) (c : Code) :
    Writes (pos + c.bits.length) trailingBits (.stop (7 - c.bits.length % 8)) () := by
  have hzeros : 7 - (pos + c.bits.length) % 8 = 7 - c.bits.length % 8 := by omega
  exact hzeros ▸ writes_trailingBits

theorem writes_finish (haligned : pos % 8 = 0) : Writes pos finish [] (pos / 8) := by
  have halign : Writes pos align [] () := by
    refine Writes.get (fun w hpos _ => ?_) (Writes.pure ())
    rw [if_pos (w.isAligned_iff.mpr (hpos ▸ haligned))]
  refine halign.bind (Writes.get (fun w hpos _ => ?_) (Writes.pure _))
  rw [hpos]
  rfl

end Build

theorem Field.appends {f : Field} (h : f.Fits) : Appends f.write f.bits () := by
  cases f with
  | number width value => exact Build.appends_u h.1 h.2
  | bytes bs => exact Build.appends_bytes bs

theorem Code.Valid.appends {c : Code} (h : c.Valid) : Appends c.write c.bits () := by
  obtain ⟨fields, fault⟩ := c
  obtain ⟨rfl, hfields⟩ := h
  have hall : Appends (Field.writeAll fields) (fields.flatMap Field.bits) () := by
    induction fields with
    | nil => exact Appends.pure ()
    | cons f fields ih =>
      obtain ⟨hf, hfields⟩ := List.forall_mem_cons.mp hfields
      exact (Field.appends hf).bind (ih hfields)
  exact hall.last rfl

theorem Code.Valid.writes {pos : Nat} {c : Code} (h : c.Valid) : Writes pos c.write c.bits () :=
  h.appends.writes

theorem Field.writeAll_append (fs gs : List Field) :
    writeAll (fs ++ gs) = (do writeAll fs; writeAll gs) := by
  induction fs with
  | nil => rfl
  | cons f fs ih => simp only [List.cons_append, writeAll, ih, bind_assoc]

/-- The second code is written behind the first, unless writing that fails. -/
theorem Code.write_append (c d : Code) : (c ++ d).write = (do c.write; d.write) := by
  cases hc : c.fault with
  | none =>
    rw [append_of_no_fault hc]
    simp only [write, hc, Field.writeAll_append, bind_assoc, pure_bind]
  | some e =>
    rw [append_of_fault (by rw [hc]; rfl)]
    simp only [write, hc, bind_assoc]
    rfl

theorem Code.write_concat (cs : List Code) : (concat cs).write = cs.forM Code.write := by
  induction cs with
  | nil => rfl
  | cons c cs ih =>
    rw [concat, write_append, ih]
    rfl

end AvcSyntax

import AvcSyntax.Proofs.Bits.ExpGolomb

/-!
# Reading past the end

A reader that was asked for more than was left is marked, stands at the end and stays so. This is
`Reader.Sound`, which every action keeps. An action latches if it fails for want of data in no
other way than with such a reader.

Of the primitive actions one does not latch. Whole bytes between two byte boundaries stop short
of the end, where the bits of the last byte stay unread and nothing marks the reader.
-/
namespace AvcSyntax

namespace Reader

/-- A reader that has been asked for more than was left has nothing left. -/
structure Sound (r : Reader) : Prop where
  inBounds : r.InBounds
  remaining : r.overrun = true → r.remaining = 0

structure Spent (r : Reader) : Prop where
  overrun : r.overrun = true
  remaining : r.remaining = 0

structure Continues (r s : Reader) : Prop where
  sound : s.Sound
  overrun : r.overrun = true → s.overrun = true

theorem remaining_eq_zero_iff {r : Reader} : r.remaining = 0 ↔ r.atEnd := by
  rw [atEnd_iff, remaining, Nat.sub_eq_zero_iff_le]

theorem spent_exhausted (r : Reader) : r.exhausted.Spent := ⟨rfl, Nat.sub_self _⟩

variable {r s t : Reader}

theorem Continues.refl (h : r.Sound) : r.Continues r := ⟨h, id⟩

theorem Continues.trans (h : r.Continues s) (k : s.Continues t) : r.Continues t :=
  ⟨k.sound, fun hover => k.overrun (h.overrun hover)⟩

theorem continues_exhausted (r : Reader) : r.Continues r.exhausted := by
  have hspent := r.spent_exhausted
  refine ⟨⟨?_, fun _ => hspent.remaining⟩, fun _ => hspent.overrun⟩
  exact Nat.le_refl r.size

theorem Sound.moves {bs : Bits} (hr : r.Sound) (h : r.Moves bs s) : r.Continues s := by
  have hlength := congrArg List.length h.rest
  rw [List.length_append, length_rest, length_rest] at hlength
  refine ⟨⟨h.inBounds hr.inBounds, ?_⟩, fun hover => h.overrun.trans hover⟩
  intro hover
  have hnone := hr.remaining (h.overrun.symm.trans hover)
  omega

theorem Sound.advance (hr : r.Sound) {count : Nat} (hroom : count ≤ r.remaining) (t : Trace) :
    r.Continues { r with pos := r.pos + count, trace := t } := hr.moves (moves_of_room hroom t)

end Reader

namespace Parse

variable {α β : Type} {p : Parse α} {f : α → Parse β} {r s : Reader}

/-- The reader that an action leaves, whether or not it fails. -/
def reach (p : Parse α) (r : Reader) : Reader :=
  match p r with
  | .ok _ s => s
  | .error _ s => s

theorem reach_of_ok {a : α} (h : p r = .ok a s) : p.reach r = s := by rw [reach, h]

theorem reach_of_error {e : Fault} (h : p r = .error e s) : p.reach r = s := by rw [reach, h]

/-- A relation between the readers before and after the parts of a sequence goes over to the
whole. -/
theorem reach_bind {R : Reader → Reader → Prop} (htrans : ∀ {r s t}, R r s → R s t → R r t)
    (hp : ∀ r, R r (p.reach r)) (hf : ∀ a r, R r ((f a).reach r)) (r : Reader) :
    R r ((p >>= f).reach r) := by
  have hfirst := hp r
  cases h : p r with
  | ok a s =>
    have hreach : (p >>= f).reach r = (f a).reach s := by rw [reach, bind_of_ok h, reach]
    rw [reach_of_ok h] at hfirst
    rw [hreach]
    exact htrans hfirst (hf a s)
  | error e s =>
    rw [reach_of_error h] at hfirst
    rwa [reach_of_error (bind_of_error h)]

/-- The action keeps readers sound and takes no mark back. -/
def Keeps (p : Parse α) : Prop := ∀ r : Reader, r.Sound → r.Continues (p.reach r)

/-- The action keeps readers sound, and whenever it fails for want of data it leaves a marked
reader at the end. -/
structure Latches (p : Parse α) : Prop where
  keeps : p.Keeps
  spent : ∀ r e s, r.Sound → p r = .error e s → e.kind = .endOfData → s.Spent

theorem Keeps.continues {a : α} (hp : p.Keeps) (hr : r.Sound) (h : p r = .ok a s) :
    r.Continues s := reach_of_ok h ▸ hp r hr

theorem Keeps.pure (a : α) : Keeps (Pure.pure a) := fun _ hr => .refl hr

theorem Keeps.throw (e : Fault) : Keeps (throw e : Parse α) := fun _ hr => .refl hr

theorem Keeps.bind (hp : p.Keeps) (hf : ∀ a, (f a).Keeps) : (p >>= f).Keeps := by
  refine reach_bind (R := fun r s => r.Sound → r.Continues s) ?_ hp hf
  intro r s t h k hr
  exact (h hr).trans (k (h hr).sound)

theorem Keeps.map (hp : p.Keeps) (g : α → β) : (g <$> p).Keeps := by
  rw [map_eq_pure_bind]
  exact hp.bind fun a => .pure (g a)

theorem Latches.pure (a : α) : Latches (Pure.pure a) := by
  refine ⟨Keeps.pure a, ?_⟩
  intro r e s _ h
  cases h

theorem Latches.throw {e : Fault} (he : e.kind ≠ .endOfData) : Latches (throw e : Parse α) := by
  refine ⟨Keeps.throw e, ?_⟩
  intro r e s _ h hkind
  cases h
  exact absurd hkind he

theorem Latches.bind (hp : p.Latches) (hf : ∀ a, (f a).Latches) : (p >>= f).Latches := by
  refine ⟨hp.keeps.bind fun a => (hf a).keeps, ?_⟩
  intro r e t hr h hkind
  rcases bind_eq_error.mp h with hfirst | ⟨a, s, hs, hlater⟩
  · exact hp.spent r e t hr hfirst hkind
  · exact (hf a).spent s e t (hp.keeps.continues hr hs).sound hlater hkind

theorem Latches.map (hp : p.Latches) (g : α → β) : (g <$> p).Latches := by
  rw [map_eq_pure_bind]
  exact hp.bind fun a => .pure (g a)

theorem Latches.of_outcome (h : ∀ r : Reader, r.Sound →
    p r = .error .bitsExhausted r.exhausted ∨ ∃ a s, p r = .ok a s ∧ r.Continues s) :
    p.Latches := by
  constructor
  case keeps =>
    intro r hr
    rcases h r hr with hfail | ⟨a, s, hs, hcontinues⟩
    · rw [reach_of_error hfail]
      exact r.continues_exhausted
    · rwa [reach_of_ok hs]
  case spent =>
    intro r e s hr hfail _
    rcases h r hr with hexhausted | ⟨a, t, ht, -⟩
    · rw [hexhausted] at hfail
      cases hfail
      exact r.spent_exhausted
    · rw [ht] at hfail
      cases hfail

theorem latches_u (count : Nat) : (u count).Latches := by
  apply Latches.of_outcome
  intro r hr
  by_cases hroom : r.remaining < min count 64
  · exact .inl (if_pos hroom)
  · exact .inr ⟨_, _, if_neg hroom, hr.advance (Nat.not_lt.mp hroom) _⟩

theorem latches_flag : flag.Latches := (latches_u 1).bind fun _ => .pure _

theorem latches_skip (count : Nat) : (skip count).Latches := by
  apply Latches.of_outcome
  intro r hr
  by_cases hroom : r.remaining < count
  · exact .inl (if_pos hroom)
  · exact .inr ⟨_, _, if_neg hroom, hr.advance (Nat.not_lt.mp hroom) r.trace⟩

theorem latches_align : align.Latches := by
  -- What is done depends on the reader, but for each reader it is an action that latches.
  have hstep (r : Reader) :
      (if r.isAligned then Pure.pure () else skip r.bitsLeftInByte).Latches := by
    split
    · exact .pure ()
    · exact latches_skip _
  constructor
  case keeps => exact fun r hr => (hstep r).keeps r hr
  case spent => exact fun r => (hstep r).spent r

theorem latches_readZeros (more : Nat) : (ExpGolomb.readZeros more).Latches := by
  induction more with
  | zero =>
    refine latches_flag.bind fun stop => ?_
    cases stop with
    | true => exact .pure 0
    | false => exact .throw (by decide)
  | succ more ih =>
    refine latches_flag.bind fun stop => ?_
    cases stop with
    | true => exact .pure 0
    | false => exact ih.bind fun zeros => .pure (zeros + 1)

theorem latches_ue : ue.Latches := by
  rw [ue_eq]
  exact (latches_readZeros _).bind fun zeros => (latches_u zeros).bind fun _ => .pure _

theorem latches_se : se.Latches := by
  rw [se_eq]
  exact latches_ue.map _

theorem exists_octets {count : Nat} (hr : r.InBounds) (hroom : 8 * count ≤ r.remaining) :
    ∃ bs s, octets count r = .ok bs s ∧ bs.length = count ∧ r.Moves (.ofBytes bs) s := by
  obtain ⟨bs, tail, rfl, hrest⟩ := exists_rest_bytes hroom
  rw [← Code.bits_bytes] at hrest
  obtain ⟨s, hs, hmoves⟩ := (reads_octets bs).run r hr hrest
  rw [Code.bits_bytes] at hmoves
  exact ⟨bs, s, hs, rfl, hmoves⟩

/-- Between two byte boundaries some bits of the byte are left. -/
theorem remaining_mod_pos (hr : r.InBounds) (hpos : r.pos % 8 ≠ 0) : 0 < r.remaining % 8 := by
  unfold Reader.InBounds Reader.size at hr
  unfold Reader.remaining Reader.size
  omega

theorem someBytes_between (hr : r.InBounds) (hpos : r.pos % 8 ≠ 0) (count : Nat) :
    someBytes count r = octets (min count (r.remaining / 8)) r := by
  have hleft := remaining_mod_pos hr hpos
  have haligned : ¬r.isAligned := fun h => hpos (r.isAligned_iff.mp h)
  have hend : ¬r.atEnd := by
    rw [← Reader.remaining_eq_zero_iff]
    omega
  rw [someBytes_eq, if_neg hend, if_neg haligned]
  by_cases hcount : count = 0
  · rw [if_pos hcount, hcount, Nat.zero_min]
    rfl
  · rw [if_neg hcount]

theorem someBytes_atEnd (hend : r.remaining = 0) {count : Nat} (hcount : count ≠ 0) :
    someBytes count r = .ok [] { r with overrun := true } := by
  rw [someBytes_eq, if_neg hcount, if_pos (Reader.remaining_eq_zero_iff.mp hend)]

/-- At a byte boundary a read that comes up short reaches the end. -/
theorem someBytes_aligned (hr : r.Sound) (hpos : r.pos % 8 = 0) (count : Nat) :
    ∃ found s, someBytes count r = .ok found s ∧ r.Continues s ∧ found.length ≤ count ∧
      (found.length ≠ count → s.remaining = 0) := by
  by_cases hcount : count = 0
  · refine ⟨[], r, by rw [someBytes_eq, if_pos hcount], .refl hr, Nat.zero_le _, ?_⟩
    exact fun hshort => absurd hcount.symm hshort
  by_cases hend : r.remaining = 0
  · have hspent : r.Continues { r with overrun := true } :=
      ⟨⟨hr.inBounds, fun _ => hend⟩, fun _ => rfl⟩
    exact ⟨[], _, someBytes_atEnd hend hcount, hspent, Nat.zero_le _, fun _ => hend⟩
  have haligned : r.isAligned := r.isAligned_iff.mpr hpos
  have hlength : (copied count r).length = min count (r.data.size - r.pos / 8) := by
    simp only [copied, Array.length_toList, Array.size_extract]
    omega
  have hroom : 8 * (copied count r).length ≤ r.remaining := by
    rw [hlength, Reader.remaining, Reader.size]
    omega
  have hcontinues := hr.advance hroom (r.trace.add (.bytes r.pos (copied count r).length))
  refine ⟨copied count r, _, ?_, hcontinues, by omega, ?_⟩
  · rw [someBytes_eq, if_neg hcount, if_neg fun h => hend (Reader.remaining_eq_zero_iff.mpr h),
      if_pos haligned]
    rfl
  · intro hshort
    change 8 * r.data.size - (r.pos + 8 * (copied count r).length) = 0
    omega

theorem exists_someBytes (hr : r.Sound) (count : Nat) :
    ∃ found s, someBytes count r = .ok found s ∧ r.Continues s := by
  by_cases hpos : r.pos % 8 = 0
  · obtain ⟨found, s, hs, hcontinues, -⟩ := someBytes_aligned hr hpos count
    exact ⟨found, s, hs, hcontinues⟩
  · have hroom : 8 * min count (r.remaining / 8) ≤ r.remaining := by omega
    obtain ⟨found, s, hs, -, hmoves⟩ := exists_octets hr.inBounds hroom
    exact ⟨found, s, (someBytes_between hr.inBounds hpos count).trans hs, hr.moves hmoves⟩

theorem latches_someBytes (count : Nat) : (someBytes count).Latches :=
  Latches.of_outcome fun _ hr => .inr (exists_someBytes hr count)

theorem keeps_bytes (count : Nat) : (bytes count).Keeps := by
  refine (latches_someBytes count).keeps.bind fun found => ?_
  split
  · exact .pure found
  · exact (latches_someBytes _).keeps.bind fun _ => .throw _

/-- Whole bytes are missed behind one read that comes up short and another one. -/
theorem someBytes_of_bytes {count : Nat} {e : Fault} (hr : r.Sound)
    (h : bytes count r = .error e s) :
    ∃ found t more, someBytes count r = .ok found t ∧ found.length ≠ count ∧
      someBytes (count - found.length) t = .ok more s := by
  obtain ⟨found, t, ht, hcontinues⟩ := exists_someBytes hr count
  obtain ⟨more, u, hu, -⟩ := exists_someBytes hcontinues.sound (count - found.length)
  rw [bytes, bind_of_ok ht] at h
  split at h
  · cases h
  · rename_i hshort
    rw [bind_of_ok hu] at h
    cases h
    exact ⟨found, t, more, ht, hshort, hu⟩

/-- At a byte boundary the second read finds the reader at the end. -/
theorem spent_of_bytes {count : Nat} {e : Fault} (hr : r.Sound) (hpos : r.pos % 8 = 0)
    (h : bytes count r = .error e s) : s.Spent := by
  obtain ⟨found, t, more, hfirst, hshort, hsecond⟩ := someBytes_of_bytes hr h
  obtain ⟨bs, u, hu, -, hle, hend⟩ := someBytes_aligned hr hpos count
  rw [hfirst] at hu
  cases hu
  have hnone := hend hshort
  rw [someBytes_atEnd hnone (by omega)] at hsecond
  cases hsecond
  exact ⟨rfl, hnone⟩

/-- Between two byte boundaries the second read finds less than a byte, and leaves it. -/
theorem left_of_bytes {count : Nat} {e : Fault} (hr : r.Sound) (hpos : r.pos % 8 ≠ 0)
    (h : bytes count r = .error e s) :
    s.overrun = false ∧ s.remaining = r.remaining % 8 ∧ 0 < s.remaining := by
  obtain ⟨found, t, more, hfirst, hshort, hsecond⟩ := someBytes_of_bytes hr h
  have hroom : 8 * min count (r.remaining / 8) ≤ r.remaining := by omega
  obtain ⟨bs, u, hu, hlength, hmoves⟩ := exists_octets hr.inBounds hroom
  rw [someBytes_between hr.inBounds hpos, hu] at hfirst
  cases hfirst
  have hend := hmoves.pos
  rw [Bits.length_ofBytes] at hend
  have hleft : t.remaining = r.remaining % 8 := by
    rw [Reader.remaining, hmoves.size, hend, ← Nat.sub_sub, ← Reader.remaining]
    omega
  have hnone : min (count - found.length) (t.remaining / 8) = 0 := by omega
  rw [someBytes_between (hmoves.inBounds hr.inBounds) (by omega), hnone] at hsecond
  cases hsecond
  have hsome := remaining_mod_pos hr.inBounds hpos
  have hover : r.overrun ≠ true := fun hover => by
    have := hr.remaining hover
    omega
  exact ⟨hmoves.overrun.trans (Bool.eq_false_iff.mpr hover), hleft, hleft ▸ hsome⟩

theorem map_eq_error {g : α → β} {e : Fault} :
    (g <$> p) r = .error e s ↔ p r = .error e s := by
  rw [map_eq_pure_bind, bind_eq_error]
  constructor
  · rintro (h | ⟨a, t, -, h⟩)
    · exact h
    · cases h
  · exact .inl

end Parse

inductive Reading where
  | flag
  | number (width : Nat)
  | skip (count : Nat)
  | align
  | unsignedCode
  | signedCode
  | someBytes (count : Nat)
  | bytes (count : Nat)
  | word (count : Nat)
  deriving DecidableEq, Repr

namespace Reading

/-- What an operation does, without the value that it yields. -/
def run : Reading → Parse Unit
  | flag => (fun _ => ()) <$> Parse.flag
  | number width => (fun _ => ()) <$> Parse.u width
  | skip count => Parse.skip count
  | align => Parse.align
  | unsignedCode => (fun _ => ()) <$> Parse.ue
  | signedCode => (fun _ => ()) <$> Parse.se
  | someBytes count => (fun _ => ()) <$> Parse.someBytes count
  | bytes count => (fun _ => ()) <$> Parse.bytes count
  | word count => (fun _ => ()) <$> Parse.word count

def takesBytes : Reading → Bool
  | bytes _ | word _ => true
  | _ => false

/-- The reader after some operations, whether or not they failed. -/
def after : List Reading → Reader → Reader
  | [], r => r
  | op :: ops, r => after ops (op.run.reach r)

theorem latches_run {op : Reading} (h : op.takesBytes = false) : op.run.Latches := by
  cases op with
  | flag => exact Parse.latches_flag.map _
  | number width => exact (Parse.latches_u width).map _
  | skip count => exact Parse.latches_skip count
  | align => exact Parse.latches_align
  | unsignedCode => exact Parse.latches_ue.map _
  | signedCode => exact Parse.latches_se.map _
  | someBytes count => exact (Parse.latches_someBytes count).map _
  | bytes count => cases h
  | word count => cases h

/-- Whole bytes and words fail in the same way. -/
theorem bytes_of_run {op : Reading} (h : op.takesBytes = true) {r s : Reader} {e : Fault}
    (hfail : op.run r = .error e s) : ∃ count, Parse.bytes count r = .error e s := by
  cases op with
  | bytes count => exact ⟨count, Parse.map_eq_error.mp hfail⟩
  | word count => exact ⟨count, Parse.map_eq_error.mp (Parse.map_eq_error.mp hfail)⟩
  | _ => cases h

theorem keeps_run (op : Reading) : op.run.Keeps := by
  cases op with
  | bytes count => exact (Parse.keeps_bytes count).map _
  | word count => exact ((Parse.keeps_bytes count).map _).map _
  | _ => exact (latches_run rfl).keeps

theorem continues_after (ops : List Reading) {r : Reader} (hr : r.Sound) :
    r.Continues (after ops r) := by
  induction ops generalizing r with
  | nil => exact .refl hr
  | cons op ops ih =>
    have hstep := op.keeps_run r hr
    exact hstep.trans (ih hstep.sound)

/-- Whatever a reader went through, no operation takes its mark back, and one that fails for want
of data leaves it marked and at the end. Only whole bytes between two byte boundaries leave the
bits behind the last whole byte, and no mark. -/
theorem spent_unless_between (data : Array UInt8) (trace : Trace) (history : List Reading)
    (op : Reading) :
    let r := after history { data, trace }
    (r.overrun = true → (op.run.reach r).overrun = true) ∧
    ∀ e s, op.run r = .error e s → e.kind = .endOfData →
      if op.takesBytes = true ∧ r.pos % 8 ≠ 0 then
        s.overrun = false ∧ s.remaining = r.remaining % 8 ∧ 0 < s.remaining
      else s.overrun = true ∧ s.remaining = 0 := by
  intro r
  have hstart : ({ data, trace } : Reader).Sound := ⟨Nat.zero_le _, nofun⟩
  have hr : r.Sound := (continues_after history hstart).sound
  refine ⟨(op.keeps_run r hr).overrun, ?_⟩
  intro e s hfail hkind
  cases htakes : op.takesBytes with
  | false =>
    have hspent := (latches_run htakes).spent r e s hr hfail hkind
    rw [if_neg (by simp)]
    exact ⟨hspent.overrun, hspent.remaining⟩
  | true =>
    obtain ⟨count, hbytes⟩ := bytes_of_run htakes hfail
    by_cases hpos : r.pos % 8 = 0
    · have hspent := Parse.spent_of_bytes hr hpos hbytes
      rw [if_neg (by simp [hpos])]
      exact ⟨hspent.overrun, hspent.remaining⟩
    · rw [if_pos ⟨rfl, hpos⟩]
      exact Parse.left_of_bytes hr hpos hbytes

/-- Behind one bit of a single byte another byte is refused, with seven bits left and no mark. The
same request for eight bits leaves a marked reader at the end. -/
theorem spent_unless_between_left :
    let r := after [.flag] { data := #[0x80] }
    (bytes 1).run r = .error .bytesExhausted r ∧ r.overrun = false ∧ r.remaining = 7 ∧
      (number 8).run r = .error .bitsExhausted r.exhausted ∧
      r.exhausted.overrun = true ∧ r.exhausted.remaining = 0 := by
  intro r
  have hbytes : (bytes 1).run r = .error .bytesExhausted r := by cbv
  have hnumber : (number 8).run r = .error .bitsExhausted r.exhausted := by cbv
  have hleft := (spent_unless_between #[0x80] none [.flag] (bytes 1)).2 _ _ hbytes rfl
  have hspent := (spent_unless_between #[0x80] none [.flag] (number 8)).2 _ _ hnumber rfl
  have hpos : r.pos % 8 ≠ 0 := by decide
  have hremaining : r.remaining % 8 = 7 := by decide
  rw [if_pos ⟨rfl, hpos⟩, hremaining] at hleft
  rw [if_neg (by decide)] at hspent
  exact ⟨hbytes, hleft.1, hleft.2.1, hnumber, hspent⟩

end Reading

end AvcSyntax

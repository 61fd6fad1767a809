import AvcSyntax.Proofs.Bits.Bytes

/-!
# A position as a byte and a bit

A `Reader` knows its position as one number. A `Cursor` keeps it as the index of a byte and the
number of bits of that byte that are read, and every look at the buffer is a look at a byte that
might not be there: an action on it that looks outside of the buffer fails without a fault.

`Walk.Tracks` relates the two. It is closed under sequencing, so each operation on a reader is
followed step by step. After any operations, failed ones included, the cursor is that of the
reader, and no step has looked outside.
-/
namespace AvcSyntax

/-- A read position in a byte buffer, kept as a byte and a number of bits of it. -/
structure Cursor where
  data : Array UInt8
  byte : Nat := 0
  bit : Nat := 0
  overrun : Bool := false
  deriving DecidableEq, Repr

namespace Cursor

def position (c : Cursor) : Nat := 8 * c.byte + c.bit

def atEnd (c : Cursor) : Bool := c.data.size ≤ c.byte

def remaining (c : Cursor) : Nat := if c.atEnd then 0 else 8 * (c.data.size - c.byte) - c.bit

def exhausted (c : Cursor) : Cursor := { c with byte := c.data.size, bit := 0, overrun := true }

/-- Behind the last bit of a byte comes the first one of the next. -/
def next (c : Cursor) : Cursor :=
  if c.bit + 1 = 8 then { c with byte := c.byte + 1, bit := 0 } else { c with bit := c.bit + 1 }

/-- The byte that the cursor stands in, if both byte and bit are there. -/
def here? (c : Cursor) : Option UInt8 := if c.bit < 8 then c.data[c.byte]? else none

end Cursor

/-- An action on a cursor. It fails with a fault, or with none where it looks outside. -/
abbrev Walk := EStateM (Option Fault) Cursor

namespace Walk

def bit : Walk Bool := fun c =>
  match c.here? with
  | some x => .ok (x.toNat.testBit (7 - c.bit)) c.next
  | none => .error none c

/-- Takes bits and puts them behind those that a number already holds. -/
def bitsAfter : (count number : Nat) → Walk Nat
  | 0, number => return number
  | count + 1, number => do
    let b ← bit
    bitsAfter count (2 * number + b.toNat)

def u (count : Nat) : Walk Nat := fun c =>
  let width := min count 64
  if c.remaining < width then .error (some .bitsExhausted) c.exhausted else bitsAfter width 0 c

/-- The next `count` bits as a number, at most 64. The bits that are there are taken on a copy and
make room for those behind the end, in a word of 64 bits. -/
def peekBits (count : Nat) : Walk Nat := fun c =>
  let width := min count 64
  let available := min c.remaining width
  match bitsAfter available 0 c with
  | .ok number _ =>
    .ok (if width - available < 64 then number <<< (width - available) % 2 ^ 64 else 0) c
  | .error e _ => .error e c

def skip (count : Nat) : Walk Unit := fun c =>
  if c.remaining < count then .error (some .bitsExhausted) c.exhausted
  else .ok () { c with byte := (c.position + count) / 8, bit := (c.position + count) % 8 }

def align : Walk Unit := do
  let c ← get
  unless c.bit = 0 do skip (8 - c.bit)

/-- Copies bytes from the one that the cursor stands in front of. -/
def copy (count : Nat) : Walk (List UInt8) := fun c =>
  if c.byte + count ≤ c.data.size then
    .ok (c.data.extract c.byte (c.byte + count)).toList { c with byte := c.byte + count }
  else .error none c

def alignedBytes : Walk (List UInt8) := fun c =>
  let start := min (if c.bit = 0 then c.byte else c.byte + 1) c.data.size
  if start ≤ c.data.size then .ok (c.data.toList.drop start) c else .error none c

def octets : (count : Nat) → Walk (List UInt8)
  | 0 => return []
  | count + 1 => do
    let b ← u 8
    return b.toUInt8 :: (← octets count)

def someBytes (count : Nat) : Walk (List UInt8) := do
  let c ← get
  if count = 0 then return []
  else if c.atEnd then
    set { c with overrun := true }
    return []
  else if c.bit = 0 then copy (min count (c.data.size - c.byte))
  else octets (min count (c.remaining / 8))

/-- Reads bytes, as many at a time as there are, until none are missing or none is found. -/
def bytes (count : Nat) : Walk (List UInt8) := do
  if count = 0 then return []
  let found ← someBytes count
  if found.length = 0 then throw (some .bytesExhausted)
  else return found ++ (← bytes (count - found.length))
termination_by count

/-- Reads one bit as a number. -/
def flag : Walk Bool := do return (← u 1) == 1

def readZeros : (more : Nat) → Walk Nat
  | 0 => do
    if ← flag then return 0 else throw (some .golombPrefixTooLong)
  | more + 1 => do
    if ← flag then return 0 else return (← readZeros more) + 1

def ue : Walk Nat := do
  let zeros ← readZeros ExpGolomb.maxZeros
  let low ← u zeros
  return 1 <<< zeros - 1 + low

end Walk

namespace Parse

variable {α β : Type} {p : Parse α} {f : α → Parse β}

/-- The action leaves the buffer of the reader alone, also where it fails. -/
def Retains (p : Parse α) : Prop := ∀ r : Reader, (p.reach r).data = r.data

theorem Retains.pure (a : α) : Retains (Pure.pure a) := fun _ => rfl

theorem Retains.throw (e : Fault) : Retains (throw e : Parse α) := fun _ => rfl

theorem Retains.bind (hp : p.Retains) (hf : ∀ a, (f a).Retains) : (p >>= f).Retains :=
  reach_bind (R := fun r s => s.data = r.data) (fun h k => k.trans h) hp hf

theorem Retains.map (hp : p.Retains) (g : α → β) : (g <$> p).Retains := by
  rw [map_eq_pure_bind]
  exact hp.bind fun a => .pure (g a)

theorem retains_u (count : Nat) : (u count).Retains := by
  intro r
  by_cases hroom : r.remaining < min count 64
  · rw [reach_of_error (if_pos hroom), Reader.exhausted]
  · rw [reach_of_ok (if_neg hroom)]
    rfl

theorem retains_flag : flag.Retains := (retains_u 1).bind fun _ => .pure _

theorem retains_skip (count : Nat) : (skip count).Retains := by
  intro r
  by_cases hroom : r.remaining < count
  · rw [reach_of_error (if_pos hroom), Reader.exhausted]
  · rw [reach_of_ok (if_neg hroom), Reader.advance]

theorem retains_align : align.Retains := by
  intro r
  by_cases haligned : r.isAligned
  · rw [reach, align, get_bind, if_pos haligned]
    rfl
  · rw [reach, align, get_bind, if_neg haligned]
    exact retains_skip r.bitsLeftInByte r

theorem retains_octets (count : Nat) : (octets count).Retains := by
  induction count with
  | zero => exact .pure []
  | succ count ih => exact (retains_u 8).bind fun b => ih.bind fun bs => .pure _

theorem retains_someBytes (count : Nat) : (someBytes count).Retains := by
  intro r
  rw [reach, someBytes_eq]
  by_cases hcount : count = 0
  · rw [if_pos hcount]
  rw [if_neg hcount]
  by_cases hend : r.atEnd
  · rw [if_pos hend]
  rw [if_neg hend]
  by_cases haligned : r.isAligned
  · rw [if_pos haligned]
    rfl
  · rw [if_neg haligned]
    exact retains_octets _ r

theorem retains_bytes (count : Nat) : (bytes count).Retains := by
  refine (retains_someBytes count).bind fun found => ?_
  split
  · exact .pure found
  · exact (retains_someBytes _).bind fun _ => .throw _

theorem retains_readZeros (more : Nat) : (ExpGolomb.readZeros more).Retains := by
  induction more with
  | zero =>
    refine retains_flag.bind fun stop => ?_
    cases stop with
    | true => exact .pure 0
    | false => exact .throw _
  | succ more ih =>
    refine retains_flag.bind fun stop => ?_
    cases stop with
    | true => exact .pure 0
    | false => exact ih.bind fun zeros => .pure (zeros + 1)

theorem retains_ue : ue.Retains := by
  rw [ue_eq]
  exact (retains_readZeros _).bind fun zeros => (retains_u zeros).bind fun _ => .pure _

theorem retains_se : se.Retains := by
  rw [se_eq]
  exact retains_ue.map _

/-- Peeking is reading from a buffer that goes on with zero bytes. -/
theorem exists_u_zeros {r : Reader} (hr : r.InBounds) {count zeros : Nat}
    (hroom : min count 64 ≤ r.remaining + 8 * zeros) :
    ∃ s, u (min count 64) { r with data := r.data ++ .replicate zeros 0 } =
      .ok (r.peekBits count) s := by
  have hleft : min count 64 ≤
      ({ r with data := r.data ++ .replicate zeros 0 } : Reader).remaining := by
    unfold Reader.InBounds Reader.size at hr
    unfold Reader.remaining Reader.size at hroom
    change min count 64 ≤ 8 * (r.data ++ Array.replicate zeros 0).size - r.pos
    rw [Array.size_append, Array.size_replicate]
    omega
  have hvalue : r.peekBits count =
      (bitsAt (r.data ++ .replicate zeros 0) r.pos (min count 64)).toNat := by
    rw [Reader.peekBits, bitsAt_congr fun i _ => (bitAt_append_zeros r.data zeros _).symm]
  exact ⟨_, (u_eq_ok (Nat.min_le_right _ _)).mpr ⟨hleft, hvalue, rfl⟩⟩

end Parse

namespace Reader

variable {r : Reader}

/-- The position of a reader, kept as a byte and a bit. -/
def cursor (r : Reader) : Cursor := ⟨r.data, r.pos / 8, r.pos % 8, r.overrun⟩

theorem bit_cursor_lt (r : Reader) : r.cursor.bit < 8 := Nat.mod_lt _ (by decide)

theorem position_cursor (r : Reader) : r.cursor.position = r.pos := Nat.div_add_mod r.pos 8

theorem atEnd_cursor (r : Reader) : r.cursor.atEnd = r.atEnd := by
  change decide (r.data.size ≤ r.pos / 8) = decide (8 * r.data.size ≤ r.pos)
  rw [decide_eq_decide]
  omega

theorem remaining_cursor (r : Reader) : r.cursor.remaining = r.remaining := by
  rw [Cursor.remaining, atEnd_cursor]
  split
  · exact (remaining_eq_zero_iff.mpr ‹_›).symm
  · simp only [cursor, remaining, size]
    omega

theorem exhausted_cursor (r : Reader) : r.exhausted.cursor = r.cursor.exhausted := by
  simp [cursor, exhausted, Cursor.exhausted, size]

theorem next_cursor (r : Reader) (t : Trace) :
    r.cursor.next = { r with pos := r.pos + 1, trace := t }.cursor := by
  by_cases hlast : r.pos % 8 + 1 = 8
  · have hbyte : (r.pos + 1) / 8 = r.pos / 8 + 1 := by omega
    have hbit : (r.pos + 1) % 8 = 0 := by omega
    simp only [Cursor.next, cursor, hbyte, hbit]
    exact if_pos hlast
  · have hbyte : (r.pos + 1) / 8 = r.pos / 8 := by omega
    have hbit : (r.pos + 1) % 8 = r.pos % 8 + 1 := by omega
    simp only [Cursor.next, cursor, hbyte, hbit]
    exact if_neg hlast

theorem here?_cursor (h : r.pos < r.size) :
    r.cursor.here? = some (r.data.getD (r.pos / 8) 0) := by
  have hindex : r.pos / 8 < r.data.size := by
    unfold size at h
    omega
  rw [Cursor.here?, if_pos r.bit_cursor_lt]
  simp [cursor, hindex]

end Reader

namespace Walk

variable {α β : Type} {q : Walk α} {p : Parse α} {g : α → Walk β} {f : α → Parse β} {r : Reader}

/-- What a cursor comes to where a reader comes to a given result. -/
def follow : EStateM.Result Fault Reader α → EStateM.Result (Option Fault) Cursor α
  | .ok a s => .ok a s.cursor
  | .error e s => .error (some e) s.cursor

/-- The walk does to the cursor of a reader what the parser does to the reader. In particular it
does not look outside of the buffer. -/
def Tracks (q : Walk α) (p : Parse α) : Prop := ∀ r : Reader, r.Sound → q r.cursor = follow (p r)

theorem Tracks.pure (a : α) : Tracks (Pure.pure a) (Pure.pure a) := fun _ _ => rfl

theorem Tracks.throw (e : Fault) : Tracks (throw (some e) : Walk α) (throw e) := fun _ _ => rfl

/-- What follows is tracked where the first part leads. -/
theorem Tracks.bind_at (hq : Tracks q p)
    (hf : ∀ r a s, r.Sound → p r = .ok a s → g a s.cursor = follow (f a s)) :
    Tracks (q >>= g) (p >>= f) := by
  intro r hr
  have hfirst := hq r hr
  cases h : p r with
  | ok a s =>
    rw [h] at hfirst
    rw [bind_of_ok hfirst, bind_of_ok h]
    exact hf r a s hr h
  | error e s =>
    rw [h] at hfirst
    rw [bind_of_error hfirst, bind_of_error h]
    rfl

theorem Tracks.bind (hq : Tracks q p) (hp : p.Keeps) (hf : ∀ a, Tracks (g a) (f a)) :
    Tracks (q >>= g) (p >>= f) :=
  hq.bind_at fun _ a s hr h => hf a s (hp.continues hr h).sound

/-- The last step of an action only puts its result together. -/
theorem Tracks.bind_pure (hq : Tracks q p) (h : α → β) :
    Tracks (q >>= fun a => Pure.pure (h a)) (p >>= fun a => Pure.pure (h a)) :=
  hq.bind_at fun _ _ _ _ _ => rfl

theorem Tracks.map (hq : Tracks q p) (h : α → β) : Tracks (h <$> q) (h <$> p) := by
  rw [map_eq_pure_bind, map_eq_pure_bind]
  exact hq.bind_pure h

theorem Tracks.ite {C : Prop} [Decidable C] {q' : Walk α} {p' : Parse α}
    (h : C → Tracks q p) (h' : ¬C → Tracks q' p') :
    Tracks (if C then q else q') (if C then p else p') := by
  split
  · exact h ‹_›
  · exact h' ‹_›

theorem bit_cursor (h : 0 < r.remaining) (t : Trace) :
    bit r.cursor = .ok (bitAt r.data r.pos) { r with pos := r.pos + 1, trace := t }.cursor := by
  have hhere := Reader.here?_cursor (r := r) (by unfold Reader.remaining at h; omega)
  simp only [bit, hhere, r.next_cursor t]
  rfl

theorem bitsAfter_cursor {count : Nat} (h : count ≤ r.remaining) (number : Nat) (t : Trace) :
    bitsAfter count number r.cursor =
      .ok (number * 2 ^ count + (bitsAt r.data r.pos count).toNat)
        { r with pos := r.pos + count, trace := t }.cursor := by
  induction count generalizing r number with
  | zero => simp [bitsAfter, bitsAt, Pure.pure, EStateM.pure, Reader.cursor]
  | succ count ih =>
    let s : Reader := { r with pos := r.pos + 1, trace := t }
    have hleft : count ≤ s.remaining := by
      unfold Reader.remaining at h ⊢
      change count ≤ r.size - (r.pos + 1)
      omega
    have hvalue : (2 * number + (bitAt r.data r.pos).toNat) * 2 ^ count +
        (bitsAt r.data (r.pos + 1) count).toNat =
          number * 2 ^ (count + 1) + (bitsAt r.data r.pos (count + 1)).toNat := by
      rw [bitsAt, Bits.toNat_cons, length_bitsAt]
      ring
    rw [bitsAfter, bind_of_ok (bit_cursor (by omega) t), ih hleft, hvalue, Nat.add_assoc,
      Nat.add_comm 1 count]

theorem tracks_u (count : Nat) : Tracks (u count) (Parse.u count) := by
  intro r _
  by_cases hroom : r.remaining < min count 64
  · have hread : Parse.u count r = .error .bitsExhausted r.exhausted := if_pos hroom
    rw [hread, follow, r.exhausted_cursor]
    exact if_pos (by rwa [r.remaining_cursor])
  · have hread : Parse.u count r = .ok _ _ := if_neg hroom
    have htaken := bitsAfter_cursor (Nat.not_lt.mp hroom) 0
      (r.trace.add (.bits r.pos (min count 64) (bitsAt r.data r.pos (min count 64)).toNat))
    rw [Nat.zero_mul, Nat.zero_add] at htaken
    rw [hread]
    exact (if_neg (by rwa [r.remaining_cursor])).trans htaken

theorem tracks_skip (count : Nat) : Tracks (skip count) (Parse.skip count) := by
  intro r _
  by_cases hroom : r.remaining < count
  · have hread : Parse.skip count r = .error .bitsExhausted r.exhausted := if_pos hroom
    rw [hread, follow, r.exhausted_cursor]
    exact if_pos (by rwa [r.remaining_cursor])
  · have hread : Parse.skip count r = .ok () (r.advance count) := if_neg hroom
    rw [hread, skip, if_neg (by rwa [r.remaining_cursor]), r.position_cursor]
    rfl

theorem tracks_align : Tracks align Parse.align := by
  intro r hr
  rw [align, Parse.align, get_bind, get_bind]
  by_cases haligned : r.pos % 8 = 0
  · rw [if_pos (r.isAligned_iff.mpr haligned)]
    exact congrFun (if_pos haligned) _
  · rw [if_neg fun h => haligned (r.isAligned_iff.mp h)]
    have hskip := tracks_skip (8 - r.pos % 8) r hr
    exact (congrFun (if_neg haligned) _).trans hskip

theorem tracks_octets (count : Nat) : Tracks (octets count) (Parse.octets count) := by
  induction count with
  | zero => exact Tracks.pure []
  | succ count ih =>
    exact (tracks_u 8).bind (Parse.latches_u 8).keeps fun b => ih.bind_pure _

theorem copy_cursor (hr : r.InBounds) (haligned : r.pos % 8 = 0) (count : Nat) (t : Trace) :
    copy (min count (r.data.size - r.pos / 8)) r.cursor =
      .ok (Parse.copied count r)
        { r with pos := r.pos + 8 * (Parse.copied count r).length, trace := t }.cursor := by
  unfold Reader.InBounds Reader.size at hr
  have hleft : r.remaining / 8 = r.data.size - r.pos / 8 := by
    rw [Reader.remaining, Reader.size]
    omega
  have hcopied := Parse.copied_min haligned count
  rw [hleft] at hcopied
  have hlength : (Parse.copied count r).length = min count (r.data.size - r.pos / 8) := by
    simp only [Parse.copied, Array.length_toList, Array.size_extract]
    omega
  let n := min count (r.data.size - r.pos / 8)
  have hinside : r.pos / 8 + n ≤ r.data.size := by omega
  have hbyte : (r.pos + 8 * n) / 8 = r.pos / 8 + n := by omega
  have hbit : (r.pos + 8 * n) % 8 = r.pos % 8 := by omega
  have htaken : copy n r.cursor =
      .ok (Parse.copied n r) { r.cursor with byte := r.pos / 8 + n } := if_pos hinside
  have hend : { r with pos := r.pos + 8 * n, trace := t }.cursor =
      { r.cursor with byte := r.pos / 8 + n } := by simp only [Reader.cursor, hbyte, hbit]
  rw [htaken, hlength, hend, hcopied]

theorem tracks_someBytes (count : Nat) :
    Tracks (someBytes count) (Parse.someBytes count) := by
  intro r hr
  rw [someBytes, get_bind, Parse.someBytes_eq, r.atEnd_cursor, r.remaining_cursor]
  by_cases hcount : count = 0
  · rw [if_pos hcount, if_pos hcount]
    rfl
  rw [if_neg hcount, if_neg hcount]
  by_cases hend : r.atEnd
  · rw [if_pos hend, if_pos hend]
    rfl
  rw [if_neg hend, if_neg hend]
  by_cases haligned : r.pos % 8 = 0
  · rw [if_pos (r.isAligned_iff.mpr haligned)]
    exact (congrFun (if_pos haligned) _).trans (copy_cursor hr.inBounds haligned count _)
  · rw [if_neg fun h => haligned (r.isAligned_iff.mp h)]
    exact (congrFun (if_neg haligned) _).trans (tracks_octets _ r hr)

/-- Each turn leaves fewer bytes to find. -/
theorem tracks_bytes (count : Nat) : Tracks (bytes count) (Parse.bytesInTurns count) := by
  induction count using Nat.strong_induction_on with
  | h count ih =>
    rw [bytes, Parse.bytesInTurns]
    refine Tracks.ite (fun _ => .pure []) fun hcount => ?_
    refine (tracks_someBytes count).bind (Parse.latches_someBytes count).keeps fun found => ?_
    refine Tracks.ite (fun _ => .throw _) fun hfound => ?_
    exact (ih (count - found.length) (by omega)).bind_pure _

theorem tracks_flag : Tracks flag Parse.flag := (tracks_u 1).bind_pure _

theorem tracks_readZeros (more : Nat) :
    Tracks (readZeros more) (ExpGolomb.readZeros more) := by
  induction more with
  | zero =>
    refine tracks_flag.bind Parse.latches_flag.keeps fun stop => ?_
    exact Tracks.ite (fun _ => .pure 0) fun _ => .throw _
  | succ more ih =>
    refine tracks_flag.bind Parse.latches_flag.keeps fun stop => ?_
    exact Tracks.ite (fun _ => .pure 0) fun _ => ih.bind_pure _

theorem tracks_ue : Tracks ue Parse.ue := by
  rw [Parse.ue_eq]
  refine (tracks_readZeros _).bind (Parse.latches_readZeros _).keeps fun zeros => ?_
  exact (tracks_u zeros).bind_pure _

theorem alignedBytes_cursor (r : Reader) :
    alignedBytes r.cursor = .ok r.alignedBytes r.cursor := by
  have hstart : (if r.pos % 8 = 0 then r.pos / 8 else r.pos / 8 + 1) = (r.pos + 7) / 8 := by
    split <;> omega
  have hdrop : r.data.toList.drop (min ((r.pos + 7) / 8) r.data.size) = r.alignedBytes := by
    rw [Reader.alignedBytes, List.drop_eq_drop_iff]
    simp
  have hlooked : alignedBytes r.cursor =
      .ok (r.data.toList.drop (min ((r.pos + 7) / 8) r.data.size)) r.cursor := by
    rw [← hstart]
    exact if_pos (Nat.min_le_right _ _)
  rw [hlooked, hdrop]

/-- The bits that are there begin a window whose other bits are zero. -/
theorem toNat_window (hr : r.InBounds) (width : Nat) :
    (bitsAt r.data r.pos width).toNat = (bitsAt r.data r.pos (min r.remaining width)).toNat *
      2 ^ (width - min r.remaining width) := by
  by_cases hroom : width ≤ r.remaining
  · rw [Nat.min_eq_right hroom, Nat.sub_self, Nat.pow_zero, Nat.mul_one]
  · have hshort : r.remaining ≤ width := Nat.le_of_not_le hroom
    have hsplit : r.remaining + (width - r.remaining) = width := Nat.add_sub_cancel' hshort
    have hbehind : bitsAt r.data (r.pos + r.remaining) (width - r.remaining) =
        List.replicate (width - r.remaining) false := by
      apply bitsAt_behind
      unfold Reader.InBounds at hr
      unfold Reader.remaining Reader.size at *
      omega
    have hwindow := bitsAt_append r.data r.pos r.remaining (width - r.remaining)
    rw [hsplit, hbehind] at hwindow
    rw [hwindow, Bits.toNat_append, Bits.toNat_replicate_false, List.length_replicate,
      Nat.add_zero, Nat.min_eq_left hshort]

/-- Making room for the bits behind the end loses none of those in front of it. -/
theorem peekBits_cursor (hr : r.InBounds) (count : Nat) :
    peekBits count r.cursor = .ok (r.peekBits count) r.cursor := by
  have hvalue := toNat_window hr (min count 64)
  rw [← Reader.peekBits] at hvalue
  have htaken := bitsAfter_cursor (r := r) (Nat.min_le_left r.remaining (min count 64)) 0 none
  rw [Nat.zero_mul, Nat.zero_add] at htaken
  unfold peekBits
  simp only [r.remaining_cursor, htaken]
  by_cases hshift : min count 64 - min r.remaining (min count 64) < 64
  · have hlt : r.peekBits count < 2 ^ 64 := by
      have hwidth := Bits.toNat_lt (bitsAt r.data r.pos (min count 64))
      rw [length_bitsAt] at hwidth
      exact hwidth.trans_le (Nat.pow_le_pow_right (by decide) (Nat.min_le_right _ _))
    rw [hvalue] at hlt
    rw [if_pos hshift, Nat.shiftLeft_eq, Nat.mod_eq_of_lt hlt, hvalue]
  · have hnone : min r.remaining (min count 64) = 0 := by omega
    rw [if_neg hshift, hvalue, hnone]
    simp [bitsAt]

end Walk

namespace Reading

/-- What an operation does to a cursor, without the value that it yields. -/
def walk : Reading → Walk Unit
  | flag => (fun _ => ()) <$> Walk.flag
  | number width => (fun _ => ()) <$> Walk.u width
  | skip count => Walk.skip count
  | align => Walk.align
  | unsignedCode => (fun _ => ()) <$> Walk.ue
  | signedCode => (fun _ => ()) <$> ExpGolomb.ofIndex <$> Walk.ue
  | someBytes count => (fun _ => ()) <$> Walk.someBytes count
  | bytes count => (fun _ => ()) <$> Walk.bytes count
  | word count => (fun _ => ()) <$> bytesToNat <$> Walk.bytes count

theorem retains_run (op : Reading) : op.run.Retains := by
  cases op with
  | flag => exact Parse.retains_flag.map _
  | number width => exact (Parse.retains_u width).map _
  | skip count => exact Parse.retains_skip count
  | align => exact Parse.retains_align
  | unsignedCode => exact Parse.retains_ue.map _
  | signedCode => exact Parse.retains_se.map _
  | someBytes count => exact (Parse.retains_someBytes count).map _
  | bytes count => exact (Parse.retains_bytes count).map _
  | word count => exact ((Parse.retains_bytes count).map _).map _

theorem data_after (ops : List Reading) (r : Reader) : (after ops r).data = r.data := by
  induction ops generalizing r with
  | nil => rfl
  | cons op ops ih => exact (ih _).trans (op.retains_run r)

theorem tracks_walk (op : Reading) : op.walk.Tracks op.run := by
  cases op with
  | flag => exact Walk.tracks_flag.map _
  | number width => exact (Walk.tracks_u width).map _
  | skip count => exact Walk.tracks_skip count
  | align => exact Walk.tracks_align
  | unsignedCode => exact Walk.tracks_ue.map _
  | signedCode =>
    rw [run, Parse.se_eq]
    exact (Walk.tracks_ue.map _).map _
  | someBytes count => exact (Walk.tracks_someBytes count).map _
  | bytes count =>
    rw [run, Parse.bytes_eq_bytesInTurns]
    exact (Walk.tracks_bytes count).map _
  | word count =>
    rw [run, Parse.word, Parse.bytes_eq_bytesInTurns]
    exact ((Walk.tracks_bytes count).map _).map _

end Reading

namespace Cursor

/-- The cursor after some operations, whether or not they failed, unless one looked outside. -/
def after : List Reading → Cursor → Option Cursor
  | [], c => some c
  | op :: ops, c =>
    match op.walk c with
    | .ok _ d => after ops d
    | .error (some _) d => after ops d
    | .error none _ => none

theorem after_cons (op : Reading) (ops : List Reading) {r : Reader} (hr : r.Sound) :
    after (op :: ops) r.cursor = after ops (op.run.reach r).cursor := by
  have hstep := op.tracks_walk r hr
  cases h : op.run r with
  | ok a s =>
    rw [h] at hstep
    rw [after, hstep, Parse.reach_of_ok h]
    rfl
  | error e s =>
    rw [h] at hstep
    rw [after, hstep, Parse.reach_of_error h]
    rfl

theorem after_cursor (ops : List Reading) {r : Reader} (hr : r.Sound) :
    after ops r.cursor = some (Reading.after ops r).cursor := by
  induction ops generalizing r with
  | nil => rfl
  | cons op ops ih =>
    rw [after_cons op ops hr, ih (op.keeps_run r hr).sound]
    rfl

/-- Whatever a reader went through, failed operations included, its cursor has not looked outside
of the buffer. It stands at one of the eight bits of a byte, and what it has read and what is left
make up the buffer. Peeking is reading from a copy whose buffer goes on with zero bytes. -/
theorem inside_after (data : Array UInt8) (trace : Trace) (history : List Reading) :
    let r := Reading.after history { data, trace }
    ∃ c, after history { data } = some c ∧
      (c.data = data ∧ c.position = r.pos ∧ c.remaining = r.remaining ∧ c.atEnd = r.atEnd ∧
        c.overrun = r.overrun) ∧
      c.bit ≤ 7 ∧ c.position + c.remaining = 8 * data.size ∧
      (c.atEnd = true ↔ c.remaining = 0) ∧
      Walk.alignedBytes c = .ok r.alignedBytes c ∧
      ∀ count, Walk.peekBits count c = .ok (r.peekBits count) c ∧
        ∀ zeros, min count 64 ≤ c.remaining + 8 * zeros →
          ∃ s, Parse.u (min count 64) { r with data := data ++ .replicate zeros 0 } =
            .ok (r.peekBits count) s := by
  intro r
  have hstart : ({ data, trace } : Reader).Sound := ⟨Nat.zero_le _, nofun⟩
  have hr : r.Sound := (Reading.continues_after history hstart).sound
  have hdata : r.data = data := Reading.data_after history { data, trace }
  have hcursor : ({ data, trace } : Reader).cursor = { data } := by simp [Reader.cursor]
  have hwalked := after_cursor history hstart
  rw [hcursor] at hwalked
  have hposition := r.position_cursor
  have hremaining := r.remaining_cursor
  have hend := r.atEnd_cursor
  refine ⟨r.cursor, hwalked, ⟨hdata, hposition, hremaining, hend, rfl⟩,
    Nat.le_of_lt_succ r.bit_cursor_lt, ?_, ?_, Walk.alignedBytes_cursor r, ?_⟩
  · have hbounds := hr.inBounds
    unfold Reader.InBounds Reader.size at hbounds
    rw [hposition, hremaining, Reader.remaining, Reader.size, ← hdata]
    omega
  · rw [hend, hremaining]
    exact Reader.remaining_eq_zero_iff.symm
  · intro count
    refine ⟨Walk.peekBits_cursor hr.inBounds count, ?_⟩
    intro zeros hroom
    rw [hremaining] at hroom
    rw [← hdata]
    exact Parse.exists_u_zeros hr.inBounds hroom

/-- Bytes that are missed between two byte boundaries leave five bits, which peeking puts in front
of zero bits. Behind the end of the buffer a full word of them is left. -/
theorem inside_after_straddling :
    let data : Array UInt8 := #[0xa5, 0x0f]
    let c : Cursor := { data, byte := 1, bit := 3 }
    let d : Cursor := { data, byte := 2, bit := 0, overrun := true }
    (after [.number 11, .bytes 1] { data } = some c ∧ Walk.peekBits 8 c = .ok 0x78 c ∧
      ∃ s, Parse.u 8 { data := #[0xa5, 0x0f, 0], pos := 11 } = .ok 0x78 s) ∧
    (after [.number 11, .bytes 1, .skip 6] { data } = some d ∧
      Walk.peekBits 64 d = .ok 0 d) := by
  intro data c d
  obtain ⟨e, he, -, -, -, -, -, hpeek⟩ := inside_after data none [.number 11, .bytes 1]
  obtain ⟨f, hf, -, -, -, -, -, hpeek'⟩ := inside_after data none [.number 11, .bytes 1, .skip 6]
  have hc : after [.number 11, .bytes 1] { data } = some c := by cbv
  have hd : after [.number 11, .bytes 1, .skip 6] { data } = some d := by cbv
  obtain rfl : c = e := Option.some.inj (hc.symm.trans he)
  obtain rfl : d = f := Option.some.inj (hd.symm.trans hf)
  have hleft : Reading.after [.number 11, .bytes 1] { data } = { data, pos := 11 } := by cbv
  have hspent : Reading.after [.number 11, .bytes 1, .skip 6] { data } =
      { data, pos := 16, overrun := true } := by cbv
  have hfive : ({ data, pos := 11 } : Reader).peekBits 8 = 0x78 := by decide
  have hnone : ({ data, pos := 16, overrun := true } : Reader).peekBits 64 = 0 := by cbv
  obtain ⟨hwalked, hzeros⟩ := hpeek 8
  obtain ⟨hwalked', -⟩ := hpeek' 64
  rw [hleft, hfive] at hwalked hzeros
  rw [hspent, hnone] at hwalked'
  exact ⟨⟨hc, hwalked, hzeros 1 (by decide)⟩, hd, hwalked'⟩

end Cursor

end AvcSyntax

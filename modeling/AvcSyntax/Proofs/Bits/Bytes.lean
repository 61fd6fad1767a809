import AvcSyntax.Proofs.Bits.Numbers
import AvcSyntax.Proofs.Bits.Overrun

/-!
# Whole bytes as numbers of eight bits

Whole bytes are moved as many at a time as there are, or as there is room for, until none are left
to move or a turn moves none. `Build.bytesInTurns` and `Parse.bytesInTurns` say so literally. Two
turns are enough, so they do what `Build.bytes` and `Parse.bytes` do.

At a byte boundary a turn copies, between two it shifts. Neither can be told from the numbers of
eight bits that the bytes are: what is left of buffer, position and mark is the same, and bytes are
read if and only if all of them are there. Only the recorded accesses differ.
-/
namespace AvcSyntax

theorem Bits.ofNumbers_bytes (bs : List UInt8) :
    ofNumbers (bs.map fun b => (8, b.toNat)) = ofBytes bs := by
  rw [ofNumbers, List.flatMap_map]
  rfl

section Writing

namespace Writer

/-- `v` is the writer `w` after the bits `bs` were written and nothing more found room. -/
structure Stops (w : Writer) (bs : Bits) (v : Writer) : Prop where
  data : v.data = putBits w.data w.pos bs
  pos : v.pos = w.pos + bs.length
  overrun : v.overrun = true

theorem Moves.stops {w v : Writer} {bs : Bits} (h : w.Moves bs v) :
    w.Stops bs { v with overrun := true } := ⟨h.data, h.pos, rfl⟩

theorem Moves.trans_stops {w v u : Writer} {bs cs : Bits} (h : w.Moves bs v)
    (k : v.Stops cs u) : w.Stops (bs ++ cs) u where
  data := by rw [k.data, h.data, h.pos, putBits_append]
  pos := by rw [k.pos, h.pos, List.length_append, Nat.add_assoc]
  overrun := k.overrun

end Writer

namespace Build

variable {w v : Writer} {bs : List UInt8}

/-- How an action ends, without the accesses that it records. -/
def outcome {α : Type} (p : Build α) (w : Writer) : Except FaultClass α × Writer :=
  match p w with
  | .ok a v => (.ok a, { v with trace := none })
  | .error e v => (.error e.kind, { v with trace := none })

theorem outcome_eq_of_moves {α : Type} {p q : Build α} {a : α} {u : Writer} {bits : Bits}
    (hp : p w = .ok a v) (hv : w.Moves bits v) (hq : q w = .ok a u) (hu : w.Moves bits u) :
    outcome p w = outcome q w := by
  simp only [outcome, hp, hq, hv.data, hv.pos, hv.overrun, hu.data, hu.pos, hu.overrun]

theorem outcome_eq_of_stops {α : Type} {p q : Build α} {e f : Fault} {u : Writer} {bits : Bits}
    (hp : p w = .error e v) (hv : w.Stops bits v) (hq : q w = .error f u) (hu : w.Stops bits u)
    (hkind : e.kind = f.kind) : outcome p w = outcome q w := by
  simp only [outcome, hp, hq, hkind, hv.data, hv.pos, hv.overrun, hu.data, hu.pos, hu.overrun]

/-- Writes bytes, as many at a time as there is room for, until none are left or none is written. -/
def bytesInTurns (bs : List UInt8) : Build Unit := do
  if bs.length = 0 then return ()
  let count ← someBytes bs
  if count = 0 then throw .noRoomForBytes
  else bytesInTurns (bs.drop count)
termination_by bs.length

theorem octets_eq_forM (bs : List UInt8) : octets bs = bs.forM fun b => u 8 b.toNat := by
  induction bs with
  | nil => rfl
  | cons b bs ih =>
    rw [octets, ih]
    rfl

theorem someBytes_of_full (hfull : w.remaining < 8) (hbs : bs ≠ []) :
    someBytes bs w = .ok 0 { w with overrun := true } := by
  have hnone : min bs.length (w.remaining / 8) = 0 := by omega
  rw [someBytes, get_bind, if_neg (by simpa using hbs), hnone]
  rfl

theorem exists_someBytes (hroom : 8 ≤ w.remaining) (bs : List UInt8) :
    ∃ v, someBytes bs w = .ok (min bs.length (w.remaining / 8)) v ∧
      w.Moves (.ofBytes (bs.take (w.remaining / 8))) v := by
  rw [someBytes, get_bind]
  by_cases hbs : bs = []
  · subst hbs
    exact ⟨w, by simp [pure, EStateM.pure], by simpa using Writer.Moves.refl w⟩
  have hlength : bs.length ≠ 0 := by simpa using hbs
  have htake : bs.take (min bs.length (w.remaining / 8)) = bs.take (w.remaining / 8) := by
    rw [List.take_eq_take_iff]
    omega
  have hfits : 8 * (bs.take (w.remaining / 8)).length ≤ w.remaining := by
    rw [List.length_take]
    omega
  rw [if_neg (by simpa using hbs), if_neg (by omega), htake]
  by_cases haligned : w.isAligned
  · rw [if_pos haligned]
    exact ⟨_, rfl, Writer.moves_appendBytes (w.isAligned_iff.mp haligned) hfits
      (.bytes w.pos (min bs.length (w.remaining / 8)))⟩
  · rw [if_neg haligned]
    obtain ⟨v, hv, hmoves⟩ := appends_octets (bs.take (w.remaining / 8)) w (by simpa using hfits)
    exact ⟨v, bind_of_ok hv, hmoves⟩

/-- What is left behind as many bytes as find room is less than a byte. -/
theorem remaining_of_moves (hmoves : w.Moves (.ofBytes (bs.take (w.remaining / 8))) v)
    (hshort : w.remaining < 8 * bs.length) : v.remaining < 8 := by
  rw [hmoves.remaining, Bits.length_ofBytes, List.length_take]
  omega

theorem drop_ne_nil {count : Nat} (hshort : count < bs.length) : bs.drop count ≠ [] :=
  mt List.drop_eq_nil_iff.mp (Nat.not_le.mpr hshort)

/-- A first turn that leaves no room for the next byte is the last one. -/
theorem bytes_of_short {count : Nat} (h : someBytes bs w = .ok count v)
    (hshort : count < bs.length) (hfull : v.remaining < 8) :
    bytes bs w = .error .noRoomForBytes { v with overrun := true } := by
  rw [bytes, bind_of_ok h, if_neg (Nat.ne_of_lt hshort),
    bind_of_ok (someBytes_of_full hfull (drop_ne_nil hshort))]
  rfl

theorem bytes_of_full (hfull : w.remaining < 8) (hbs : bs ≠ []) :
    bytes bs w = .error .noRoomForBytes { w with overrun := true } :=
  bytes_of_short (v := { w with overrun := true }) (someBytes_of_full hfull hbs)
    (List.length_pos_iff.mpr hbs) hfull

theorem bytesInTurns_of_full (hfull : w.remaining < 8) (hbs : bs ≠ []) :
    bytesInTurns bs w = .error .noRoomForBytes { w with overrun := true } := by
  have hlength : ¬bs.length = 0 := fun h => hbs (List.length_eq_zero_iff.mp h)
  rw [bytesInTurns, if_neg hlength, bind_of_ok (someBytes_of_full hfull hbs), if_pos rfl]
  rfl

theorem bytesInTurns_next {count : Nat} (hbs : bs ≠ []) (hcount : count ≠ 0)
    (h : someBytes bs w = .ok count v) : bytesInTurns bs w = bytesInTurns (bs.drop count) v := by
  have hlength : ¬bs.length = 0 := fun h => hbs (List.length_eq_zero_iff.mp h)
  rw [bytesInTurns, if_neg hlength, bind_of_ok h, if_neg hcount]

/-- Behind the first turn there is nothing left to write, or no room for it. -/
theorem bytes_eq_bytesInTurns (bs : List UInt8) : bytes bs = bytesInTurns bs := by
  funext w
  by_cases hbs : bs = []
  · subst hbs
    rw [bytesInTurns]
    rfl
  by_cases hfull : w.remaining < 8
  · rw [bytes_of_full hfull hbs, bytesInTurns_of_full hfull hbs]
  have hlength : bs.length ≠ 0 := by simpa using hbs
  obtain ⟨v, hv, hmoves⟩ := exists_someBytes (Nat.not_lt.mp hfull) bs
  rw [bytesInTurns_next hbs (by omega) hv]
  by_cases hroom : 8 * bs.length ≤ w.remaining
  · have hcount : min bs.length (w.remaining / 8) = bs.length := by omega
    rw [bytes, bind_of_ok hv, hcount, if_pos rfl, List.drop_length, bytesInTurns]
    rfl
  · have hleft := remaining_of_moves hmoves (Nat.not_le.mp hroom)
    have hshort : min bs.length (w.remaining / 8) < bs.length := by omega
    rw [bytes_of_short hv hshort hleft, bytesInTurns_of_full hleft (drop_ne_nil hshort)]

theorem exists_bytes_of_short (hshort : w.remaining < 8 * bs.length) :
    ∃ v, bytes bs w = .error .noRoomForBytes v ∧
      w.Stops (.ofBytes (bs.take (w.remaining / 8))) v := by
  by_cases hfull : w.remaining < 8
  · have hnone : w.remaining / 8 = 0 := by omega
    have hbs : bs ≠ [] := by
      rintro rfl
      exact absurd hshort (Nat.not_lt_zero _)
    rw [hnone, List.take_zero]
    exact ⟨_, bytes_of_full hfull hbs, (Writer.Moves.refl w).stops⟩
  · obtain ⟨v, hv, hmoves⟩ := exists_someBytes (Nat.not_lt.mp hfull) bs
    have hleft := remaining_of_moves hmoves hshort
    exact ⟨_, bytes_of_short hv (by omega) hleft, hmoves.stops⟩

theorem exists_octets_of_short (hshort : w.remaining < 8 * bs.length) :
    ∃ v, octets bs w = .error .noRoomForBits v ∧
      w.Stops (.ofBytes (bs.take (w.remaining / 8))) v := by
  induction bs generalizing w with
  | nil => exact absurd hshort (Nat.not_lt_zero _)
  | cons b bs ih =>
    rw [List.length_cons] at hshort
    by_cases hfull : w.remaining < 8
    · have hnone : w.remaining / 8 = 0 := by omega
      have hrefused : u 8 b.toNat w = .error .noRoomForBits { w with overrun := true } :=
        u_eq_error.mpr (.inr ⟨b.toNat_lt, hfull, rfl, rfl⟩)
      rw [hnone, List.take_zero]
      exact ⟨_, bind_of_error hrefused, (Writer.Moves.refl w).stops⟩
    · have hroom : (Bits.ofNat 8 b.toNat).length ≤ w.remaining := Nat.not_lt.mp hfull
      obtain ⟨v, hv, hmoves⟩ := appends_u (by decide) b.toNat_lt w hroom
      have hleft : v.remaining = w.remaining - 8 := hmoves.remaining
      have hcount : w.remaining / 8 = v.remaining / 8 + 1 := by omega
      obtain ⟨s, hs, hstops⟩ := ih (w := v) (by omega)
      rw [hcount, List.take_succ_cons, Bits.ofBytes_cons]
      exact ⟨s, (bind_of_ok hv).trans hs, hmoves.trans_stops hstops⟩

theorem outcome_bytes (bs : List UInt8) (w : Writer) :
    outcome (bytes bs) w = outcome (octets bs) w := by
  by_cases hroom : 8 * bs.length ≤ w.remaining
  · rw [← Bits.length_ofBytes] at hroom
    obtain ⟨v, hv, hmoves⟩ := appends_bytes bs w hroom
    obtain ⟨u, hu, hmoves'⟩ := appends_octets bs w hroom
    exact outcome_eq_of_moves hv hmoves hu hmoves'
  · obtain ⟨v, hv, hstops⟩ := exists_bytes_of_short (Nat.not_le.mp hroom)
    obtain ⟨u, hu, hstops'⟩ := exists_octets_of_short (Nat.not_le.mp hroom)
    exact outcome_eq_of_stops hv hstops hu hstops' rfl

end Build

end Writing

section Reading

namespace Parse

variable {r s : Reader} {n : Nat}

/-- Reads bytes, as many at a time as there are, until none are missing or none is found. -/
def bytesInTurns (count : Nat) : Parse (List UInt8) := do
  if count = 0 then return []
  let found ← someBytes count
  if found.length = 0 then throw .bytesExhausted
  else return found ++ (← bytesInTurns (count - found.length))
termination_by count

/-- What becomes of a reader that was asked for whole bytes and has none. -/
def missed (r : Reader) : Reader := if r.remaining = 0 then { r with overrun := true } else r

theorem remaining_missed (r : Reader) : (missed r).remaining = r.remaining := by
  unfold missed
  split <;> rfl

theorem missed_missed (r : Reader) : missed (missed r) = missed r := by
  by_cases hend : r.remaining = 0
  · have hmissed : missed r = { r with overrun := true } := if_pos hend
    rw [hmissed]
    exact if_pos hend
  · have hmissed : missed r = r := if_neg hend
    rw [hmissed, hmissed]

theorem someBytes_of_none (hnone : r.remaining < 8) (hn : n ≠ 0) :
    someBytes n r = .ok [] (missed r) := by
  by_cases hend : r.remaining = 0
  · rw [someBytes_atEnd hend hn, missed, if_pos hend]
  · have hsize := hnone
    unfold Reader.remaining Reader.size at hsize hend
    have hcount : min n (r.remaining / 8) = 0 := by omega
    rw [someBytes_between (by unfold Reader.InBounds Reader.size; omega) (by omega), hcount,
      missed, if_neg (by unfold Reader.remaining Reader.size; omega)]
    rfl

/-- A first turn that leaves less than a byte is the last one. -/
theorem bytes_of_short {found : List UInt8} (h : someBytes n r = .ok found s)
    (hshort : found.length < n) (hnone : s.remaining < 8) :
    bytes n r = .error .bytesExhausted (missed s) := by
  rw [bytes, bind_of_ok h, if_neg (Nat.ne_of_lt hshort),
    bind_of_ok (someBytes_of_none hnone (Nat.sub_ne_zero_of_lt hshort))]
  rfl

theorem bytes_of_none (hnone : r.remaining < 8) (hn : n ≠ 0) :
    bytes n r = .error .bytesExhausted (missed r) := by
  have hagain : (missed r).remaining < 8 := by rwa [remaining_missed]
  rw [bytes_of_short (someBytes_of_none hnone hn) (Nat.pos_of_ne_zero hn) hagain, missed_missed]

theorem bytesInTurns_of_none (hnone : r.remaining < 8) (hn : n ≠ 0) :
    bytesInTurns n r = .error .bytesExhausted (missed r) := by
  rw [bytesInTurns, if_neg hn, bind_of_ok (someBytes_of_none hnone hn), List.length_nil,
    if_pos rfl]
  rfl

theorem copied_min (haligned : r.pos % 8 = 0) (n : Nat) :
    copied (min n (r.remaining / 8)) r = copied n r := by
  simp only [copied, Array.toList_extract, List.extract_eq_take_drop, List.take_eq_take_iff,
    List.length_drop, Array.length_toList, Reader.remaining, Reader.size]
  omega

theorem someBytes_min (hroom : 8 ≤ r.remaining) (n : Nat) :
    someBytes (min n (r.remaining / 8)) r = someBytes n r := by
  by_cases hn : n = 0
  · rw [hn, Nat.zero_min]
  have hend : ¬r.atEnd := by
    rw [← Reader.remaining_eq_zero_iff]
    omega
  rw [someBytes_eq, someBytes_eq, if_neg (by omega), if_neg hend, if_neg hn, if_neg hend]
  by_cases haligned : r.isAligned
  · rw [if_pos haligned, if_pos haligned, copied_min (r.isAligned_iff.mp haligned)]
  · rw [if_neg haligned, if_neg haligned, Nat.min_assoc, Nat.min_self]

theorem exists_found (hroom : 8 ≤ r.remaining) (n : Nat) :
    ∃ found s, someBytes n r = .ok found s ∧ found.length = min n (r.remaining / 8) ∧
      s.remaining = r.remaining - 8 * found.length := by
  have hr : r.InBounds := Reader.inBounds_of_remaining (by omega)
  have hfits : 8 * min n (r.remaining / 8) ≤ r.remaining := by omega
  obtain ⟨found, tail, hlength, hrest⟩ := exists_rest_bytes hfits
  obtain ⟨s, hs, hmoves⟩ := someBytes_of_rest hr hrest
  rw [hlength, someBytes_min hroom] at hs
  refine ⟨found, s, hs, hlength, ?_⟩
  rw [Reader.remaining, hmoves.size, hmoves.pos, Bits.length_ofBytes, Reader.remaining,
    Nat.sub_sub]

theorem bytesInTurns_next {found : List UInt8} (hn : n ≠ 0) (hfound : found.length ≠ 0)
    (h : someBytes n r = .ok found s) :
    bytesInTurns n r = (do return found ++ (← bytesInTurns (n - found.length))) s := by
  rw [bytesInTurns, if_neg hn, bind_of_ok h, if_neg hfound]

/-- Behind the first turn nothing is missing any more, or less than a byte is left. -/
theorem bytes_eq_bytesInTurns (n : Nat) : bytes n = bytesInTurns n := by
  funext r
  by_cases hn : n = 0
  · subst hn
    rw [bytesInTurns]
    rfl
  by_cases hnone : r.remaining < 8
  · rw [bytes_of_none hnone hn, bytesInTurns_of_none hnone hn]
  obtain ⟨found, s, hs, hlength, hleft⟩ := exists_found (Nat.not_lt.mp hnone) n
  rw [bytesInTurns_next hn (by omega) hs]
  by_cases hroom : 8 * n ≤ r.remaining
  · have hcount : found.length = n := by omega
    rw [bytes, bind_of_ok hs, if_pos hcount, hcount, Nat.sub_self, bytesInTurns]
    simp
  · have hagain : s.remaining < 8 := by omega
    rw [bytes_of_short hs (by omega) hagain,
      bind_of_error (bytesInTurns_of_none hagain (by omega))]

theorem room_of_bytes {bs : List UInt8} (h : bytes n r = .ok bs s) : 8 * n ≤ r.remaining := by
  by_contra hshort
  by_cases hnone : r.remaining < 8
  · rw [bytes_of_none hnone (by omega)] at h
    cases h
  · obtain ⟨found, t, ht, hlength, hleft⟩ := exists_found (Nat.not_lt.mp hnone) n
    rw [bytes_of_short ht (by omega) (by omega)] at h
    cases h

/-- Bytes that are all there are read, and so are the numbers of eight bits that they are. -/
theorem exists_bytes_of_room (hroom : 8 * n ≤ r.remaining) :
    ∃ bs s t, bytes n r = .ok bs s ∧
      (List.replicate n 8).mapM u r = .ok (bs.map UInt8.toNat) t ∧
      s.pos = t.pos ∧ s.overrun = t.overrun := by
  by_cases hn : n = 0
  · subst hn
    exact ⟨[], r, r, rfl, rfl, rfl, rfl⟩
  have hr : r.InBounds := Reader.inBounds_of_remaining (by omega)
  obtain ⟨bs, tail, rfl, hrest⟩ := exists_rest_bytes hroom
  obtain ⟨s, hs, hmoves⟩ := bytes_of_rest hr hrest
  have hbits := Reader.bitsAt_of_rest hrest
  rw [← Bits.ofNumbers_bytes] at hbits
  have hleft : (Bits.ofNumbers (bs.map fun b => (8, b.toNat))).length ≤ r.remaining := by
    rwa [Bits.ofNumbers_bytes, Bits.length_ofBytes]
  have hfits : ∀ f ∈ bs.map fun b => (8, b.toNat), f.1 ≤ 64 ∧ f.2 < 2 ^ f.1 := by
    intro f hf
    obtain ⟨b, -, rfl⟩ := List.mem_map.mp hf
    exact ⟨Nat.le_of_ble_eq_true rfl, b.toNat_lt⟩
  obtain ⟨t, ht, hend, hover⟩ := mapM_u_of_bitsAt hfits hleft hbits
  simp only [List.map_map, Function.comp_def, List.map_const'] at ht
  rw [Bits.ofNumbers_bytes] at hend
  exact ⟨bs, s, t, hs, ht, hmoves.pos.trans hend.symm, hmoves.overrun.trans hover.symm⟩

end Parse

end Reading

/-- Writing bytes in turns cannot be told from writing each as a number, whether or not there is
room for all. Reading bytes in turns goes well exactly where all of them are there, and then they
are the numbers that stand there. -/
theorem bytes_as_numbers :
    (∀ (w : Writer) (bs : List UInt8), Build.bytes bs w = Build.bytesInTurns bs w ∧
      Build.outcome (Build.bytesInTurns bs) w =
        Build.outcome (bs.forM fun b => Build.u 8 b.toNat) w) ∧
    (∀ (r : Reader) (n : Nat), Parse.bytes n r = Parse.bytesInTurns n r ∧
      ((∃ bs s, Parse.bytesInTurns n r = .ok bs s) ↔ 8 * n ≤ r.remaining) ∧
      ∀ bs s, Parse.bytesInTurns n r = .ok bs s →
        ∃ t, (List.replicate n 8).mapM Parse.u r = .ok (bs.map UInt8.toNat) t ∧
          s.pos = t.pos ∧ s.overrun = t.overrun) := by
  constructor
  · intro w bs
    rw [← Build.bytes_eq_bytesInTurns, ← Build.octets_eq_forM]
    exact ⟨rfl, Build.outcome_bytes bs w⟩
  · intro r n
    rw [← Parse.bytes_eq_bytesInTurns]
    refine ⟨rfl, ⟨?_, ?_⟩, ?_⟩
    · intro hread
      obtain ⟨bs, s, hs⟩ := hread
      exact Parse.room_of_bytes hs
    · intro hroom
      obtain ⟨bs, s, -, hs, -⟩ := Parse.exists_bytes_of_room hroom
      exact ⟨bs, s, hs⟩
    · intro bs s hs
      obtain ⟨found, u, t, hu, ht, hend⟩ := Parse.exists_bytes_of_room (Parse.room_of_bytes hs)
      rw [hs] at hu
      cases hu
      exact ⟨t, ht, hend⟩

/-- Off a byte boundary, over ones, two bytes of three find room. Of four bytes one bit is missing,
and three are read. -/
theorem bytes_as_numbers_short :
    let w : Writer := { data := #[0xff, 0xff, 0xff], pos := 5 }
    let v : Writer := { data := #[0xf8, 0x81, 0x07], pos := 21, overrun := true }
    let bs : List UInt8 := [0x10, 0x20, 0x30]
    let r : Reader := { data := #[0x80, 0x12, 0x34, 0x56], pos := 1 }
    Build.outcome (Build.bytesInTurns bs) w = (.error .bufferFull, v) ∧
    Build.outcome (bs.forM fun b => Build.u 8 b.toNat) w = (.error .bufferFull, v) ∧
    ¬(∃ found s, Parse.bytesInTurns 4 r = .ok found s) ∧
    ∃ s t, Parse.bytesInTurns 3 r = .ok [0x00, 0x24, 0x68] s ∧
      (List.replicate 3 8).mapM Parse.u r = .ok [0x00, 0x24, 0x68] t ∧ s.pos = t.pos := by
  intro w v bs r
  have hnumbers : Build.outcome (bs.forM fun b => Build.u 8 b.toNat) w =
      (.error .bufferFull, v) := by cbv
  have hread : Parse.bytes 3 r = .ok [0x00, 0x24, 0x68] { r with pos := 25 } := by cbv
  obtain ⟨-, hwritten⟩ := bytes_as_numbers.1 w bs
  obtain ⟨-, hmissed, -⟩ := bytes_as_numbers.2 r 4
  obtain ⟨hturns, -, hthree⟩ := bytes_as_numbers.2 r 3
  rw [hread] at hturns
  obtain ⟨t, ht, hend, -⟩ := hthree _ _ hturns.symm
  exact ⟨hwritten.trans hnumbers, hnumbers, by rw [hmissed]; decide, _, t, hturns.symm, ht, hend⟩

end AvcSyntax

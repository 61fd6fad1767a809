import AvcSyntax.Proofs.Canonical.SliceHeader
import AvcSyntax.Proofs.Slice.Layer

/-!
# Slice data behind another header

The header of a slice that was read may be replaced. If the new one ends at the same offset within
a byte, the data are written as they were. At any other offset arithmetically coded data are
written behind one bits up to the next byte boundary, and other data are refused.

What was written is read back as the canonical form of the new header, with the same whole bytes
behind it. The exceptions are data that now look like a stop bit and data of which nothing is left.
-/
namespace AvcSyntax

theorem Build.appends_ones (count : Nat) :
    Appends (Build.ones count) (List.replicate count true) () := by
  induction count with
  | zero => exact Appends.pure ()
  | succ count ih => exact (Build.appends_flag true).bind ih

namespace SliceData

variable {d : SliceData} {pps : Pps} {start : Nat} {w : Writer}

/-- The data as they are written at a bit position. -/
def movedTo (d : SliceData) (pos : Nat) : SliceData :=
  let count := (8 - pos % 8) % 8
  if count = d.alignmentBitCount.toNat then d
  else
    { alignmentBits := (Bits.toNat (List.replicate count true)).toUInt8
      alignmentBitCount := count.toUInt8
      bytes := d.bytes }

theorem bytes_movedTo (d : SliceData) (pos : Nat) : (d.movedTo pos).bytes = d.bytes := by
  simp only [movedTo]
  split <;> rfl

theorem movedTo_eq_self {pos : Nat} (h : d.WellFormed start) (hkept : pos % 8 = start % 8) :
    d.movedTo pos = d := by
  have hcount := h.alignmentBitCount
  rw [movedTo, if_pos (by rw [hkept, hcount])]

/-- At any other offset they stand behind one bits. -/
theorem movedTo_eq {pos : Nat} (h : d.WellFormed start) (hmoved : pos % 8 ≠ start % 8) :
    (d.movedTo pos).WellFormed pos ∧
      (d.movedTo pos).bits = List.replicate ((8 - pos % 8) % 8) true ++ .ofBytes d.bytes := by
  have hcount := h.alignmentBitCount
  rw [movedTo, if_neg (by omega)]
  generalize hleft : (8 - pos % 8) % 8 = left
  -- There are at most seven one bits, so their number fits its word.
  have hlt := Bits.toNat_lt (List.replicate left true)
  rw [List.length_replicate] at hlt
  have hpow : 2 ^ left ≤ 2 ^ 7 := Nat.pow_le_pow_right (by decide) (by omega)
  have hleftWord : left.toUInt8.toNat = left := by
    simp
    omega
  have honesWord : (Bits.toNat (List.replicate left true)).toUInt8.toNat =
      Bits.toNat (List.replicate left true) := by
    simp
    omega
  have hones := Bits.ofNat_toNat (List.replicate left true)
  rw [List.length_replicate] at hones
  constructor
  · constructor
    case alignmentBitCount => rw [hleftWord, hleft]
    case alignmentBits => rwa [hleftWord, honesWord]
  · rw [bits, hleftWord, honesWord, hones]

theorem wellFormed_movedTo (h : d.WellFormed start) (pos : Nat) :
    (d.movedTo pos).WellFormed pos := by
  by_cases hkept : pos % 8 = start % 8
  · rw [movedTo_eq_self h hkept]
    exact h.congr hkept.symm
  · exact (movedTo_eq h hkept).1

theorem exists_build (h : d.WellFormed start)
    (hmove : pps.entropyCodingMode = true ∨ w.pos % 8 = start % 8)
    (hroom : (w.pos + 7) / 8 + d.bytes.length ≤ w.data.size) :
    ∃ u, d.build pps w = .ok () u ∧ w.Fills (d.movedTo w.pos).bits u := by
  have hown := h.alignmentBitCount
  -- Kept or replaced, the bits in front of the whole bytes end at the next byte boundary.
  have hlength : (d.movedTo w.pos).bits.length ≤ w.remaining := by
    have hcount := (wellFormed_movedTo h w.pos).alignmentBitCount
    rw [bits, List.length_append, Bits.length_ofNat, Bits.length_ofBytes, hcount, bytes_movedTo,
      Writer.remaining]
    omega
  suffices hbuild : ∃ u, d.build pps w = .ok () u ∧ w.Moves (d.movedTo w.pos).bits u by
    obtain ⟨u, hu, hmoves⟩ := hbuild
    exact ⟨u, hu, hmoves, hlength⟩
  by_cases hkept : w.pos % 8 = start % 8
  · have hcount : (8 - w.pos % 8) % 8 = d.alignmentBitCount.toNat := by rw [hkept, hown]
    rw [movedTo_eq_self h hkept] at hlength ⊢
    rw [build_eq, if_pos hcount, hcount]
    exact appends_bits h w hlength
  · obtain ⟨-, hbits⟩ := movedTo_eq h hkept
    rw [hbits] at hlength ⊢
    rw [build_eq, if_neg (by omega), if_pos (hmove.resolve_right hkept)]
    have hones := (Build.appends_ones ((8 - w.pos % 8) % 8)).report
    exact hones.bind (Build.appends_bytes d.bytes).report w hlength

/-- Other data are refused at a new offset. The message names both. -/
theorem build_of_moved (h : d.WellFormed start) (hcavlc : pps.entropyCodingMode = false)
    (hmoved : w.pos % 8 ≠ start % 8) :
    d.build pps w = .error (.sliceDataMoved (start % 8) (w.pos % 8)) w := by
  have hcount := h.alignmentBitCount
  have hoffset : (8 - d.alignmentBitCount.toNat) % 8 = start % 8 := by omega
  rw [build_eq, if_neg (by omega), if_neg (by simp [hcavlc]), difference_eq (by omega), ← hoffset]
  rfl

theorem exists_build_iff (h : d.WellFormed start) (hcavlc : pps.entropyCodingMode = false)
    (hroom : (w.pos + 7) / 8 + d.bytes.length ≤ w.data.size) :
    (∃ u, d.build pps w = .ok () u) ↔ w.pos % 8 = start % 8 := by
  constructor
  · intro hbuilt
    by_contra hmoved
    obtain ⟨u, hu⟩ := hbuilt
    rw [build_of_moved h hcavlc hmoved] at hu
    cases hu
  · intro hkept
    obtain ⟨u, hu, -⟩ := exists_build h (.inr hkept) hroom
    exact ⟨u, hu⟩

/-- However data could be written, they stand where they were moved to. -/
theorem fills_of_build {u : Writer} (h : d.WellFormed start)
    (hroom : (w.pos + 7) / 8 + d.bytes.length ≤ w.data.size) (hbuild : d.build pps w = .ok () u) :
    w.Fills (d.movedTo w.pos).bits u := by
  by_cases hmove : pps.entropyCodingMode = true ∨ w.pos % 8 = start % 8
  · obtain ⟨found, hfound, hfills⟩ := exists_build h hmove hroom
    rw [hbuild] at hfound
    cases hfound
    exact hfills
  · obtain ⟨hcavlc, hmoved⟩ := not_or.mp hmove
    rw [build_of_moved h (Bool.eq_false_of_not_eq_true hcavlc) hmoved] at hbuild
    cases hbuild

end SliceData

namespace SliceLayer

variable {nal : NalHeader} {sets : ParameterSets} {l : SliceLayer} {d : SliceData}
  {h : SliceHeader} {pps : Pps} {sps : Sps} {strict : Bool} {r s : Reader} {w v u : Writer}

def withHeader (l : SliceLayer) (h : SliceHeader) : SliceLayer := { l with header := h }

/-- Behind the new header only the data remain to be written. -/
theorem build_withHeader (hdata : l.data = some d) (hsets : sets.resolve h.ppsId = .ok (pps, sps))
    (hbuild : h.build nal sets w = .ok () v) :
    (l.withHeader h).build nal sets w = d.build pps v := by
  have hresolved : (liftM (sets.resolve h.ppsId) : Encode (Pps × Sps)) v = .ok (pps, sps) v := by
    rw [hsets]
    rfl
  simp only [withHeader, build, hdata]
  exact (bind_of_ok hbuild).trans (bind_of_ok hresolved)

/-- Data that were written behind a header are read with the canonical form of that header, unless
they can be taken for the stop bit. -/
theorem parse_of_fills (hsets : sets.resolve h.ppsId = .ok (pps, sps)) (hrange : h.InRange pps sps)
    (hbuild : h.build nal sets w = .ok () v) (hd : d.WellFormed v.pos) (hfills : v.Fills d.bits u)
    (hne : v.pos ≠ u.pos)
    (hstop : ∀ zeros, bitsAt u.data v.pos (u.pos - v.pos) ≠ .stop zeros) (strict : Bool)
    (hdata : r.data = u.written.toArray) (hpos : r.pos = w.pos) :
    ∃ s, parse nal sets strict r =
      .ok { header := h.canonical nal pps sps, data := some d } s := by
  have hnamed : sets.resolve (h.canonical nal pps sps).ppsId = .ok (pps, sps) := hsets
  obtain ⟨hwf, hheader⟩ := SliceHeader.fills_of_build hbuild hsets hrange
  have hend := hfills.moves.pos
  have hbits_ne : d.bits ≠ [] := by
    intro hnil
    rw [hnil] at hend
    exact hne hend.symm
  have hmore : Bits.hasMore d.bits = true := by
    have hwindow : bitsAt u.data v.pos (u.pos - v.pos) = d.bits := by
      rw [hend, Nat.add_sub_cancel_left]
      exact hfills.bitsAt_eq hbits_ne
    rw [hwindow] at hstop
    exact Bits.hasMore_eq_true hbits_ne hstop
  have haligned : u.pos % 8 = 0 := by
    rw [hend]
    exact SliceData.length_bits_mod hd
  obtain ⟨hbounds, hrest⟩ := (hheader.trans hfills).rest_written
    (List.append_ne_nil_of_right_ne_nil _ hbits_ne) haligned hdata hpos
  have hoffset := hheader.moves.pos
  obtain ⟨s, hs, -⟩ := parse_withData hnamed hwf hmore strict hbounds
    (by rw [hpos, ← hoffset]; exact hd) hrest
  exact ⟨s, hs⟩

/-- A slice that was read with its data gets another header, which names the same parameter sets,
could be built on its own and is in range. If the data are not arithmetically coded, the slice can
be written just if the new header ends at the bit offset of the old one; the error names both
offsets. Otherwise it can be written in any case. It is read back with the canonical form of the
new header and the whole bytes that it had, unless the bits behind that header are a stop bit or
none. Data that were not moved keep the bits in front of the whole bytes as well. -/
theorem rebuild_of_parse (hparse : parse nal sets strict r = .ok l s) (hdata : l.data = some d)
    (hsets : sets.resolve l.header.ppsId = .ok (pps, sps)) (hid : h.ppsId = l.header.ppsId)
    (hrange : h.InRange pps sps) (hbuild : h.build nal sets w = .ok () v)
    (hroom : (v.pos + 7) / 8 + d.bytes.length ≤ w.data.size) :
    ∃ t, SliceHeader.parse nal sets r = .ok l.header t ∧
      (pps.entropyCodingMode = false →
        ((∃ u, (l.withHeader h).build nal sets w = .ok () u) ↔ v.pos % 8 = t.pos % 8) ∧
        (v.pos % 8 ≠ t.pos % 8 → (l.withHeader h).build nal sets w =
          .error (.sliceDataMoved (t.pos % 8) (v.pos % 8)) v)) ∧
      (pps.entropyCodingMode = true → ∃ u, (l.withHeader h).build nal sets w = .ok () u) ∧
      ∀ u, (l.withHeader h).build nal sets w = .ok () u →
        (d.bytes ≠ [] ∨ v.pos ≠ u.pos) →
        (∀ zeros, bitsAt u.data v.pos (u.pos - v.pos) ≠ .stop zeros) →
        ∀ (later : Bool) (q : Reader), q.data = u.written.toArray → q.pos = w.pos →
          ∃ e q', parse nal sets later q =
              .ok { header := h.canonical nal pps sps, data := some e } q' ∧
            e.bytes = d.bytes ∧ (v.pos % 8 = t.pos % 8 → e = d) := by
  obtain ⟨t, ht, hoffset⟩ := header_of_parse hparse hdata
  rw [← hid] at hsets
  obtain ⟨-, hheader⟩ := SliceHeader.fills_of_build hbuild hsets hrange
  have hsize : v.data.size = w.data.size := by rw [hheader.moves.data, size_putBits]
  rw [← hsize] at hroom
  rw [build_withHeader hdata hsets hbuild]
  refine ⟨t, ht, ?_, ?_, ?_⟩
  · intro hcavlc
    exact ⟨SliceData.exists_build_iff hoffset hcavlc hroom,
      fun hmoved => SliceData.build_of_moved hoffset hcavlc hmoved⟩
  · intro hcabac
    obtain ⟨u, hu, -⟩ := SliceData.exists_build hoffset (.inl hcabac) hroom
    exact ⟨u, hu⟩
  · intro u hu hne hstop later q hq hpos
    have hfills := SliceData.fills_of_build hoffset hroom hu
    have hwf := SliceData.wellFormed_movedTo hoffset v.pos
    -- Whole bytes always leave something behind the header.
    have hsome : v.pos ≠ u.pos := by
      refine hne.elim (fun hbytes => ?_) id
      have hlength := List.length_pos_iff.mpr hbytes
      have hend := hfills.moves.pos
      rw [SliceData.bits, List.length_append, Bits.length_ofBytes, SliceData.bytes_movedTo] at hend
      omega
    obtain ⟨q', hq'⟩ :=
      parse_of_fills hsets hrange hbuild hwf hfills hsome hstop later hq hpos
    exact ⟨_, q', hq', SliceData.bytes_movedTo d v.pos, SliceData.movedTo_eq_self hoffset⟩

/-- A slice of an IDR picture, arithmetically coded, whose first macroblock becomes another one. The
new header is two bits longer than the old one, and ends one bit in front of a byte boundary. -/
theorem rebuild_of_parse_moved :
    let nal : NalHeader := ⟨3, .idrSlice⟩
    let pps : Pps := { entropyCodingMode := true }
    let sets : ParameterSets := { sps := fun _ => some {}, pps := fun _ => some pps }
    let header : SliceHeader :=
      { type := .i, allSlicesSameType := true, refPicMarking := some (.idr false false) }
    let moved : SliceHeader := { header with firstMb := 1 }
    let l : SliceLayer := ⟨header, some ⟨7, 3, [18, 128]⟩⟩
    let r : Reader := { data := #[136, 132, 15, 18, 128] }
    let v : Writer := { data := #[66, 33, 2, 0, 0, 0, 0, 0], pos := 23 }
    let u : Writer := { data := #[66, 33, 3, 18, 128, 0, 0, 0], pos := 40 }
    parse nal sets true r = .ok l { r with pos := 40 } ∧
      sets.resolve header.ppsId = .ok (pps, {}) ∧
      moved.InRange pps {} ∧
      moved.build nal sets (.zeroed 8) = .ok () v ∧
      (l.withHeader moved).build nal sets (.zeroed 8) = .ok () u ∧
      ∃ e q, parse nal sets true { data := u.written.toArray } = .ok ⟨moved, some e⟩ q ∧
        e.bytes = [18, 128] := by
  intro nal pps sets header moved l r v u
  have hparse : parse nal sets true r = .ok l { r with pos := 40 } := by cbv
  have hbuild : moved.build nal sets (.zeroed 8) = .ok () v := by cbv
  have hrebuild : (l.withHeader moved).build nal sets (.zeroed 8) = .ok () u := by cbv
  have hrange : moved.InRange pps {} := by
    constructor
    case picOrder =>
      intro hset
      cases hset
    case predWeightTable =>
      intro hset
      cases hset
    case qpDelta => decide
    case qsDelta =>
      intro hset
      cases hset
    case deblocking =>
      intro hset
      cases hset
  have hstop : ∀ zeros, bitsAt u.data v.pos (u.pos - v.pos) ≠ .stop zeros := by
    intro zeros hbits
    have hmore : Bits.hasMore (bitsAt u.data v.pos (u.pos - v.pos)) = true := by decide
    rw [hbits, Bits.hasMore_stop] at hmore
    cases hmore
  have hcanonical : moved.canonical nal pps {} = moved := by decide
  obtain ⟨_, -, -, -, hread⟩ :=
    rebuild_of_parse (h := moved) hparse rfl rfl rfl hrange hbuild (by decide)
  obtain ⟨e, q, hq, hbytes, -⟩ := hread u hrebuild (.inl (by decide)) hstop true
    { data := u.written.toArray } rfl rfl
  rw [hcanonical] at hq
  exact ⟨hparse, rfl, hrange, hbuild, hrebuild, e, q, hq, hbytes⟩

end SliceLayer

end AvcSyntax

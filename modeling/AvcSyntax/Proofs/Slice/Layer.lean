import AvcSyntax.Proofs.Bits.Writing
import AvcSyntax.Proofs.ParameterSets
import AvcSyntax.Proofs.Slice.Header
import AvcSyntax.Slice.Layer

/-!
# Slice data are kept as they are

The data of a slice are all bits from the end of its header to the end of the payload, divided at
the first byte boundary. Written at the same bit offset they are the same bits again. So a slice
that was read is written as a header with a stop bit, or as a header with the data it had;
`SliceLayer.Coded` has a case for each.
-/
namespace AvcSyntax

namespace Reader

theorem rest_eq_ofBytes {r : Reader} (hr : r.InBounds) (haligned : r.pos % 8 = 0) :
    r.rest = Bits.ofBytes r.alignedBytes := by
  rw [InBounds, size] at hr
  have hbytes := bitsAt_bytes r.data (r.pos / 8) (r.data.size - r.pos / 8) (by omega)
  have hpos : 8 * (r.pos / 8) = r.pos := by omega
  have hcount : 8 * (r.data.size - r.pos / 8) = r.remaining := by
    rw [remaining, size]
    omega
  have hdrop : (r.data.extract (r.pos / 8) (r.pos / 8 + (r.data.size - r.pos / 8))).toList =
      r.alignedBytes := by
    have hindex : (r.pos + 7) / 8 = r.pos / 8 := by omega
    rw [alignedBytes, hindex, Array.toList_extract, List.extract_eq_take_drop]
    exact List.take_of_length_le (by simp)
  rw [rest, ← hcount, ← hdrop, ← hbytes, hpos]

end Reader

namespace SliceData

def bits (d : SliceData) : Bits :=
  .ofNat d.alignmentBitCount.toNat d.alignmentBits.toNat ++ .ofBytes d.bytes

/-- Whether data can begin at a bit position: what stands in front of the whole bytes fills up
the byte. -/
structure WellFormed (d : SliceData) (pos : Nat) : Prop where
  alignmentBitCount : d.alignmentBitCount.toNat = (8 - pos % 8) % 8
  alignmentBits : d.alignmentBits.toNat < 2 ^ d.alignmentBitCount.toNat

variable {d : SliceData}

theorem WellFormed.congr {m n : Nat} (h : d.WellFormed m) (hmod : m % 8 = n % 8) :
    d.WellFormed n := ⟨hmod ▸ h.alignmentBitCount, h.alignmentBits⟩

theorem length_bits_mod {pos : Nat} (h : d.WellFormed pos) :
    (pos + d.bits.length) % 8 = 0 := by
  have hcount := h.alignmentBitCount
  simp only [bits, List.length_append, Bits.length_ofNat, Bits.length_ofBytes]
  omega

theorem eq_of_bits {e : SliceData} {pos : Nat} (hd : d.WellFormed pos) (he : e.WellFormed pos)
    (h : d.bits = e.bits) : d = e := by
  have hcount : d.alignmentBitCount = e.alignmentBitCount :=
    UInt8.toNat_inj.mp (hd.alignmentBitCount.trans he.alignmentBitCount.symm)
  obtain ⟨hbits, hbytes⟩ := List.append_inj h (by rw [hcount, Bits.length_ofNat, Bits.length_ofNat])
  have halignment : d.alignmentBits = e.alignmentBits := by
    rw [← UInt8.toNat_inj, ← Bits.toNat_ofNat_of_lt hd.alignmentBits, hbits,
      Bits.toNat_ofNat_of_lt he.alignmentBits]
  have hwhole : d.bytes = e.bytes := Bits.ofBytes_injective hbytes
  cases d
  cases e
  simp_all

/-- Everything up to the end is data. -/
theorem parse_eq {r : Reader} (hr : r.InBounds) :
    ∃ d s, parse r = .ok d s ∧ d.WellFormed r.pos ∧ r.rest = d.bits ∧ r.Moves d.bits s := by
  obtain ⟨count, hcount⟩ : ∃ count, count = (8 - r.pos % 8) % 8 := ⟨_, rfl⟩
  have hmisaligned : (if r.isAligned then 0 else r.bitsLeftInByte) = count := by
    simp only [Reader.isAligned_iff, Reader.bitsLeftInByte]
    split <;> omega
  have hroom : count ≤ r.remaining := by
    have hr' := hr
    rw [Reader.InBounds, Reader.size] at hr'
    rw [Reader.remaining, Reader.size]
    omega
  -- The bits in front of the first byte boundary, as a number.
  obtain ⟨front, hlength, hstart⟩ : ∃ front : Bits, front.length = count ∧
      r.rest = front ++ bitsAt r.data (r.pos + count) (r.remaining - count) :=
    ⟨_, length_bitsAt _ _ _, Reader.rest_eq_bitsAt_append hroom⟩
  have hlt := Bits.toNat_lt front
  have hfront : Bits.ofNat count front.toNat = front := hlength ▸ Bits.ofNat_toNat front
  rw [hlength] at hlt
  rw [← hfront, ← Code.bits_u] at hstart
  obtain ⟨s, hs, hmoves⟩ := (Parse.reads_u (by omega) hlt).run r hr hstart
  rw [Code.bits_u] at hstart hmoves
  -- Behind them stand whole bytes.
  have hbytes : s.rest = Bits.ofBytes s.alignedBytes := by
    apply Reader.rest_eq_ofBytes (hmoves.inBounds hr)
    rw [hmoves.pos, Bits.length_ofNat]
    omega
  obtain ⟨t, ht, hmoves'⟩ := (Parse.reads_skip s.rest).run s (hmoves.inBounds hr)
    (show s.rest = (Code.ofBits s.rest).bits ++ [] by rw [Code.bits_ofBits, List.append_nil])
  rw [Code.bits_ofBits] at hmoves'
  rw [Reader.length_rest] at ht
  have hcountWord : count.toUInt8.toNat = count := by
    simp
    omega
  have hfrontWord : front.toNat.toUInt8.toNat = front.toNat := by
    have hpow : 2 ^ count ≤ 2 ^ 7 := Nat.pow_le_pow_right (by decide) (by omega)
    simp
    omega
  have hbits : (⟨front.toNat.toUInt8, count.toUInt8, s.alignedBytes⟩ : SliceData).bits =
      .ofNat count front.toNat ++ s.rest := by
    rw [bits, hcountWord, hfrontWord, hbytes]
  refine ⟨⟨front.toNat.toUInt8, count.toUInt8, s.alignedBytes⟩, t, ?_, ⟨?_, ?_⟩, ?_, ?_⟩
  · rw [parse, get_bind]
    simp only [hmisaligned]
    rw [bind_of_ok hs, get_bind, get_bind, bind_of_ok ht]
    rfl
  · rw [hcountWord, hcount]
  · rw [hcountWord, hfrontWord]
    exact hlt
  · rw [hbits, hmoves.rest]
  · rw [hbits]
    exact hmoves.trans hmoves'

/-- Data in front of a reader that is at the bit offset of the data. -/
theorem parse_of_rest {r : Reader} (hr : r.InBounds) (h : d.WellFormed r.pos)
    (hrest : r.rest = d.bits) : ∃ s, parse r = .ok d s ∧ r.Moves d.bits s := by
  obtain ⟨e, s, hs, he, hbits, hmoves⟩ := parse_eq hr
  obtain rfl := eq_of_bits h he (hrest.symm.trans hbits)
  exact ⟨s, hs, hmoves⟩

theorem rest_of_parse {r s : Reader} (hr : r.InBounds) (h : parse r = .ok d s) :
    d.WellFormed r.pos ∧ r.rest = d.bits := by
  obtain ⟨e, t, ht, he, hbits, -⟩ := parse_eq hr
  obtain ⟨rfl, -⟩ : d = e ∧ s = t := by simpa [h] using ht
  exact ⟨he, hbits⟩

/-- Where the data go depends on the bits that the last byte has left, and on nothing else. -/
theorem build_eq (d : SliceData) (pps : Pps) (w : Writer) :
    d.build pps w = (do
      if (8 - w.pos % 8) % 8 = d.alignmentBitCount.toNat then
        Build.u ((8 - w.pos % 8) % 8) d.alignmentBits.toNat
      else if pps.entropyCodingMode then
        Build.ones ((8 - w.pos % 8) % 8)
      else
        let old ← (difference 8 d.alignmentBitCount.toNat : Build Nat)
        throw (.sliceDataMoved (old % 8) (w.pos % 8))
      Build.bytes d.bytes : Encode Unit) w := by
  have hcount : (if w.isAligned then 0 else 8 - w.pos % 8) = (8 - w.pos % 8) % 8 := by
    simp only [Writer.isAligned_iff]
    split <;> omega
  rw [build, get_bind]
  simp only [hcount]

theorem appends_bits {pos : Nat} (h : d.WellFormed pos) :
    Appends (do
      Build.u d.alignmentBitCount.toNat d.alignmentBits.toNat
      Build.bytes d.bytes : Encode Unit) d.bits () := by
  have hcount := h.alignmentBitCount
  exact (Build.appends_u (by omega) h.alignmentBits).report.bind (Build.appends_bytes _).report

theorem writes {pos : Nat} (h : d.WellFormed pos) (pps : Pps) :
    Writes pos (d.build pps) d.bits () := by
  intro w hpos _ hroom
  have hcount : (8 - w.pos % 8) % 8 = d.alignmentBitCount.toNat := by
    rw [hpos, h.alignmentBitCount]
  rw [build_eq, if_pos hcount, hcount]
  exact appends_bits h w hroom

end SliceData

namespace SliceLayer

/-- `Coded nal sets l bs` says that reading can yield the slice `l` behind the header `nal`, and
that its bits from the byte boundary behind that header on are `bs`. Data begin where the slice
header ends, and with a bit that is not the stop bit. -/
inductive Coded (nal : NalHeader) (sets : ParameterSets) : SliceLayer → Bits → Prop where
  | headerOnly {h : SliceHeader} {pps : Pps} {sps : Sps}
      (hsets : sets.resolve h.ppsId = .ok (pps, sps)) (hwf : h.WellFormed nal pps sps) :
      Coded nal sets { header := h } (h.openingCode ++ h.bodyCode nal pps sps).closed
  | withData {h : SliceHeader} {d : SliceData} {pps : Pps} {sps : Sps}
      (hsets : sets.resolve h.ppsId = .ok (pps, sps)) (hwf : h.WellFormed nal pps sps)
      (hdata : d.WellFormed (h.openingCode ++ h.bodyCode nal pps sps).bits.length)
      (hmore : Bits.hasMore d.bits = true) :
      Coded nal sets { header := h, data := some d }
        ((h.openingCode ++ h.bodyCode nal pps sps).bits ++ d.bits)

variable {nal : NalHeader} {sets : ParameterSets} {l : SliceLayer} {bs : Bits}

theorem Coded.length_mod (h : l.Coded nal sets bs) : bs.length % 8 = 0 := by
  cases h with
  | headerOnly _ _ => exact Code.length_closed_mod _
  | withData _ _ hdata _ =>
    rw [List.length_append]
    exact SliceData.length_bits_mod hdata

/-- What stands behind the header decides whether it is read as data. -/
theorem parse_of_header {header : SliceHeader} {pps : Pps} {sps : Sps} {r t : Reader}
    (ht : SliceHeader.parse nal sets r = .ok header t)
    (hsets : sets.resolve header.ppsId = .ok (pps, sps)) (strict : Bool) :
    ∃ trace, SliceLayer.parse nal sets strict r =
      (if Bits.hasMore t.rest then do
        let data ← SliceData.parse
        return { header, data := some data }
      else do
        Parse.sliceTrailingBits pps.entropyCodingMode strict
        return { header } : Decode SliceLayer) { t with trace } := by
  obtain ⟨trace, hmore⟩ := Parse.moreData_eq t
  refine ⟨trace, ?_⟩
  have hresolved : (liftM (sets.resolve header.ppsId) : Decode (Pps × Sps)) t =
      .ok (pps, sps) t := by
    rw [hsets]
    rfl
  have hasked : (liftM Parse.moreData : Decode Bool) t =
      .ok (Bits.hasMore t.rest) { t with trace := trace } := reportFaults_eq_ok.mpr hmore
  exact (bind_of_ok ht).trans ((bind_of_ok hresolved).trans (bind_of_ok hasked))

/-- Data behind a header are read wherever they cannot be taken for the stop bit. -/
theorem parse_withData {header : SliceHeader} {d : SliceData} {pps : Pps} {sps : Sps}
    (hsets : sets.resolve header.ppsId = .ok (pps, sps)) (hwf : header.WellFormed nal pps sps)
    (hmore : Bits.hasMore d.bits = true) (strict : Bool) {r : Reader} (hr : r.InBounds)
    (hdata : d.WellFormed (r.pos + (header.openingCode ++ header.bodyCode nal pps sps).bits.length))
    (hrest : r.rest = (header.openingCode ++ header.bodyCode nal pps sps).bits ++ d.bits) :
    ∃ s, SliceLayer.parse nal sets strict r = .ok { header, data := some d } s ∧
      r.Moves ((header.openingCode ++ header.bodyCode nal pps sps).bits ++ d.bits) s := by
  obtain ⟨s, hs, hmoves⟩ := (SliceHeader.reads_code hsets hwf).run r hr hrest
  have hsrest : s.rest = d.bits := hmoves.rest_eq hrest
  have hsbounds := hmoves.inBounds hr
  have hoffset : d.WellFormed s.pos := hmoves.pos ▸ hdata
  obtain ⟨t, ht⟩ := parse_of_header hs hsets strict
  obtain ⟨u, hu, hmoves'⟩ := SliceData.parse_of_rest (r := { s with trace := t }) hsbounds
    hoffset hsrest
  refine ⟨u, ?_, hmoves.trans ((Reader.Moves.note s t).trans hmoves')⟩
  rw [ht, if_pos (by rw [hsrest, hmore])]
  exact bind_of_ok (reportFaults_eq_ok.mpr hu)

theorem Coded.parse (h : l.Coded nal sets bs) (strict : Bool) {r : Reader} (hr : r.InBounds)
    (hpos : r.pos % 8 = 0) (hrest : r.rest = bs) :
    ∃ s, SliceLayer.parse nal sets strict r = .ok l s ∧ r.Moves bs s := by
  cases h with
  | @headerOnly header pps sps hsets hwf =>
    have hreads : Reads (SliceLayer.parse nal sets strict)
        ((header.openingCode ++ header.bodyCode nal pps sps) ++ .ofBits (.stop (7 -
          (header.openingCode ++ header.bodyCode nal pps sps).bits.length % 8))) [] { header } := by
      refine (SliceHeader.reads_code hsets hwf).bind ?_
      apply (Reads.ofExcept hsets).look
      apply Parse.reads_moreData.report.look
      rw [Code.bits_ofBits, List.append_nil, Bits.hasMore_stop]
      exact (Parse.reads_sliceTrailingBits _ strict (by omega)).report.bind_pure rfl
    have hbits := (SliceHeader.valid_code hsets hwf).bits_append_stop
    obtain ⟨s, hs, hmoves⟩ := hreads.run r hr (by rw [hbits, List.append_nil, hrest])
    exact ⟨s, hs, hbits ▸ hmoves⟩
  | withData hsets hwf hdata hmore =>
    exact parse_withData hsets hwf hmore strict hr (hdata.congr (by omega)) hrest

theorem header_of_parse {d : SliceData} {strict : Bool} {r s : Reader}
    (h : SliceLayer.parse nal sets strict r = .ok l s) (hdata : l.data = some d) :
    ∃ t, SliceHeader.parse nal sets r = .ok l.header t ∧ d.WellFormed t.pos := by
  obtain ⟨header, t, ht, h⟩ := bind_eq_ok.mp h
  obtain ⟨found, _, hfound, h⟩ := bind_eq_ok.mp h
  obtain ⟨-, rfl⟩ := liftM_eq_ok.mp hfound
  obtain ⟨more, v, hmore, h⟩ := bind_eq_ok.mp h
  cases more with
  | false =>
    obtain ⟨_, u, -, h⟩ := bind_eq_ok.mp h
    cases h
    cases hdata
  | true =>
    obtain ⟨found, u, hu, h⟩ := bind_eq_ok.mp h
    cases h
    cases hdata
    have hasked : Parse.moreData t = .ok true v := reportFaults_eq_ok.mp hmore
    have hbounds := Parse.inBounds_of_moreData hasked
    obtain ⟨trace, htrace⟩ := Parse.moreData_eq t
    obtain ⟨-, rfl⟩ := EStateM.Result.ok.inj (htrace.symm.trans hasked)
    obtain ⟨hoffset, -⟩ := SliceData.rest_of_parse (r := { t with trace := trace }) hbounds
      (reportFaults_eq_ok.mp hu)
    exact ⟨t, ht, hoffset⟩

/-- What reading yields has its bits. With data they are all bits up to the end. -/
theorem coded_of_parse (hsets : sets.WellFormed) {strict : Bool} {r s : Reader} (hr : r.InBounds)
    (hpos : r.pos % 8 = 0) (h : SliceLayer.parse nal sets strict r = .ok l s) :
    ∃ bs, l.Coded nal sets bs ∧ (l.data.isSome → r.rest = bs) := by
  obtain ⟨header, t, ht, -⟩ := bind_eq_ok.mp h
  have hfits : ∀ id pps sps, sets.resolve id = .ok (pps, sps) → QpDeltaFits pps sps := by
    intro id pps sps hresolve
    obtain ⟨⟨_, hpps⟩, hsps⟩ := hsets.resolve hresolve
    exact qpDeltaFits hpps hsps
  obtain ⟨_, hvalid, hmoves, pps, sps, hresolve, hwf, rfl⟩ :=
    SliceHeader.accepts_parse hfits r header t hr ht
  have htbounds := hmoves.inBounds hr
  obtain ⟨trace, hparse⟩ := parse_of_header ht hresolve strict
  rw [hparse] at h
  by_cases hdata : Bits.hasMore t.rest = true
  · rw [if_pos hdata] at h
    obtain ⟨d, u, hu, h⟩ := bind_eq_ok.mp h
    cases h
    obtain ⟨hoffset, hrest⟩ := SliceData.rest_of_parse (r := { t with trace := trace })
      htbounds (reportFaults_eq_ok.mp hu)
    have htrest : t.rest = d.bits := hrest
    refine ⟨_, .withData hresolve hwf (hoffset.congr ?_) (htrest ▸ hdata), fun _ => ?_⟩
    · have htpos : t.pos = _ := hmoves.pos
      simp only [htpos]
      omega
    · rw [hmoves.rest, htrest]
  · rw [if_neg hdata] at h
    obtain ⟨-, u, -, h⟩ := bind_eq_ok.mp h
    cases h
    exact ⟨_, .headerOnly hresolve hwf, by simp⟩

theorem Coded.writes (h : l.Coded nal sets bs) {pos : Nat} (hpos : pos % 8 = 0) :
    Writes pos (l.build nal sets) bs () := by
  have hheader : ∀ {header : SliceHeader} {pps : Pps} {sps : Sps},
      sets.resolve header.ppsId = .ok (pps, sps) → header.WellFormed nal pps sps →
      Writes pos (header.build nal sets)
        (header.openingCode ++ header.bodyCode nal pps sps).bits () := by
    intro header pps sps hsets hwf
    have hcode : header.code nal sets =
        .ok (header.openingCode ++ header.bodyCode nal pps sps) := by
      rw [SliceHeader.code, hsets]
      rfl
    exact (Writes.ofExcept hcode).bind
      (SliceHeader.valid_code hsets hwf).writes.report
  cases h with
  | @headerOnly header pps sps hsets hwf =>
    refine (hheader hsets hwf).bind ?_
    exact (Build.writes_closing hpos _).report
  | @withData header d pps sps hsets hwf hdata hmore =>
    refine (hheader hsets hwf).bind ?_
    have hoffset : d.WellFormed
        (pos + (header.openingCode ++ header.bodyCode nal pps sps).bits.length) :=
      hdata.congr (by omega)
    have hdataWrites := SliceData.writes hoffset pps
    exact (Writes.ofExcept (a := (pps, sps)) hsets).bind hdataWrites

theorem Coded.length_le (h : l.Coded nal sets bs) (hsets : sets.WellFormed) :
    bs.length ≤ 61000 + 8 * (l.data.elim 0 fun d => d.bytes.length) := by
  have hheader : ∀ {header : SliceHeader} {pps : Pps} {sps : Sps},
      sets.resolve header.ppsId = .ok (pps, sps) →
      (header.openingCode ++ header.bodyCode nal pps sps).AtMost 60195 := by
    intro header pps sps hresolve
    obtain ⟨⟨_, hpps⟩, -⟩ := hsets.resolve hresolve
    exact ((SliceHeader.atMost_openingCode header).append
      (SliceHeader.atMost_bodyCode header nal pps sps hpps.numRefIdxL0DefaultActiveMinus1
        hpps.numRefIdxL1DefaultActiveMinus1)).mono (by decide)
  cases h with
  | headerOnly hresolve _ =>
    have hcode := hheader hresolve
    unfold Code.AtMost at hcode
    exact (Code.length_closed_le _).trans (by omega)
  | withData hresolve _ hdata _ =>
    have hcount := hdata.alignmentBitCount
    have hcode := hheader hresolve
    unfold Code.AtMost at hcode
    simp only [SliceData.bits, List.length_append, Bits.length_ofNat, Bits.length_ofBytes,
      Option.elim]
    omega

end SliceLayer

end AvcSyntax

import AvcSyntax.Proofs.Nal.ByteStream
import AvcSyntax.Proofs.Nal.Escaping
import AvcSyntax.Proofs.Nal.Header
import AvcSyntax.Proofs.Sei
import AvcSyntax.Proofs.Slice.Layer
import AvcSyntax.Stream.NalUnit

/-!
# NAL units are read back

`NalPayload.Coded header sets p bs` says that under the parameter sets `sets` reading can yield
the payload `p` behind the header, and that `bs` are its bits. Three facts tie it to the code:
what reading yields has such bits, such bits are what is written, and they are read back as the
same payload. None of them depends on how strictly is read, apart from the rules on headers.

The bits need not be those that were read. A scaling list may be stated in a longer way than
needed, and the stop bit may be missing.
-/
namespace AvcSyntax

namespace NalPayload

variable {sets : ParameterSets} {header : NalHeader} {p : NalPayload} {bs : Bits}

/-- The payloads that reading can yield behind a header, with their bits. -/
inductive Coded (header : NalHeader) (sets : ParameterSets) : NalPayload → Bits → Prop where
  | slice {l : SliceLayer} {bs : Bits} (htype : header.unitType.isSlice = true)
      (h : l.Coded header sets bs) : Coded header sets (slice l) bs
  | sei {ms : List SeiMessage} (htype : header.unitType = .sei) (h : ∀ m ∈ ms, m.WellFormed) :
      Coded header sets (sei ms) (Code.concat (ms.map SeiMessage.code)).closed
  | sps {s : Sps} (htype : header.unitType = .sps) (h : s.WellFormed) :
      Coded header sets (sps s) s.code.closed
  | pps {p : Pps} (htype : header.unitType = .pps)
      (h : p.WellFormed (sets.chromaFormatIdc p.spsId)) :
      Coded header sets (pps p) (p.code sets).closed
  | accessUnitDelimiter {d : AccessUnitDelimiter}
      (htype : header.unitType = .accessUnitDelimiter) :
      Coded header sets (accessUnitDelimiter d) d.code.closed
  | endOfSequence (htype : header.unitType = .endOfSequence) :
      Coded header sets endOfSequence []
  | endOfStream (htype : header.unitType = .endOfStream) : Coded header sets endOfStream []

theorem Coded.fits (h : p.Coded header sets bs) : p.fits header.unitType = true := by
  cases h with
  | slice htype _ => exact htype
  | _ => simp [NalPayload.fits, *]

theorem Coded.length_mod (h : p.Coded header sets bs) : bs.length % 8 = 0 := by
  cases h with
  | slice _ h => exact h.length_mod
  | endOfSequence _ => rfl
  | endOfStream _ => rfl
  | _ => exact Code.length_closed_mod _

section Reading

theorem parse_slice (htype : header.unitType.isSlice = true) (strict : Bool) :
    parse strict sets header = slice <$> SliceLayer.parse header sets strict := by
  rw [parse, map_eq_pure_bind]
  split <;> simp_all [UnitType.isSlice]

theorem reads_parseEnd (strict : Bool) {zeros : Nat} (hzeros : zeros < 8) :
    Reads (parseEnd strict) (.ofBits (.stop zeros)) [] () := by
  refine Reads.get (Parse.reads_trailingBits strict hzeros).report fun r _ hrest => ?_
  have hend : ¬r.atEnd := by
    intro hend
    rw [Reader.rest_eq_nil_iff.mpr hend, Code.bits_ofBits] at hrest
    simp [Bits.stop] at hrest
  rw [if_neg (by simp [hend])]
  rfl

theorem parse_closed {α : Type} {p : Decode α} {c : Code} {a : α} (g : α → NalPayload)
    (hp : Reads p c (.stop (7 - c.bits.length % 8)) a) (strict : Bool) {r : Reader}
    (hr : r.InBounds) (hrest : r.rest = c.closed) :
    ∃ s, (do
      let a ← p
      parseEnd strict
      return g a : Decode NalPayload) r = .ok (g a) s ∧ r.Moves c.closed s := by
  have hreads : Reads (do
      let a ← p
      parseEnd strict
      return g a : Decode NalPayload) (c ++ .ofBits (.stop (7 - c.bits.length % 8))) [] (g a) := by
    refine Reads.bind ?_ ((reads_parseEnd strict (by omega)).bind_pure rfl)
    rwa [Code.bits_ofBits, List.append_nil]
  have hbits := hp.valid.bits_append_stop
  obtain ⟨s, hs, hmoves⟩ := hreads.run r hr (by rw [hbits, List.append_nil, hrest])
  exact ⟨s, hs, hbits ▸ hmoves⟩

theorem Coded.parse (h : p.Coded header sets bs) (strict : Bool) {r : Reader} (hr : r.InBounds)
    (hpos : r.pos % 8 = 0) (hrest : r.rest = bs) :
    ∃ s, NalPayload.parse strict sets header r = .ok p s ∧ r.Moves bs s := by
  cases h with
  | slice htype h =>
    obtain ⟨s, hs, hmoves⟩ := h.parse strict hr hpos hrest
    refine ⟨s, ?_, hmoves⟩
    rw [parse_slice htype, map_eq_pure_bind, bind_of_ok hs]
    rfl
  | sei htype h =>
    rw [NalPayload.parse, htype]
    exact parse_closed NalPayload.sei (SeiMessage.reads_parseAll h _) strict hr hrest
  | sps htype h =>
    rw [NalPayload.parse, htype]
    exact parse_closed NalPayload.sps (Sps.reads_code h).report strict hr hrest
  | pps htype h =>
    rw [NalPayload.parse, htype]
    exact parse_closed NalPayload.pps (Pps.reads_code h _).report strict hr hrest
  | @accessUnitDelimiter d htype =>
    rw [NalPayload.parse, htype]
    exact parse_closed NalPayload.accessUnitDelimiter d.reads_code.report strict hr hrest
  | endOfSequence htype =>
    rw [NalPayload.parse, htype]
    exact ⟨r, rfl, .refl r⟩
  | endOfStream htype =>
    rw [NalPayload.parse, htype]
    exact ⟨r, rfl, .refl r⟩

/-- Whatever the end of a payload looks like, its record is well formed. -/
theorem accepted_of_parse {α : Type} {p : Decode α} {P : α → Code → Prop} {g : α → NalPayload}
    (hp : Accepts p P) {strict : Bool} {q : NalPayload} {r s : Reader} (hr : r.InBounds)
    (h : (do
      let a ← p
      parseEnd strict
      return g a : Decode NalPayload) r = .ok q s) : ∃ a c, q = g a ∧ P a c := by
  obtain ⟨a, t, ht, h⟩ := bind_eq_ok.mp h
  obtain ⟨-, u, -, h⟩ := bind_eq_ok.mp h
  obtain ⟨c, -, -, hP⟩ := hp r a t hr ht
  cases h
  exact ⟨a, c, rfl, hP⟩

/-- What reading yields has its bits. Slice data are all bits up to the end. -/
theorem coded_of_parse (hsets : sets.WellFormed) {strict : Bool} {r s : Reader} (hr : r.InBounds)
    (hpos : r.pos % 8 = 0) (h : parse strict sets header r = .ok p s) :
    ∃ bs, p.Coded header sets bs ∧
      (∀ l, p = slice l → l.data.isSome → r.rest = bs) := by
  have hslice : header.unitType.isSlice = true → ∃ bs, p.Coded header sets bs ∧
      (∀ l, p = slice l → l.data.isSome → r.rest = bs) := by
    intro htype
    rw [parse_slice htype, map_eq_pure_bind] at h
    obtain ⟨l, t, ht, h⟩ := bind_eq_ok.mp h
    cases h
    obtain ⟨bs, hl, hrest⟩ := SliceLayer.coded_of_parse hsets hr hpos ht
    refine ⟨bs, .slice htype hl, ?_⟩
    rintro _ ⟨⟩
    exact hrest
  cases htype : header.unitType with
  | nonIdrSlice | idrSlice | auxiliarySlice =>
    exact hslice (by rw [htype]; rfl)
  | sei =>
    rw [parse, htype] at h
    obtain ⟨ms, _, rfl, hms, -⟩ := accepted_of_parse SeiMessage.accepts_parseAll hr h
    exact ⟨_, .sei htype hms, by simp⟩
  | sps =>
    rw [parse, htype] at h
    obtain ⟨s, _, rfl, hs, -⟩ := accepted_of_parse Sps.accepts_parse.report hr h
    exact ⟨_, .sps htype hs, by simp⟩
  | pps =>
    rw [parse, htype] at h
    obtain ⟨p, _, rfl, hp, -⟩ := accepted_of_parse Pps.accepts_parse.report hr h
    exact ⟨_, .pps htype hp, by simp⟩
  | accessUnitDelimiter =>
    rw [parse, htype] at h
    obtain ⟨d, _, rfl, -⟩ := accepted_of_parse AccessUnitDelimiter.accepts_parse.report hr h
    exact ⟨_, .accessUnitDelimiter htype, by simp⟩
  | endOfSequence =>
    rw [parse, htype] at h
    cases h
    exact ⟨_, .endOfSequence htype, by simp⟩
  | endOfStream =>
    rw [parse, htype] at h
    cases h
    exact ⟨_, .endOfStream htype, by simp⟩
  | _ =>
    rw [parse, htype] at h
    cases h

end Reading

section Writing

theorem writes_closed {c : Code} (hc : c.Valid) {pos : Nat} (hpos : pos % 8 = 0) :
    Writes pos (do
      c.write
      Build.trailingBits : Encode Unit) c.closed () :=
  hc.writes.report.bind (Build.writes_closing hpos c).report

theorem Coded.writes (h : p.Coded header sets bs) {pos : Nat} (hpos : pos % 8 = 0) :
    Writes pos (p.build sets header) bs () := by
  cases h with
  | slice _ h => exact h.writes hpos
  | sei _ h => exact writes_closed (SeiMessage.reads_parseAll h 0).valid hpos
  | sps _ h => exact writes_closed (Sps.valid_code h) hpos
  | pps _ h => exact writes_closed (Pps.reads_code h 0).valid hpos
  | @accessUnitDelimiter d _ => exact writes_closed d.valid_code hpos
  | endOfSequence _ => exact Writes.pure ()
  | endOfStream _ => exact Writes.pure ()

/-- The room set aside suffices. Of slices only if the parameter sets are well formed, for they
say how much a slice header holds. -/
theorem Coded.length_le (h : p.Coded header sets bs)
    (hsets : ∀ l, p = .slice l → sets.WellFormed) :
    bs.length + 8 ≤ 8 * (NalUnit.boundedSize + p.unboundedSize) := by
  have hclosed : ∀ {c : Code} {n : Nat}, c.AtMost n →
      n + 16 ≤ 8 * (NalUnit.boundedSize + p.unboundedSize) →
      c.closed.length + 8 ≤ 8 * (NalUnit.boundedSize + p.unboundedSize) := by
    intro c n hc hn
    have hlength := c.length_closed_le
    unfold Code.AtMost at hc
    omega
  have hbounded : NalUnit.boundedSize = 16384 := rfl
  cases h with
  | @slice l bs _ h =>
    have hlength := h.length_le (hsets _ rfl)
    have hdata : (NalPayload.slice l).unboundedSize = l.data.elim 0 fun d => d.bytes.length := by
      rw [unboundedSize]
      cases l.data <;> rfl
    omega
  | @sei ms _ _ =>
    have hmessages : (Code.concat (ms.map SeiMessage.code)).AtMost
        (ms.map fun m => 8 * m.size).sum :=
      Code.AtMost.concat_sum fun m _ => m.atMost_code
    have hsum : (NalPayload.sei ms).unboundedSize = (ms.map SeiMessage.size).sum := rfl
    apply hclosed hmessages
    rw [List.sum_map_mul_left]
    omega
  | @sps s _ _ => exact hclosed s.atMost_code (by omega)
  | @pps p _ _ =>
    apply hclosed (p.atMost_code sets)
    have hmap : (NalPayload.pps p).unboundedSize = p.explicitMapSize := rfl
    omega
  | @accessUnitDelimiter d _ => exact hclosed d.atMost_code (by omega)
  | endOfSequence _ | endOfStream _ =>
    rw [List.length_nil]
    omega

end Writing

end NalPayload

theorem NalHeader.validate_eq_ok {h : NalHeader} :
    h.validate = .ok () ↔ h.brokenRule? = none := by
  unfold validate
  cases h.brokenRule? <;> simp

namespace NalUnit

variable {config : StreamConfig} {sets : ParameterSets} {u : NalUnit} {bs : Bits}

/-- The units that reading can yield under some settings, with the bits of all their bytes. -/
structure Coded (config : StreamConfig) (sets : ParameterSets) (u : NalUnit) (bs : Bits) :
    Prop where
  header : u.header.WellFormed
  rule : config.strictHeader = true → u.header.brokenRule? = none
  payload : ∃ cs, u.payload.Coded u.header sets cs ∧ bs = u.header.code.bits ++ cs

theorem parse_eq_ok {r s : Reader} :
    parse config sets r = .ok u s ↔
      ∃ t, NalHeader.parse r = .ok u.header t ∧
        (config.strictHeader = true → u.header.brokenRule? = none) ∧
        NalPayload.parse config.strictTrailingBits sets u.header t = .ok u.payload s ∧
        s.overrun = false := by
  -- What follows the checks on the header.
  have hrest : ∀ (header : NalHeader) (t : Reader), (do
      let payload ← NalPayload.parse config.strictTrailingBits sets header
      if (← get).overrun then throw .overrun
      return { header, payload } : Decode NalUnit) t = .ok u s ↔
      u.header = header ∧
        NalPayload.parse config.strictTrailingBits sets header t = .ok u.payload s ∧
        s.overrun = false := by
    intro header t
    rw [bind_eq_ok]
    constructor
    · rintro ⟨payload, v, hv, h⟩
      rw [get_bind] at h
      by_cases hover : v.overrun = true
      · simp only [hover, if_true] at h
        cases h
      · simp only [hover] at h
        cases h
        exact ⟨rfl, hv, by simpa using hover⟩
    · rintro ⟨rfl, hs, hover⟩
      refine ⟨_, s, hs, ?_⟩
      rw [get_bind]
      simp only [hover]
      rfl
  rw [parse, bind_eq_ok]
  constructor
  · rintro ⟨header, t, ht, h⟩
    by_cases hstrict : config.strictHeader = true
    · rw [if_pos hstrict] at h
      obtain ⟨_, v, hv, h⟩ := bind_eq_ok.mp h
      obtain ⟨hvalid, rfl⟩ := liftM_eq_ok.mp hv
      obtain ⟨rfl, h⟩ := (hrest header t).mp h
      exact ⟨t, ht, fun _ => NalHeader.validate_eq_ok.mp hvalid, h⟩
    · rw [if_neg hstrict] at h
      obtain ⟨rfl, h⟩ := (hrest header t).mp h
      exact ⟨t, ht, fun h => absurd h hstrict, h⟩
  · rintro ⟨t, ht, hrule, h⟩
    refine ⟨u.header, t, ht, ?_⟩
    by_cases hstrict : config.strictHeader = true
    · have hvalid : (liftM u.header.validate : Decode Unit) t = .ok () t :=
        liftM_eq_ok.mpr ⟨NalHeader.validate_eq_ok.mpr (hrule hstrict), rfl⟩
      rw [if_pos hstrict, bind_of_ok hvalid]
      exact (hrest u.header t).mpr ⟨rfl, h⟩
    · rw [if_neg hstrict]
      exact (hrest u.header t).mpr ⟨rfl, h⟩

theorem pos_behind_header {header : NalHeader} (hwf : header.WellFormed) {data : Array UInt8}
    {trace : Trace} {r : Reader}
    (h : ({ data, trace } : Reader).Moves header.code.bits r) : r.pos = 8 := by
  have hpos := h.pos
  rwa [NalHeader.length_bits_code hwf] at hpos

theorem Coded.parse (h : u.Coded config sets bs) {plain : List UInt8}
    (hplain : Bits.ofBytes plain = bs) (trace : Trace) :
    ∃ s, NalUnit.parse config sets { data := plain.toArray, trace } = .ok u s := by
  obtain ⟨hwf, hrule, cs, hpayload, rfl⟩ := h
  have hbounds := Reader.inBounds_start plain trace
  have hstart := (Reader.rest_start plain trace).trans hplain
  obtain ⟨r, hr, hmoves⟩ := (NalHeader.reads_code hwf).run _ hbounds hstart
  have haligned : r.pos % 8 = 0 := by
    rw [pos_behind_header hwf hmoves]
  obtain ⟨s, hs, hmoves'⟩ := hpayload.parse config.strictTrailingBits (hmoves.inBounds hbounds)
    haligned (hmoves.rest_eq hstart)
  exact ⟨s, parse_eq_ok.mpr ⟨r, hr, hrule, hs, hmoves'.overrun.trans hmoves.overrun⟩⟩

/-- What reading yields has its bits. Slice data are all bits up to the end. -/
theorem coded_of_parse (hsets : sets.WellFormed) {plain : List UInt8} {trace : Trace} {s : Reader}
    (h : parse config sets { data := plain.toArray, trace } = .ok u s) :
    ∃ bs, u.Coded config sets bs ∧
      (∀ l, u.payload = .slice l → l.data.isSome → Bits.ofBytes plain = bs) := by
  have hbounds := Reader.inBounds_start plain trace
  obtain ⟨r, hr, hrule, hs, -⟩ := parse_eq_ok.mp h
  obtain ⟨_, -, hmoves, hwf, rfl⟩ := NalHeader.accepts_parse _ _ r hbounds hr
  have haligned : r.pos % 8 = 0 := by
    rw [pos_behind_header hwf hmoves]
  obtain ⟨bs, hpayload, hdata⟩ :=
    NalPayload.coded_of_parse hsets (hmoves.inBounds hbounds) haligned hs
  refine ⟨_, ⟨hwf, hrule, bs, hpayload, rfl⟩, ?_⟩
  intro l hl hsome
  rw [← Reader.rest_start plain trace, hmoves.rest, hdata l hl hsome]

theorem Coded.length_mod (h : u.Coded config sets bs) : bs.length % 8 = 0 := by
  obtain ⟨hwf, -, cs, hpayload, rfl⟩ := h
  have hmod := hpayload.length_mod
  rw [List.length_append, NalHeader.length_bits_code hwf]
  omega

theorem Coded.writes (h : u.Coded config sets bs) : Writes 0 (u.build sets) bs (bs.length / 8) := by
  have hmod := h.length_mod
  obtain ⟨hwf, -, cs, hpayload, rfl⟩ := h
  have hlength := NalHeader.length_bits_code hwf
  rw [List.length_append] at hmod
  have hend : Writes (0 + u.header.code.bits.length + cs.length) (do
      if (← get).overrun then throw .overrun
      Build.finish : Encode Nat) [] ((0 + u.header.code.bits.length + cs.length) / 8) := by
    refine Writes.get (fun w _ hover => ?_) (Build.writes_finish (by omega)).report
    rw [hover]
    rfl
  have hheader : Writes 0 (liftM u.header.code.write : Encode Unit) u.header.code.bits () :=
    (NalHeader.valid_code hwf).writes.report
  have haligned : (0 + u.header.code.bits.length) % 8 = 0 := by omega
  have hall : Writes 0 (u.build sets) (u.header.code.bits ++ (cs ++ []))
      ((0 + u.header.code.bits.length + cs.length) / 8) :=
    hheader.bind ((hpayload.writes haligned).bind hend)
  rwa [List.append_nil, Nat.zero_add, ← List.length_append] at hall

def buffer (config : StreamConfig) (u : NalUnit) : Writer :=
  { Writer.zeroed (boundedSize + u.payload.unboundedSize) with
    trace := if config.traceBits then some #[] else none }

theorem remaining_buffer (config : StreamConfig) (u : NalUnit) :
    (u.buffer config).remaining = 8 * (boundedSize + u.payload.unboundedSize) := by
  simp [buffer, Writer.remaining, Writer.zeroed]

section Buffers

variable {w : Writer}

theorem encodePlain_of_ok {size : Nat} (hfits : u.payload.fits u.header.unitType = true)
    (h : u.build sets (u.buffer config) = .ok size w) :
    u.encodePlain config sets = .ok (w.data.extract 0 size).toList := by
  unfold buffer at h
  rw [encodePlain, hfits]
  simp only [h]
  rfl

theorem encodePlain_of_error {e : NalError} (hfits : u.payload.fits u.header.unitType = true)
    (h : u.build sets (u.buffer config) = .error e w) :
    u.encodePlain config sets = .error e := by
  unfold buffer at h
  rw [encodePlain, hfits]
  simp only [h]
  rfl

end Buffers

theorem Coded.encodePlain (h : u.Coded config sets bs)
    (hsets : ∀ l, u.payload = .slice l → sets.WellFormed) :
    ∃ plain, u.encodePlain config sets = .ok plain ∧ Bits.ofBytes plain = bs := by
  have hwrites := h.writes
  have hmod := h.length_mod
  have hfits : u.payload.fits u.header.unitType = true ∧
      bs.length ≤ 8 * (boundedSize + u.payload.unboundedSize) := by
    obtain ⟨hwf, -, cs, hpayload, rfl⟩ := h
    refine ⟨hpayload.fits, ?_⟩
    rw [List.length_append, NalHeader.length_bits_code hwf, Nat.add_comm]
    exact hpayload.length_le hsets
  obtain ⟨hfits, hroom⟩ := hfits
  rw [← remaining_buffer config u] at hroom
  obtain ⟨v, hv, hmoves⟩ := hwrites (u.buffer config) rfl rfl hroom
  refine ⟨(v.data.extract 0 (bs.length / 8)).toList, ?_, ?_⟩
  · exact encodePlain_of_ok hfits hv
  · have hsize : bs.length / 8 = v.pos / 8 := by
      rw [hmoves.pos]
      exact congrArg (· / 8) (Nat.zero_add _).symm
    rw [hsize]
    exact Writer.ofBytes_written hmoves rfl hmod hroom

/-- Unless data follow a slice header, the last byte holds the stop bit or is the header. -/
theorem Coded.exists_stop (h : u.Coded config sets bs)
    (hdata : ∀ l, u.payload = .slice l → l.data = none) :
    ∃ front zeros, zeros < 8 ∧ bs = front ++ .stop zeros := by
  obtain ⟨hwf, -, cs, hpayload, rfl⟩ := h
  have hclosed : ∀ c : Code, ∃ front zeros, zeros < 8 ∧
      u.header.code.bits ++ c.closed = front ++ .stop zeros := fun c =>
    ⟨u.header.code.bits ++ c.bits, 7 - c.bits.length % 8, by omega, by
      rw [Code.closed, List.append_assoc]⟩
  -- The last one bit of the number of a type.
  have htype : ∀ (front : Bits) (zeros : Nat), zeros < 8 →
      Bits.ofNat 5 u.header.unitType.code.toNat = front ++ .stop zeros →
      ∃ front zeros, zeros < 8 ∧ u.header.code.bits ++ [] = front ++ .stop zeros := by
    intro front zeros hzeros hcode
    refine ⟨false :: (Bits.ofNat 2 u.header.refIdc.toNat ++ front), zeros, hzeros, ?_⟩
    rw [List.append_nil, NalHeader.bits_code hwf, hcode, List.cons_append, List.append_assoc]
  cases hu : u.payload with
  | slice l =>
    rw [hu] at hpayload
    cases hpayload with
    | slice _ h =>
      cases h with
      | headerOnly _ _ => exact hclosed _
      | withData _ _ _ _ => cases hdata _ hu
  | endOfSequence =>
    rw [hu] at hpayload
    cases hpayload with
    | endOfSequence h => exact htype [false, true, false] 1 (by decide) (by rw [h]; rfl)
  | endOfStream =>
    rw [hu] at hpayload
    cases hpayload with
    | endOfStream h => exact htype [false, true, false, true] 0 (by decide) (by rw [h]; rfl)
  | _ =>
    rw [hu] at hpayload
    cases hpayload
    exact hclosed _

section Escaping

theorem decode_of_unescape {bytes plain : List UInt8} (h : unescape bytes = .ok plain) :
    decode config sets bytes =
      match NalUnit.parse config sets
        { data := plain.toArray, trace := if config.traceBits then some #[] else none } with
      | .ok unit _ => .ok unit
      | .error e _ => .error e := by
  rw [decode, h]
  rfl

theorem decode_eq_ok {bytes : List UInt8} :
    decode config sets bytes = .ok u ↔ ∃ plain s, unescape bytes = .ok plain ∧
      NalUnit.parse config sets
        { data := plain.toArray, trace := if config.traceBits then some #[] else none } =
        .ok u s := by
  constructor
  · intro h
    obtain ⟨plain, hplain⟩ : ∃ plain, unescape bytes = .ok plain := by
      unfold decode at h
      cases hplain : unescape bytes with
      | error e =>
        rw [hplain] at h
        cases h
      | ok plain => exact ⟨plain, rfl⟩
    rw [decode_of_unescape hplain] at h
    split at h
    · rename_i found s hs
      cases h
      exact ⟨plain, s, hplain, hs⟩
    · cases h
  · rintro ⟨plain, s, hplain, hs⟩
    rw [decode_of_unescape hplain, hs]

/-- `u.WrittenAs config sets w` says that reading can yield the unit `u` under the settings and
parameter sets, and that its bytes are `w`. -/
def WrittenAs (u : NalUnit) (config : StreamConfig) (sets : ParameterSets) (w : List UInt8) :
    Prop :=
  ∃ plain, u.Coded config sets (Bits.ofBytes plain) ∧ escape plain = .ok w

variable {bytes w : List UInt8}

theorem WrittenAs.encode (h : u.WrittenAs config sets w)
    (hsets : ∀ l, u.payload = .slice l → sets.WellFormed) : u.encode config sets = .ok w := by
  obtain ⟨plain, hcoded, hw⟩ := h
  obtain ⟨found, hfound, hbits⟩ := hcoded.encodePlain hsets
  obtain rfl := Bits.ofBytes_injective hbits
  rw [NalUnit.encode, hfound]
  exact hw

theorem WrittenAs.decode (h : u.WrittenAs config sets w) : decode config sets w = .ok u := by
  obtain ⟨plain, hcoded, hw⟩ := h
  obtain ⟨s, hs⟩ := hcoded.parse rfl (if config.traceBits then some #[] else none)
  exact decode_eq_ok.mpr ⟨plain, s, unescape_of_escape hw, hs⟩

/-- A slice that was read with its data is written as the bytes that were read, unless they end in
two zero bytes, behind which an escape would be written. -/
theorem writtenAs_of_decode_slice (hsets : sets.WellFormed)
    (h : decode config sets bytes = .ok u) {l : SliceLayer} (hl : u.payload = .slice l)
    (hdata : l.data.isSome) (hend : ¬[0, 0] <:+ bytes) : u.WrittenAs config sets bytes := by
  obtain ⟨plain, s, hplain, hs⟩ := decode_eq_ok.mp h
  obtain ⟨bs, hcoded, hbits⟩ := coded_of_parse hsets hs
  obtain rfl := hbits l hl hdata
  exact ⟨plain, hcoded, escape_of_unescape hplain hend⟩

/-- A unit that was read can be written. If what it was read from does not end in a zero byte,
what it is written as can stand in a byte stream. -/
theorem writtenAs_of_decode (hsets : sets.WellFormed) (h : decode config sets bytes = .ok u) :
    ∃ w, u.WrittenAs config sets w ∧
      ((∃ b, bytes.getLast? = some b ∧ b ≠ 0) → Framable w) := by
  obtain ⟨plain, s, -, hs⟩ := decode_eq_ok.mp h
  obtain ⟨bs, hcoded, -⟩ := coded_of_parse hsets hs
  obtain ⟨found, -, rfl⟩ := hcoded.encodePlain fun _ _ => hsets
  have hwritten : u.WrittenAs config sets (escaped 0 found) := ⟨found, hcoded, escape_eq found⟩
  refine ⟨_, hwritten, fun hlast => ?_⟩
  have hfree : ∀ x : UInt8, x ≤ 1 → ¬[0, 0, x] <:+: escaped 0 found := fun x hx =>
    not_infix_escaped (Nat.zero_le 2) (UInt8.le_trans hx (by decide)) found
  by_cases hkept : ∃ l, u.payload = .slice l ∧ l.data.isSome
  · obtain ⟨l, hl, hsome⟩ := hkept
    have hend : ¬[0, 0] <:+ bytes := by
      rintro ⟨front, rfl⟩
      obtain ⟨b, hb, hne⟩ := hlast
      exact hne (by simpa using hb.symm)
    have hread := writtenAs_of_decode_slice hsets h hl hsome hend
    -- A unit is written in one way only.
    have hsame : escaped 0 found = bytes :=
      Except.ok.inj ((hwritten.encode fun _ _ => hsets).symm.trans (hread.encode fun _ _ => hsets))
    exact ⟨hsame ▸ hlast, hfree⟩
  · obtain ⟨front, zeros, hzeros, hstop⟩ := hcoded.exists_stop fun l hl => by
      cases hl' : l.data with
      | none => rfl
      | some d => exact absurd ⟨l, hl, by rw [hl']; rfl⟩ hkept
    obtain ⟨b, hb, hne⟩ := Bits.last_of_stop hzeros hstop
    exact ⟨⟨b, getLast?_escaped hne hb, hne⟩, hfree⟩

theorem exists_encode (h : decode config {} bytes = .ok u) : ∃ w, u.encode config {} = .ok w := by
  obtain ⟨w, hw, -⟩ := writtenAs_of_decode ParameterSets.wellFormed_empty h
  exact ⟨w, hw.encode fun _ _ => ParameterSets.wellFormed_empty⟩

end Escaping

end NalUnit

end AvcSyntax

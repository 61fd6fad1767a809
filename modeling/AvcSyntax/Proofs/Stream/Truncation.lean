import AvcSyntax.Proofs.Bits.Written
import AvcSyntax.Proofs.Stream.Strictness
import AvcSyntax.Proofs.Truncation

/-!
# Units that are cut short

What is read of a sequence parameter set stays the same if more bits follow. Part of a written unit
stands for part of what the unit stands for, so where it can be read at all it is read as the whole
unit is, with the same parameter set and the same outcome for the stream.
-/
namespace AvcSyntax

section Escapes

/-- The first bytes of what can be unescaped stand for the first bytes of what it stands for. -/
theorem stripped_of_prefix {zeros offset : Nat} {bs cut found : List UInt8}
    (h : stripped zeros offset bs = .ok found) (hcut : cut <+: bs) :
    ∃ front, stripped zeros offset cut = .ok front ∧ front <+: found := by
  induction cut generalizing zeros offset bs found with
  | nil => exact ⟨[], rfl, List.nil_prefix⟩
  | cons b cut ih =>
    obtain ⟨more, rfl⟩ := hcut
    rcases stripped_cons_eq_ok h with ⟨rfl, rfl, hnext, hrest⟩ | ⟨hplain, rest, hrest, rfl⟩
    · obtain ⟨front, hfront, hprefix⟩ := ih hrest (List.prefix_append cut more)
      refine ⟨front, ?_, hprefix⟩
      -- The byte behind the escape may be cut off, and then there is none that is too large.
      rw [stripped_three, hfront]
      intro next hhead
      exact hnext next (by rw [List.append_eq, List.head?_append, hhead, Option.some_or])
    · obtain ⟨front, hfront, hprefix⟩ := ih hrest (List.prefix_append cut more)
      refine ⟨b :: front, ?_, List.cons_prefix_cons.mpr ⟨rfl, hprefix⟩⟩
      rw [stripped_cons hplain, hfront]
      rfl

end Escapes

/-- The reader `r'` finds the bits that `r` finds, and perhaps more behind them. -/
structure Reader.Extends (r r' : Reader) : Prop where
  inBounds : r.InBounds
  inBounds' : r'.InBounds
  rest : r.rest <+: r'.rest
  overrun : r'.overrun = r.overrun

/-- Bits behind those that the action finds do not change what it yields. -/
def Extensible {ε α : Type} (p : EStateM ε Reader α) : Prop :=
  ∀ r r' a s, r.Extends r' → p r = .ok a s → ∃ s', p r' = .ok a s' ∧ s.Extends s'

section Extensible

variable {ε α β : Type} {p : EStateM ε Reader α}

theorem Extensible.pure (a : α) : Extensible (Pure.pure a : EStateM ε Reader α) := by
  rintro r r' _ _ hext ⟨⟩
  exact ⟨r', rfl, hext⟩

theorem Extensible.throw (e : ε) : Extensible (throw e : EStateM ε Reader α) := by
  rintro r r' _ _ _ ⟨⟩

theorem Extensible.bind {f : α → EStateM ε Reader β} (hp : Extensible p)
    (hf : ∀ a, Extensible (f a)) : Extensible (p >>= f) := by
  intro r r' b t hext h
  obtain ⟨a, s, hs, ht⟩ := bind_eq_ok.mp h
  obtain ⟨s', hs', hext'⟩ := hp r r' a s hext hs
  obtain ⟨t', ht', hext''⟩ := hf a s s' b t hext' ht
  exact ⟨t', (bind_of_ok hs').trans ht', hext''⟩

theorem Extensible.report {p : Parse α} (hp : Extensible p) : Extensible (reportFaults p) := by
  intro r r' a s hext h
  obtain ⟨s', hs', hext'⟩ := hp r r' a s hext (reportFaults_eq_ok.mp h)
  exact ⟨s', reportFaults_eq_ok.mpr hs', hext'⟩

theorem Parse.Sequential.extensible {F : Fault → Prop} {p : Parse α} (hp : Sequential F p) :
    Extensible p := by
  intro r r' a s hext h
  obtain ⟨bs, hmoves, htakes⟩ := hp r a s hext.inBounds h
  obtain ⟨more, hmore⟩ := hext.rest
  rw [hmoves.rest, List.append_assoc] at hmore
  obtain ⟨s', hs', hmoves'⟩ := htakes.whole r' _ hext.inBounds' hmore.symm
  refine ⟨s', hs', hmoves.inBounds hext.inBounds, hmoves'.inBounds hext.inBounds', ?_, ?_⟩
  · rw [hmoves'.rest_eq hmore.symm]
    exact List.prefix_append s.rest more
  · rw [hmoves'.overrun, hmoves.overrun, hext.overrun]

theorem NalHeader.extensible_parse : Extensible NalHeader.parse := by
  refine Parse.sequential_flag.extensible.report.bind fun forbidden => ?_
  cases forbidden with
  | true => exact Extensible.throw _
  | false =>
    refine (Parse.sequential_u 2).extensible.report.bind fun refIdc => ?_
    exact (Parse.sequential_u 5).extensible.report.bind fun unitType => .pure _

end Extensible

namespace Parse

/-- All that the end of a payload takes is one bit, which a strict reader wants to be one. -/
theorem exists_trailingBits {strict b : Bool} {tail : Bits} {r : Reader}
    (hrest : r.rest = b :: tail) (hstop : strict = true → b = true) :
    ∃ s, trailingBits strict r = .ok () s ∧ s.overrun = r.overrun := by
  obtain ⟨t, ht, hmoves⟩ := flag_of_cons hrest
  obtain ⟨s, hs, hmoves'⟩ := exists_align (hmoves.inBounds (inBounds_of_flag ht))
  have hcheck : ¬(strict && !b) = true := by
    cases strict with
    | false => simp
    | true => simp [hstop rfl]
  refine ⟨s, ?_, hmoves'.overrun.trans hmoves.overrun⟩
  rw [trailingBits, bind_of_ok ht, if_neg hcheck]
  exact hs

theorem rest_of_trailingBits {strict : Bool} {r s : Reader} (h : trailingBits strict r = .ok () s) :
    ∃ b tail, r.rest = b :: tail ∧ (strict = true → b = true) := by
  obtain ⟨b, t, ht, hcheck⟩ := bind_eq_ok.mp h
  cases hrest : r.rest with
  | nil =>
    rw [flag_of_nil hrest] at ht
    cases ht
  | cons c tail =>
    obtain ⟨t', ht', -⟩ := flag_of_cons hrest
    obtain rfl : c = b := by
      rw [ht'] at ht
      cases ht
      rfl
    refine ⟨c, tail, rfl, ?_⟩
    rintro rfl
    cases c with
    | false => cases hcheck
    | true => rfl

end Parse

namespace NalPayload

/-- The end of a payload is read in front of more data too. A lenient reader may have found nothing
left where these begin, and then takes the first of them for the stop bit. -/
theorem exists_parseEnd {strict : Bool} {r r' s : Reader} (hext : r.Extends r')
    (h : parseEnd strict r = .ok () s) :
    ∃ s', parseEnd strict r' = .ok () s' ∧ s'.overrun = r'.overrun := by
  rw [parseEnd, get_bind] at h ⊢
  by_cases hend : r'.atEnd && !strict
  · rw [if_pos hend]
    exact ⟨r', rfl, rfl⟩
  · have hstop : ∃ b tail, r'.rest = b :: tail ∧ (strict = true → b = true) := by
      by_cases hfront : r.atEnd && !strict
      -- Nothing was left in front of the cut, so any bit behind it will do.
      · obtain ⟨-, hlenient⟩ : r.atEnd = true ∧ strict = false := by simpa using hfront
        rw [hlenient, Bool.not_false, Bool.and_true, ← Reader.rest_eq_nil_iff] at hend
        obtain ⟨b, tail, hrest⟩ := List.exists_cons_of_ne_nil hend
        exact ⟨b, tail, hrest, fun hstrict => absurd (hlenient.symm.trans hstrict) (by decide)⟩
      · rw [if_neg hfront] at h
        obtain ⟨b, tail, hrest, hstop⟩ := Parse.rest_of_trailingBits (reportFaults_eq_ok.mp h)
        obtain ⟨more, hmore⟩ := hext.rest
        rw [hrest] at hmore
        exact ⟨b, tail ++ more, hmore.symm, hstop⟩
    obtain ⟨b, tail, hrest, hstop⟩ := hstop
    obtain ⟨s', hs', hover⟩ := Parse.exists_trailingBits hrest hstop
    rw [if_neg hend]
    exact ⟨s', reportFaults_eq_ok.mpr hs', hover⟩

/-- A sequence parameter set is read in front of more data too. -/
theorem exists_parse_sps {strict : Bool} {sets : ParameterSets} {header : NalHeader}
    (htype : header.unitType = .sps) {p : NalPayload} {r r' s : Reader} (hext : r.Extends r')
    (h : parse strict sets header r = .ok p s) :
    (∃ sps, p = .sps sps) ∧
      ∃ s', parse strict sets header r' = .ok p s' ∧ s'.overrun = r'.overrun := by
  rw [parse, htype] at h ⊢
  obtain ⟨sps, t, ht, hlater⟩ := bind_eq_ok.mp h
  obtain ⟨_, u, hu, hlast⟩ := bind_eq_ok.mp hlater
  cases hlast
  obtain ⟨t', ht', hext'⟩ := Sps.sequential_parse.extensible.report r r' sps t hext ht
  obtain ⟨s', hs', hover⟩ := exists_parseEnd hext' hu
  obtain ⟨_, -, hmoves, -⟩ := Sps.accepts_parse.report r' sps t' hext.inBounds' ht'
  exact ⟨⟨sps, rfl⟩, s', (bind_of_ok ht').trans (bind_of_ok hs'), hover.trans hmoves.overrun⟩

end NalPayload

namespace NalUnit

variable {config : StreamConfig} {sets : ParameterSets} {u : NalUnit} {bytes : List UInt8}

theorem exists_build_of_encodePlain {plain : List UInt8}
    (h : u.encodePlain config sets = .ok plain) :
    u.payload.fits u.header.unitType = true ∧
      ∃ size w, u.build sets (u.buffer config) = .ok size w ∧
        plain = (w.data.extract 0 size).toList := by
  cases hfits : u.payload.fits u.header.unitType with
  | false =>
    rw [encodePlain, hfits] at h
    cases h
  | true =>
    refine ⟨rfl, ?_⟩
    cases hbuild : u.build sets (u.buffer config) with
    | error e w =>
      rw [encodePlain_of_error hfits hbuild] at h
      cases h
    | ok size w =>
      rw [encodePlain_of_ok hfits hbuild] at h
      exact ⟨size, w, rfl, (Except.ok.inj h).symm⟩

/-- A header that was written is well formed if its type is. -/
theorem wellFormed_of_write {header : NalHeader} (htype : header.unitType.WellFormed) {w v : Writer}
    (h : header.code.write w = .ok () v) : header.WellFormed := by
  have hwritable := Code.writable_of_write h
  simp only [NalHeader.code, Code.append_assoc] at hwritable
  have hrefIdc := Code.writable_inRange.mp (Code.writable_append.mp hwritable).1
  exact ⟨by omega, htype⟩

/-- The unit of a sequence parameter set begins with its header, whatever is written behind it. -/
theorem exists_fills_of_build {sps : Sps} (hsps : u.payload = .sps sps)
    (htype : u.header.unitType = .sps) {size : Nat} {w v : Writer}
    (h : u.build sets w = .ok size v) :
    u.header.WellFormed ∧ v.pos % 8 = 0 ∧ size = v.pos / 8 ∧
      ∃ bs, w.Fills (u.header.code.bits ++ bs) v := by
  obtain ⟨_, t, hheader, h⟩ := bind_eq_ok.mp h
  obtain ⟨_, w', hpayload, h⟩ := bind_eq_ok.mp h
  rw [hsps] at hpayload
  obtain ⟨_, s, hcode, htrailing⟩ := bind_eq_ok.mp hpayload
  rw [get_bind] at h
  have hfinish : reportFaults Build.finish w' = .ok size v := by
    cases hover : w'.overrun with
    | false =>
      rw [hover, if_neg Bool.false_ne_true] at h
      exact h
    | true =>
      rw [if_pos hover] at h
      cases h
  have hwf := wellFormed_of_write (by rw [htype]; exact ⟨by decide, rfl⟩)
    (reportFaults_eq_ok.mp hheader)
  obtain ⟨haligned, hsize, bs, hbs⟩ := Build.fills_of_finish (reportFaults_eq_ok.mp hfinish)
  obtain ⟨cs, hcs⟩ := Code.exists_fills_of_write (reportFaults_eq_ok.mp hcode)
  obtain ⟨ds, hds⟩ := Build.fills_of_trailingBits (reportFaults_eq_ok.mp htrailing)
  have hstart := (NalHeader.valid_code hwf).fills_of_write (reportFaults_eq_ok.mp hheader)
  exact ⟨hwf, haligned, hsize, _, hstart.trans (hcs.trans (hds.trans hbs))⟩

theorem exists_header_of_encode {sps : Sps} (hsps : u.payload = .sps sps)
    (h : u.encode config sets = .ok bytes) :
    u.header.WellFormed ∧ u.header.unitType = .sps ∧
      ∃ plain, unescape bytes = .ok plain ∧ u.header.code.bits <+: Bits.ofBytes plain := by
  obtain ⟨plain, hplain, hescape⟩ : ∃ plain, u.encodePlain config sets = .ok plain ∧
      escape plain = .ok bytes := by
    unfold encode at h
    cases hplain : u.encodePlain config sets with
    | error e =>
      rw [hplain] at h
      cases h
    | ok plain =>
      rw [hplain] at h
      exact ⟨plain, rfl, h⟩
  obtain ⟨hfits, size, v, hbuild, rfl⟩ := exists_build_of_encodePlain hplain
  have htype : u.header.unitType = .sps := by
    rw [hsps] at hfits
    simpa [NalPayload.fits] using hfits
  obtain ⟨hwf, haligned, rfl, bs, hfills⟩ := exists_fills_of_build hsps htype hbuild
  refine ⟨hwf, htype, _, unescape_of_escape hescape, ?_⟩
  have hstart : (u.buffer config).pos = 0 := rfl
  have hend := hfills.moves.pos
  rw [hstart, Nat.zero_add] at hend
  rw [Writer.ofBytes_written hfills.moves hstart (hend ▸ haligned) hfills.room]
  exact List.prefix_append _ bs

/-- Behind the header of a sequence parameter set, a unit is read in front of more data too. -/
theorem parse_of_extends {header : NalHeader} (hwf : header.WellFormed)
    (htype : header.unitType = .sps) {r r' s : Reader} (hext : r.Extends r')
    (hheader : header.code.bits <+: r'.rest) (hover : r'.overrun = false)
    (h : parse config sets r = .ok u s) :
    (∃ sps, u.payload = .sps sps) ∧ ∃ s', parse config sets r' = .ok u s' := by
  obtain ⟨t, ht, hrule, hpayload, -⟩ := parse_eq_ok.mp h
  obtain ⟨t', ht', hext'⟩ := NalHeader.extensible_parse r r' u.header t hext ht
  obtain ⟨tail, htail⟩ := hheader
  obtain ⟨v, hv, hmoves⟩ := (NalHeader.reads_code hwf).run r' hext.inBounds' htail.symm
  obtain ⟨hsame, rfl⟩ := EStateM.Result.ok.inj (ht'.symm.trans hv)
  obtain ⟨hsps, s', hs', hkept⟩ :=
    NalPayload.exists_parse_sps (by rw [hsame, htype]) hext' hpayload
  exact ⟨hsps, s', parse_eq_ok.mpr ⟨t', ht', hrule, hs', by rw [hkept, hmoves.overrun, hover]⟩⟩

/-- A cut unit of a sequence parameter set is read as the whole one, if it is read. -/
theorem decode_of_cut {sps : Sps} (hsps : u.payload = .sps sps)
    (h : u.encode config sets = .ok bytes) {cut : List UInt8} (hcut : cut <+: bytes)
    {config' : StreamConfig} {sets' : ParameterSets} {found : NalUnit}
    (hfound : decode config' sets' cut = .ok found) :
    (∃ sps', found.payload = .sps sps') ∧ decode config' sets' bytes = .ok found := by
  obtain ⟨hwf, htype, plain, hplain, hheader⟩ := exists_header_of_encode hsps h
  obtain ⟨front, s, hfront, hparse⟩ := decode_eq_ok.mp hfound
  obtain ⟨more, rfl⟩ : front <+: plain := by
    rw [unescape_eq] at hplain hfront
    obtain ⟨front', hfront', hprefix⟩ := stripped_of_prefix hplain hcut
    rwa [Except.ok.inj (hfront.symm.trans hfront')]
  have hext (trace : Trace) : ({ data := front.toArray, trace } : Reader).Extends
      { data := (front ++ more).toArray, trace } := by
    refine ⟨Reader.inBounds_start _ _, Reader.inBounds_start _ _, ?_, rfl⟩
    rw [Reader.rest_start, Reader.rest_start, Bits.ofBytes_append]
    exact List.prefix_append _ _
  obtain ⟨hshape, s', hs'⟩ := parse_of_extends hwf htype (hext _)
    (by rwa [Reader.rest_start]) rfl hparse
  exact ⟨hshape, decode_eq_ok.mpr ⟨_, s', hplain, hs'⟩⟩

end NalUnit

namespace Stream

/-- Of a sequence parameter set no bit behind it is looked at and none of its own can be missing, so
a part of its unit is read as the whole unit is, or it is not read and the stream stays. -/
theorem sps_cut :
    (∀ (bytes : List UInt8) (trace : Trace) (sps : Sps) (s : Reader),
      Sps.parse { data := bytes.toArray, trace } = .ok sps s →
      (∀ (other : List UInt8) (trace' : Trace),
        (Bits.ofBytes bytes).take s.pos <+: Bits.ofBytes other →
          ∃ s', Sps.parse { data := other.toArray, trace := trace' } = .ok sps s' ∧
            s'.pos = s.pos) ∧
      ∀ (cut : List UInt8) (trace' : Trace), cut <+: bytes → 8 * cut.length < s.pos →
        ∃ e s', Sps.parse { data := cut.toArray, trace := trace' } = .error e s' ∧
          e.kind = .endOfData) ∧
    ∀ (writer reader : Stream) (u : NalUnit) (sps : Sps) (bytes cut : List UInt8),
      u.payload = .sps sps → writer.writeUnit u = .ok bytes → cut <+: bytes →
      (∃ e, readUnit cut reader = .error e reader) ∨
      ∃ header found t, readUnit cut reader = .ok ⟨header, .sps found⟩ t ∧
        readUnit bytes reader = .ok ⟨header, .sps found⟩ t := by
  refine ⟨fun bytes trace sps s h => Sps.sequential_parse.of_bytes h, ?_⟩
  intro writer reader u sps bytes cut hsps hwritten hcut
  cases hread : readUnit cut reader with
  | error e t =>
    rw [readUnit_error hread]
    exact .inl ⟨e, rfl⟩
  | ok found t =>
    obtain ⟨hdecode, later, hkeep, ht⟩ := readUnit_eq_ok.mp hread
    obtain ⟨⟨sps', hsps'⟩, hwhole⟩ := NalUnit.decode_of_cut hsps hwritten hcut hdecode
    obtain ⟨header, payload⟩ := found
    obtain rfl : payload = .sps sps' := hsps'
    exact .inr ⟨header, sps', t, rfl, readUnit_eq_ok.mpr ⟨hwhole, later, hkeep, ht⟩⟩

/-- A lenient stream does not miss the last byte, which holds the stop bit and nothing else. Cut
behind an escape, the unit is not read. -/
theorem sps_cut_escape :
    let sps : Sps := { profileIdc := 0, picWidthInMbsMinus1 := 1, picHeightInMapUnitsMinus1 := 1 }
    let u : NalUnit := ⟨⟨3, .sps⟩, .sps sps⟩
    ({} : Stream).writeUnit u = .ok [103, 0, 0, 3, 0, 249, 40, 128] ∧
      (∃ t, readUnit [103, 0, 0, 3, 0, 249, 40] {} = .ok u t ∧
        readUnit [103, 0, 0, 3, 0, 249, 40, 128] {} = .ok u t) ∧
      (∃ e, readUnit [103, 0, 0, 3] {} = .error e {}) ∧
      ∃ e s, Sps.parse { data := #[0, 0, 0, 249] } = .error e s ∧ e.kind = .endOfData := by
  intro sps u
  have hparse : Sps.parse { data := #[0, 0, 0, 249, 40] } =
      .ok sps { data := #[0, 0, 0, 249, 40], pos := 40 } := by cbv
  have hwritten : ({} : Stream).writeUnit u = .ok [103, 0, 0, 3, 0, 249, 40, 128] := by
    obtain ⟨_, -, -, hsps, -⟩ :=
      Sps.accepts_parse _ sps _ (Reader.inBounds_start [0, 0, 0, 249, 40] none) hparse
    have hcoded : u.Coded {} {} (Bits.ofBytes [103, 0, 0, 0, 249, 40, 128]) :=
      ⟨⟨by decide, by decide, rfl⟩, by decide, _, .sps rfl hsps, by decide⟩
    exact NalUnit.WrittenAs.encode ⟨_, hcoded, by cbv⟩ (by rintro l ⟨⟩)
  obtain ⟨hcut, hunit⟩ := sps_cut
  have hshort : NalUnit.decode {} {} [103, 0, 0, 3] = .error .overrun := by cbv
  have hlenient : NalUnit.decode {} {} [103, 0, 0, 3, 0, 249, 40] = .ok u := by cbv
  have hread := (readUnit_eq_ok (s := {})).mpr ⟨hlenient, _, rfl, rfl⟩
  refine ⟨hwritten, ?_, ?_, ?_⟩
  · rcases hunit {} {} u sps _ [103, 0, 0, 3, 0, 249, 40] rfl hwritten ⟨[128], rfl⟩ with
      ⟨e, he⟩ | ⟨header, found, t, hfound, hwhole⟩
    · rw [hread] at he
      cases he
    · rw [hread] at hfound
      obtain ⟨hsame, rfl⟩ := EStateM.Result.ok.inj hfound
      exact ⟨_, hread, hsame ▸ hwhole⟩
  · have houtcome := hunit {} {} u sps _ [103, 0, 0, 3] rfl hwritten ⟨[0, 249, 40, 128], rfl⟩
    refine houtcome.resolve_right ?_
    rintro ⟨header, found, t, hfound, -⟩
    cases hshort.symm.trans (readUnit_eq_ok.mp hfound).1
  · exact (hcut [0, 0, 0, 249, 40] none sps _ hparse).2 [0, 0, 0, 249] none ⟨[40], rfl⟩ (by decide)

end Stream

end AvcSyntax

import AvcSyntax.Proofs.Fixup.Replay
import AvcSyntax.Proofs.Stream.ParameterSets

/-!
# What the receiver of a patched stream knows

A patcher stores each sequence parameter set that it sends. A receiver who reads nothing but the
sequence parameter sets among the units sent therefore knows the same ones, with one difference:
a patcher may store a high profile without a sample format, and the receiver reads the default
format that is written of it.

The relation `Mirrored` between a patcher and its receiver is kept by each way of sending a
parameter set, hence by calls, and by induction by runs. The set that is kept for the replay is
part of it, for it is sent later than it was read.
-/
namespace AvcSyntax

theorem SampleFormat.wellFormed_getD {format : Option SampleFormat}
    (h : ∀ f ∈ format, f.WellFormed) : (format.getD {}).WellFormed := by
  cases format with
  | none => exact ⟨by decide, fun _ => rfl, by decide, by decide, nofun⟩
  | some f => exact h f rfl

namespace Sps

/-- The parameter set with the sample format that is written of it. -/
def withFormat (s : Sps) : Sps :=
  { s with
    sampleFormat :=
      if isHighProfile s.profileIdc then some (s.sampleFormat.getD {}) else s.sampleFormat }

variable {s : Sps}

theorem code_withFormat (s : Sps) : s.withFormat.code = s.code := by
  have hformat : Code.onlyIf (isHighProfile s.withFormat.profileIdc)
      (s.withFormat.sampleFormat.getD {}).code =
      .onlyIf (isHighProfile s.profileIdc) (s.sampleFormat.getD {}).code :=
    Code.onlyIf_presence SampleFormat.code (fun _ => rfl) _ _
  rw [code, code, hformat]
  rfl

theorem mem_withFormat {f : SampleFormat} (h : f ∈ s.sampleFormat) :
    f ∈ s.withFormat.sampleFormat := by
  rw [Option.mem_def] at h
  simp [withFormat, h]

/-- Another profile with a sample format that suits it. -/
theorem WellFormed.withFormat (h : s.WellFormed) (profile : UInt8) {format : Option SampleFormat}
    (hformat : ∀ f ∈ format, f.WellFormed)
    (hlow : Sps.isHighProfile profile = false → format = none) :
    (Sps.withFormat { s with profileIdc := profile, sampleFormat := format }).WellFormed := by
  cases hprofile : Sps.isHighProfile profile with
  | true =>
    have heq : Sps.withFormat { s with profileIdc := profile, sampleFormat := format } =
        { s with profileIdc := profile, sampleFormat := some (format.getD {}) } := by
      rw [Sps.withFormat, if_pos hprofile]
    rw [heq]
    refine { h with isHighProfile := hprofile, sampleFormat := ?_ }
    intro f hf
    exact Option.some.inj hf ▸ SampleFormat.wellFormed_getD hformat
  | false =>
    have heq : Sps.withFormat { s with profileIdc := profile, sampleFormat := format } =
        { s with profileIdc := profile, sampleFormat := none } := by
      rw [Sps.withFormat, if_neg (by simp [hprofile]), hlow hprofile]
    rw [heq]
    exact { h with isHighProfile := hprofile, sampleFormat := nofun }

theorem WellFormed.toBaseline (h : s.withFormat.WellFormed) : s.toBaseline.withFormat.WellFormed :=
  h.withFormat 66 nofun fun _ => rfl

theorem WellFormed.toHigh (h : s.withFormat.WellFormed) : s.toHigh.withFormat.WellFormed := by
  refine h.withFormat 100 ?_ nofun
  intro f hf
  obtain rfl := Option.some.inj hf
  exact SampleFormat.wellFormed_getD fun f hf => h.sampleFormat f (mem_withFormat hf)

end Sps

namespace SpsFixup

variable {fixup : SpsFixup}

theorem wellFormed_lowLatency {stated : Option BitstreamRestriction}
    (h : ∀ b ∈ stated, b.WellFormed) : (BitstreamRestriction.lowLatency stated).WellFormed := by
  cases stated with
  | none => exact ⟨by decide, by decide, by decide, by decide, by decide, by decide⟩
  | some b =>
    exact { h b rfl with
      maxBytesPerPicDenom := (by decide : (2 : UInt8).toNat ≤ 16)
      maxBitsPerMbDenom := (by decide : (1 : UInt8).toNat ≤ 16)
      maxDecFrameBuffering := (by decide : (1 : UInt32).toNat ≤ 16) }

theorem wellFormed_stripVui (fixup : SpsFixup) {v : VuiParameters} (h : v.WellFormed) :
    (fixup.stripVui v).WellFormed := by
  refine { h with chromaLocation := ?_ }
  intro l hl
  cases hstrip : fixup.stripChromaLocation with
  | true => simp [stripVui, hstrip] at hl
  | false => exact h.chromaLocation l (by simpa [stripVui, hstrip] using hl)

theorem wellFormed_applyVui (fixup : SpsFixup) {vui : Option VuiParameters}
    (h : ∀ v ∈ vui, v.WellFormed) : ∀ v ∈ fixup.applyVui vui, v.WellFormed := by
  have hstripped : ∀ v ∈ vui.map fixup.stripVui, v.WellFormed := by
    intro v hv
    obtain ⟨found, hfound, rfl⟩ := Option.mem_map.mp hv
    exact fixup.wellFormed_stripVui (h found hfound)
  intro v hv
  unfold applyVui at hv
  cases hchange : fixup.restriction with
  | keep =>
    rw [hchange] at hv
    exact hstripped v hv
  | remove =>
    rw [hchange] at hv
    obtain ⟨found, hfound, rfl⟩ := Option.mem_map.mp hv
    exact { hstripped found hfound with restriction := nofun }
  | lowLatency =>
    rw [hchange] at hv
    obtain rfl := Option.some.inj hv
    have hbase : ((vui.map fixup.stripVui).getD {}).WellFormed := by
      cases hcases : vui.map fixup.stripVui with
      | none => exact ⟨nofun, nofun, nofun, nofun, fun _ => rfl, nofun⟩
      | some found => exact hstripped found hcases
    refine { hbase with restriction := ?_ }
    intro b hb
    exact Option.some.inj hb ▸ wellFormed_lowLatency hbase.restriction

/-- A changed parameter set can be written and read. -/
theorem wellFormed_apply (hframes : ∀ n ∈ fixup.maxNumRefFrames, n.toNat ≤ 16) {s : Sps}
    (h : s.WellFormed) : (fixup.apply s).withFormat.WellFormed := by
  have hmax : (fixup.maxNumRefFrames.getD s.maxNumRefFrames).toNat ≤ 16 := by
    cases hcases : fixup.maxNumRefFrames with
    | none => exact h.maxNumRefFrames
    | some n => exact hframes n hcases
  have hrest : ({ s with
      levelIdc := fixup.levelIdc.getD s.levelIdc
      maxNumRefFrames := fixup.maxNumRefFrames.getD s.maxNumRefFrames
      vui := fixup.applyVui s.vui } : Sps).WellFormed :=
    { h with maxNumRefFrames := hmax, vui := fixup.wellFormed_applyVui h.vui }
  refine hrest.withFormat _ ?_ ?_
  · intro f hf
    cases hprofile : fixup.profileIdc with
    | none => exact h.sampleFormat f (by simpa [hprofile] using hf)
    | some profile =>
      have hmem : Sps.isHighProfile profile = true ∧ s.sampleFormat = some f := by
        simpa [hprofile] using hf
      exact h.sampleFormat f hmem.2
  · intro hlow
    cases hprofile : fixup.profileIdc with
    | none =>
      rw [hprofile, Option.getD_none, h.isHighProfile] at hlow
      exact Option.not_isSome_iff_eq_none.mp (by simp [hlow])
    | some profile =>
      rw [hprofile, Option.getD_some] at hlow
      simp [hlow]

end SpsFixup

/-- The header of a unit that a strict reader accepts is in front of its bytes. -/
theorem NalUnit.WrittenAs.peek {u : NalUnit} {sets : ParameterSets} {w : List UInt8}
    (h : u.WrittenAs {} sets w) : NalHeader.peek w = .ok u.header := by
  obtain ⟨plain, ⟨hwf, hrule, cs, -, hbits⟩, hw⟩ := h
  obtain rfl := Except.ok.inj ((escape_eq plain).symm.trans hw)
  have hrest : ∃ tail, Bits.ofBytes (escaped 0 plain) = u.header.code.bits ++ tail := by
    cases plain with
    | nil =>
      have hlength := congrArg List.length hbits
      rw [List.length_append, NalHeader.length_bits_code hwf] at hlength
      simp at hlength
      omega
    | cons b plain =>
      rw [Bits.ofBytes_cons] at hbits
      have hfirst : Bits.ofByte b = u.header.code.bits :=
        (List.append_inj hbits (by rw [NalHeader.length_bits_code hwf]; rfl)).1
      exact ⟨_, by rw [escaped, if_neg (by simp), Bits.ofBytes_cons, hfirst]⟩
  obtain ⟨tail, htail⟩ := hrest
  obtain ⟨s, hs, -⟩ := (NalHeader.reads_code hwf).run { data := (escaped 0 plain).toArray }
    (Reader.inBounds_start _ none) ((Reader.rest_start _ none).trans htail)
  rw [NalHeader.peek, hs]
  simp only [NalHeader.validate_eq_ok.mpr (hrule rfl)]
  rfl

namespace SpsUnit

structure Readable (v : SpsUnit) : Prop where
  header : v.header.WellFormed
  rule : v.header.brokenRule? = none
  type : v.header.unitType = .sps
  sps : v.sps.withFormat.WellFormed

variable {n : List UInt8} {v : SpsUnit}

/-- The bytes are the same everywhere, and so is what they are read as. -/
theorem Readable.exists_encode (hv : v.Readable) :
    ∃ w, ∀ config sets, v.toNalUnit.encode config sets = .ok w ∧
      NalUnit.WrittenAs ⟨v.header, .sps v.sps.withFormat⟩ config sets w := by
  obtain ⟨w, hw⟩ := NalUnit.exists_writtenAs_sps hv.header hv.rule hv.type hv.sps
  refine ⟨w, fun config sets => ⟨?_, hw config sets⟩⟩
  rw [toNalUnit, ← NalUnit.encode_sps_congr v.sps.code_withFormat]
  exact (hw config sets).encode (by simp)

/-- A changed parameter set behind the header it was read with. -/
theorem readable_of_decode {config : StreamConfig}
    (h : NalUnit.decode config {} n = .ok v.toNalUnit) {sps : Sps}
    (hsps : sps.withFormat.WellFormed) : Readable { v with sps } := by
  obtain ⟨_, ⟨_, hcoded, -⟩, -⟩ := NalUnit.writtenAs_of_decode ParameterSets.wellFormed_empty h
  obtain ⟨hwf, -, cs, hpayload, -⟩ := hcoded
  cases hpayload with
  | sps htype _ => exact ⟨hwf, NalHeader.brokenRule?_of_parameterSet (.inl htype), htype, hsps⟩

theorem exists_sentAs (change : Sps → Sps) (h : NalUnit.decode {} {} n = .ok v.toNalUnit)
    (hsps : (change v.sps).withFormat.WellFormed) : ∃ w, SentAs {} change n w := by
  obtain ⟨w, hw⟩ := (readable_of_decode h hsps).exists_encode
  exact ⟨w, v, h, (hw {} {}).1⟩

end SpsUnit

namespace Stream

/-- Whether a receiver knows the sequence parameter sets of a stream as they are written. -/
def Mirrors (d s : Stream) : Prop :=
  ∀ id, d.parameterSets.sps id = (s.parameterSets.sps id).map Sps.withFormat

theorem readUnits_append {first later : List (List UInt8)} {s t v : Stream}
    {us vs : List NalUnit} (h : readUnits first s = .ok us t) (k : readUnits later t = .ok vs v) :
    readUnits (first ++ later) s = .ok (us ++ vs) v := by
  induction first generalizing s us with
  | nil =>
    cases h
    exact k
  | cons n first ih =>
    obtain ⟨u, r, hu, h⟩ := bind_eq_ok.mp h
    obtain ⟨rest, r', hrest, h⟩ := bind_eq_ok.mp h
    cases h
    rw [List.cons_append, readUnits, bind_of_ok hu, bind_of_ok (ih hrest)]
    rfl

/-- Reading a parameter set concerns the one with its number only. -/
theorem sps_of_readUnit {n : List UInt8} {v : SpsUnit} {s t : Stream}
    (h : readUnit n s = .ok v.toNalUnit t) {id : UInt8} (hid : id ≠ v.sps.id) :
    t.parameterSets.sps id = s.parameterSets.sps id := by
  obtain ⟨-, later, hkeep, rfl⟩ := readUnit_eq_ok.mp h
  obtain ⟨-, rfl⟩ := ParameterSets.insertSps_eq_ok.mp hkeep
  exact if_neg hid

/-- A receiver that knows all other parameter sets knows them all once it has read the one that
took its place. -/
theorem mirrors_of_replaceSps {v : SpsUnit} (hv : v.Readable) {s t d : Stream} {w : List UInt8}
    (hconfig : d.config = {})
    (hd : ∀ id, id ≠ v.sps.id →
      d.parameterSets.sps id = (s.parameterSets.sps id).map Sps.withFormat)
    (h : replaceSps v s = .ok w t) :
    isSps w = true ∧ ∃ u d', readUnit w d = .ok u d' ∧ d'.config = {} ∧ d'.Mirrors t := by
  obtain ⟨hstore, hencode⟩ := replaceSps_eq_ok.mp h
  obtain ⟨later, hinsert, rfl⟩ := storeSps_eq_ok.mp hstore
  obtain ⟨hid, rfl⟩ := ParameterSets.insertSps_eq_ok.mp hinsert
  obtain ⟨found, hfound⟩ := hv.exists_encode
  obtain rfl : found = w := Except.ok.inj ((hfound s.config {}).1.symm.trans hencode)
  constructor
  · rw [isSps, hasType_of_peek (hfound {} {}).2.peek, hv.type]
    rfl
  · have hkeep : d.parameterSets.insertSps v.sps.withFormat = .ok _ :=
      ParameterSets.insertSps_eq_ok.mpr ⟨hid, rfl⟩
    refine ⟨_, _, readUnit_eq_ok.mpr ⟨(hfound _ _).2.decode, _, hkeep, rfl⟩, hconfig, ?_⟩
    intro id
    by_cases hsame : id = v.sps.id
    · have hsame' : id = v.sps.withFormat.id := hsame
      simp only [if_pos hsame, if_pos hsame', Option.map_some]
    · have hother : id ≠ v.sps.withFormat.id := hsame
      simp only [if_neg hsame, if_neg hother]
      exact hd id hsame

end Stream

namespace SpsPatcher

variable {fixup : SpsFixup} {enabled : Bool} {r t : SpsPatcher} {d : Stream} {n : List UInt8}

structure Mirrored (fixup : SpsFixup) (enabled : Bool) (r : SpsPatcher) (d : Stream) : Prop where
  setUp : SetUp fixup enabled r
  config : d.config = {}
  mirrors : d.Mirrors r.stream
  kept : ∀ high ∈ kept r.replay, high.Readable

/-- The receiver can read the parameter sets among some units, and then mirrors the patcher. -/
def Received (fixup : SpsFixup) (enabled : Bool) (sent : List (List UInt8)) (d : Stream)
    (t : SpsPatcher) : Prop :=
  ∃ read later, Stream.readUnits (sent.filter isSps) d = .ok read later ∧
    Mirrored fixup enabled t later

theorem Received.none (h : Mirrored fixup enabled t d) : Received fixup enabled [] d t :=
  ⟨[], d, rfl, h⟩

/-- A unit that is passed on is none of those that the receiver reads. -/
theorem Received.passed (hn : isSps n = false) (h : Mirrored fixup enabled t d) :
    Received fixup enabled [n] d t := by
  refine ⟨[], d, ?_, h⟩
  rw [List.filter_cons_of_neg (by simp [hn])]
  rfl

theorem Received.replaced {v : SpsUnit} (hv : v.Readable) {s s' : Stream} {w : List UInt8}
    (hconfig : d.config = {})
    (hd : ∀ id, id ≠ v.sps.id →
      d.parameterSets.sps id = (s.parameterSets.sps id).map Sps.withFormat)
    (h : Stream.replaceSps v s = .ok w s') (ht : SetUp fixup enabled t) (hstream : t.stream = s')
    (hkept : ∀ high ∈ SpsPatcher.kept t.replay, high.Readable) :
    Received fixup enabled [w] d t := by
  obtain ⟨hw, u, later, hread, hlater, hmirrors⟩ := Stream.mirrors_of_replaceSps hv hconfig hd h
  refine ⟨[u], later, ?_, ht, hlater, hstream ▸ hmirrors, hkept⟩
  rw [List.filter_cons_of_pos hw, List.filter_nil, Stream.readUnits, bind_of_ok hread]
  rfl

theorem received_of_emitReplay {front : List (List UInt8)} (hr : Mirrored fixup enabled r d)
    (h : emitReplay r = .ok front t) : Received fixup enabled front d t := by
  by_cases harmed : ∃ high, r.replay = .armed high
  · obtain ⟨high, hhigh⟩ := harmed
    have ht := keeps_emitReplay r hr.setUp
    rw [h] at ht
    have hreadable : high.Readable := hr.kept high (by rw [hhigh]; rfl)
    rw [emitReplay_armed hhigh] at h
    cases hsent : Stream.replaceSps high r.stream with
    | ok w s =>
      rw [hsent] at h
      cases h
      exact .replaced hreadable hr.config (fun id _ => hr.mirrors id) hsent ht rfl
        (by simp [kept])
    | error e s =>
      rw [hsent] at h
      cases h
  · rw [emitReplay_other fun high hhigh => harmed ⟨high, hhigh⟩] at h
    cases h
    exact .none hr

/-- While parameter sets go out as Baseline, the one to be replayed is kept with each of them. -/
theorem received_of_sendAsBaseline (hframes : ∀ n ∈ fixup.maxNumRefFrames, n.toNat ≤ 16)
    {own : List UInt8} (hr : Mirrored fixup enabled r d) (hn : isSps n = true)
    (h : sendAsBaseline n r = .ok own t) : Received fixup enabled [own] d t := by
  have ht := keeps_sendAsBaseline n r hr.setUp
  rw [h] at ht
  cases hv : readSps? n with
  | none =>
    obtain ⟨e, s, herror⟩ := sendAsBaseline_unread hr.setUp hn hv
    rw [herror] at h
    cases h
  | some v =>
    have hdecode := (readSps?_eq_some hn).mp hv
    have hsps := SpsFixup.wellFormed_apply hframes (NalUnit.decode_sps hdecode {}).1
    obtain ⟨s, hread, hsend⟩ := sendAsBaseline_read hr.setUp hn hv
    rw [hsend] at h
    obtain ⟨s', hsent, rfl⟩ := onStream_eq_ok.mp h
    refine .replaced (SpsUnit.readable_of_decode hdecode hsps.toBaseline) hr.config ?_ hsent ht
      rfl ?_
    · intro id hid
      rw [Stream.sps_of_readUnit hread hid]
      exact hr.mirrors id
    · intro high hhigh
      obtain rfl := Option.some.inj hhigh
      exact SpsUnit.readable_of_decode hdecode hsps.toHigh

theorem received_of_patchSps (hframes : ∀ n ∈ fixup.maxNumRefFrames, n.toNat ≤ 16)
    {own : List UInt8} (hr : Mirrored fixup enabled r d)
    (h : onStream (Stream.patchSps fixup n) r = .ok own t) : Received fixup enabled [own] d t := by
  have ht := keeps_onStream (Stream.keeps_config_patchSps _ fixup n) r hr.setUp
  rw [h] at ht
  obtain ⟨s', hpatch, rfl⟩ := onStream_eq_ok.mp h
  obtain ⟨u, s, hread, hpatch⟩ := bind_eq_ok.mp hpatch
  obtain ⟨v, _, hexpect, hsent⟩ := bind_eq_ok.mp hpatch
  obtain ⟨hu, rfl⟩ := liftM_eq_ok.mp hexpect
  obtain rfl := expectSps_eq_ok.mp hu
  have hdecode := (Stream.decode_of_readUnit hread).1
  rw [hr.setUp.config] at hdecode
  have hsps := SpsFixup.wellFormed_apply hframes (NalUnit.decode_sps hdecode {}).1
  refine .replaced (SpsUnit.readable_of_decode hdecode hsps) hr.config ?_ hsent ht rfl hr.kept
  intro id hid
  rw [Stream.sps_of_readUnit hread hid]
  exact hr.mirrors id

theorem kept_noted (replay : Replay) : kept (noted replay) = kept replay := by
  cases replay with
  | waiting high => cases high <;> rfl
  | armed high => rfl
  | done => rfl

theorem received_of_sendOwn (hframes : ∀ n ∈ fixup.maxNumRefFrames, n.toNat ≤ 16)
    {own : List UInt8} (hr : Mirrored fixup enabled r d) (h : sendOwn n r = .ok own t) :
    Received fixup enabled [own] d t := by
  rcases sendOwn_cases n r with ⟨hn, hsend⟩ | ⟨hn, -, hsend⟩ | ⟨hn, -, hsend | ⟨e, -, hsend⟩⟩
  · rw [hsend, sendSps_eq, hr.setUp.fixup] at h
    by_cases hforced : (r.replayEnabled && isWaiting r.replay) = true
    · rw [if_pos hforced] at h
      exact received_of_sendAsBaseline hframes hr hn h
    · rw [if_neg hforced] at h
      exact received_of_patchSps hframes hr h
  · rw [hsend] at h
    cases h
    refine .passed hn ⟨⟨hr.setUp.fixup, hr.setUp.enabled, hr.setUp.config⟩, hr.config,
      hr.mirrors, ?_⟩
    rw [kept_noted]
    exact hr.kept
  · rw [hsend] at h
    cases h
    exact .passed hn hr
  · rw [hsend] at h
    cases h

theorem Received.append {first later : List (List UInt8)}
    (h : Received fixup enabled first d r)
    (hlater : ∀ d, Mirrored fixup enabled r d → Received fixup enabled later d t) :
    Received fixup enabled (first ++ later) d t := by
  obtain ⟨us, s, hus, hmirrored⟩ := h
  obtain ⟨vs, v, hvs, hlast⟩ := hlater s hmirrored
  refine ⟨us ++ vs, v, ?_, hlast⟩
  rw [List.filter_append]
  exact Stream.readUnits_append hus hvs

/-- What one call sends keeps the receiver up to date. -/
theorem received_of_process (hframes : ∀ n ∈ fixup.maxNumRefFrames, n.toNat ≤ 16)
    {out : List (List UInt8)} (hr : Mirrored fixup enabled r d) (h : process n r = .ok out t) :
    Received fixup enabled out d t := by
  rw [process_eq] at h
  obtain ⟨front, v, hemit, h⟩ := bind_eq_ok.mp h
  obtain ⟨own, u, hown, h⟩ := bind_eq_ok.mp h
  cases h
  exact (received_of_emitReplay hr hemit).append fun d hv => received_of_sendOwn hframes hv hown

theorem received_of_processAll (hframes : ∀ n ∈ fixup.maxNumRefFrames, n.toNat ≤ 16)
    {units : List (List UInt8)} {outputs : List (List (List UInt8))}
    (hr : Mirrored fixup enabled r d) (h : processAll units r = .ok outputs t) :
    Received fixup enabled outputs.flatten d t := by
  induction units generalizing r d outputs with
  | nil =>
    cases h
    exact .none hr
  | cons n units ih =>
    obtain ⟨out, v, later, hout, hlater, rfl⟩ := processAll_cons_eq_ok.mp h
    rw [List.flatten_cons]
    exact (received_of_process hframes hr hout).append fun d hv => ih hv hlater

/-- In a run in which no call fails, a new stream can read all sequence parameter sets that are
sent. It then knows the same ones as the patcher, each with the sample format that is written of
it. -/
theorem readUnits_of_processAll (fixup : SpsFixup)
    (hframes : ∀ n ∈ fixup.maxNumRefFrames, n.toNat ≤ 16) (enabled : Bool)
    (units : List (List UInt8)) {outputs : List (List (List UInt8))}
    (h : processAll units { fixup, replayEnabled := enabled } = .ok outputs t) :
    ∃ read d, Stream.readUnits (outputs.flatten.filter isSps) {} = .ok read d ∧
      ∀ id, d.parameterSets.sps id = (t.stream.parameterSets.sps id).map Sps.withFormat := by
  have hstart : Mirrored fixup enabled { fixup, replayEnabled := enabled } {} :=
    ⟨setUp_start fixup enabled, rfl, fun _ => rfl, by simp [kept]⟩
  obtain ⟨read, d, hread, hmirrored⟩ := received_of_processAll hframes hstart h
  exact ⟨read, d, hread, hmirrored.mirrors⟩

/-- A Baseline parameter set that is made High without a sample format, in front of its replay
and behind it. -/
theorem readUnits_of_processAll_high :
    let fixup : SpsFixup := { maxNumRefFrames := some 1, profileIdc := some 100 }
    (∀ n ∈ fixup.maxNumRefFrames, n.toNat ≤ 16) ∧
      ∃ outputs t, processAll
          [[103, 66, 0, 10, 251, 136], [104, 206, 56, 128], [103, 66, 0, 10, 251, 136]]
          { fixup, replayEnabled := true } = .ok outputs t ∧
        ∃ read d, Stream.readUnits (outputs.flatten.filter isSps) {} = .ok read d ∧
          ∀ id, d.parameterSets.sps id = (t.stream.parameterSets.sps id).map Sps.withFormat := by
  intro fixup
  have hframes : ∀ n ∈ fixup.maxNumRefFrames, n.toNat ≤ 16 := by
    intro n hn
    obtain rfl := Option.some.inj hn
    decide
  let v : SpsUnit := ⟨⟨3, .sps⟩, { profileIdc := 66, levelIdc := 10 }⟩
  have hdecode : NalUnit.decode {} {} [103, 66, 0, 10, 251, 136] = .ok v.toNalUnit := by cbv
  have hsps : isSps [103, 66, 0, 10, 251, 136] = true := rfl
  have hpps : isPps [104, 206, 56, 128] = true := rfl
  have hwf := SpsFixup.wellFormed_apply hframes (NalUnit.decode_sps hdecode {}).1
  have hkept : nextReplay fixup true [103, 66, 0, 10, 251, 136] (.waiting none) =
      .waiting (some (highOf fixup v)) := by
    rw [nextReplay_of_sps hsps, (readSps?_eq_some hsps).mpr hdecode]
    rfl
  have hfirst : Sendable fixup true [103, 66, 0, 10, 251, 136] (.waiting none) := by
    obtain ⟨w, hw⟩ := SpsUnit.exists_sentAs (fun s => (fixup.apply s).toBaseline) hdecode
      hwf.toBaseline
    exact ⟨⟨_, rfl⟩, by simp, w, .forced hsps rfl hw⟩
  have hlast : Sendable fixup true [103, 66, 0, 10, 251, 136] (.armed (highOf fixup v)) := by
    obtain ⟨w, hw⟩ := SpsUnit.exists_sentAs fixup.apply hdecode hwf
    refine ⟨⟨_, rfl⟩, ?_, w, .patched hsps rfl ?_⟩
    · intro high hhigh
      obtain rfl := Replay.armed.inj hhigh
      obtain ⟨w, hw⟩ := (SpsUnit.readable_of_decode hdecode hwf.toHigh).exists_encode
      exact ⟨hwf.id, w, (hw {} {}).1⟩
    · intro s hs
      exact (Stream.exists_patchSps_iff fixup).mpr (hs ▸ hw)
  have hall : AllSendable fixup true
      [[103, 66, 0, 10, 251, 136], [104, 206, 56, 128], [103, 66, 0, 10, 251, 136]]
      (.waiting none) := by
    rw [AllSendable, AllSendable, hkept, nextReplay_of_pps (not_isSps_of_isPps hpps) hpps]
    exact ⟨hfirst, ⟨⟨_, rfl⟩, by simp, _, .passed (not_isSps_of_isPps hpps)⟩, hlast, trivial⟩
  obtain ⟨outputs, t, hrun⟩ := (exists_processAll_iff (setUp_start fixup true)).mpr hall
  exact ⟨hframes, outputs, t, hrun, readUnits_of_processAll fixup hframes true _ hrun⟩

section Successes

/-- Whether a unit has a header that keeps all rules, and can be read if it is a sequence parameter
set. -/
structure Presentable (n : List UInt8) : Prop where
  header : ∃ h, NalHeader.peek n = .ok h
  read : isSps n = true → ∃ v, readSps? n = some v

/-- What was read can be written, as Baseline and in the profile that it has. -/
theorem sendable_of_presentable (hframes : ∀ n ∈ fixup.maxNumRefFrames, n.toNat ≤ 16)
    {replay : Replay} (hkept : ∀ high ∈ kept replay, high.Readable) (h : Presentable n) :
    Sendable fixup enabled n replay := by
  refine ⟨h.header, ?_, ?_⟩
  · intro high hhigh
    have hreadable : high.Readable := hkept high (by rw [hhigh]; rfl)
    obtain ⟨w, hw⟩ := hreadable.exists_encode
    exact ⟨hreadable.sps.id, w, (hw {} {}).1⟩
  · cases hn : isSps n with
    | false => exact ⟨n, .passed hn⟩
    | true =>
      obtain ⟨v, hv⟩ := h.read hn
      have hdecode := (readSps?_eq_some hn).mp hv
      have hsps := SpsFixup.wellFormed_apply hframes (NalUnit.decode_sps hdecode {}).1
      cases hforced : enabled && isWaiting replay with
      | true =>
        obtain ⟨w, hw⟩ := SpsUnit.exists_sentAs (fun s => (fixup.apply s).toBaseline) hdecode
          hsps.toBaseline
        exact ⟨w, .forced hn rfl hw⟩
      | false =>
        obtain ⟨w, hw⟩ := SpsUnit.exists_sentAs fixup.apply hdecode hsps
        refine ⟨w, .patched hn rfl ?_⟩
        intro s hs
        exact (Stream.exists_patchSps_iff fixup).mpr (hs ▸ hw)

/-- So can what is kept of it. -/
theorem kept_nextReplay (hframes : ∀ n ∈ fixup.maxNumRefFrames, n.toNat ≤ 16) {replay : Replay}
    (hkept : ∀ high ∈ kept replay, high.Readable) :
    ∀ high ∈ kept (nextReplay fixup enabled n replay), high.Readable := by
  cases replay with
  | waiting high =>
    cases hn : isSps n with
    | true =>
      rw [nextReplay_of_sps hn]
      cases hv : readSps? n with
      | none => simpa [kept] using hkept
      | some v =>
        have hdecode := (readSps?_eq_some hn).mp hv
        have hsps := SpsFixup.wellFormed_apply hframes (NalUnit.decode_sps hdecode {}).1
        have hhigh : (highOf fixup v).Readable := SpsUnit.readable_of_decode hdecode hsps.toHigh
        cases enabled with
        | true => simpa [kept] using hhigh
        | false => simpa [kept] using hkept
    | false =>
      cases hpps : isPps n with
      | true =>
        rw [nextReplay_of_pps hn hpps]
        cases high <;> exact hkept
      | false =>
        rw [nextReplay_of_other hn hpps]
        exact hkept
  | armed high => simp [nextReplay, kept]
  | done => simp [nextReplay, kept]

theorem allSendable_of_presentable (hframes : ∀ n ∈ fixup.maxNumRefFrames, n.toNat ≤ 16)
    {units : List (List UInt8)} {replay : Replay} (hkept : ∀ high ∈ kept replay, high.Readable)
    (h : ∀ n ∈ units, Presentable n) : AllSendable fixup enabled units replay := by
  induction units generalizing replay with
  | nil => trivial
  | cons n units ih =>
    obtain ⟨hn, hunits⟩ := List.forall_mem_cons.mp h
    exact ⟨sendable_of_presentable hframes hkept hn, ih (kept_nextReplay hframes hkept) hunits⟩

/-- A run fails at nothing but a unit that cannot be read. -/
theorem exists_processAll_of_presentable (hframes : ∀ n ∈ fixup.maxNumRefFrames, n.toNat ≤ 16)
    (enabled : Bool) {units : List (List UInt8)} (h : ∀ n ∈ units, Presentable n) :
    ∃ outputs t, processAll units { fixup, replayEnabled := enabled } = .ok outputs t := by
  rw [exists_processAll_iff (setUp_start fixup enabled)]
  exact allSendable_of_presentable hframes (by simp [kept]) h

end Successes

end SpsPatcher

end AvcSyntax

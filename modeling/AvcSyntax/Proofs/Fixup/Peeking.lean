import AvcSyntax.Proofs.Fixup.SpsPatcher
import AvcSyntax.Proofs.Nal.IllegalEscapes
import AvcSyntax.Proofs.Stream.Strictness

/-!
# Peeking at the header

The header of a unit can be looked at without reading the unit. The bytes are then those with the
escapes, while a stream reads the unit without them. Both have the same first byte, which is all of
the header, so that a stream that minds the rules on headers refuses exactly the headers that a peek
refuses. Nothing behind the header fails in a way that could be taken for a broken header.

A patcher takes a unit for a sequence parameter set on the strength of a peek. When it reads the
unit it finds one, or none at all, but never a unit of another type.
-/
namespace AvcSyntax

/-- The upper bits and the lower bits of a number. -/
theorem Bits.ofNat_add (m n value : Nat) :
    ofNat (m + n) value = ofNat m (value / 2 ^ n) ++ ofNat n value := by
  induction m with
  | zero => rw [Nat.zero_add, ofNat_zero, List.nil_append]
  | succ m ih =>
    rw [Nat.add_right_comm, ofNat_succ, ofNat_succ, ih, Nat.testBit_div_two_pow]
    rfl

namespace NalHeader

variable {h : NalHeader}

/-- The header that the first byte of a unit stands for. -/
def ofByte (b : UInt8) : Except NalError NalHeader :=
  if b.toNat < 128 then .ok { refIdc := (b.toNat / 32).toUInt8, unitType := .ofCode b }
  else .error .forbiddenZeroBit

/-- The forbidden bit, two bits and five bits. -/
theorem bits_ofByte (b : UInt8) :
    Bits.ofByte b = Bits.ofNat 1 (b.toNat / 128) ++
      (Bits.ofNat 2 (b.toNat / 32) ++ Bits.ofNat 5 b.toNat) :=
  (Bits.ofNat_add 1 7 b.toNat).trans (congrArg _ (Bits.ofNat_add 2 5 b.toNat))

theorem wellFormed_ofByte {b : UInt8} (hb : ofByte b = .ok h) :
    h.WellFormed ∧ Bits.ofByte b = h.code.bits := by
  rw [ofByte] at hb
  split at hb
  · rename_i hlow
    cases hb
    have hrefIdc : (b.toNat / 32).toUInt8.toNat = b.toNat / 32 := by
      rw [Nat.toUInt8, UInt8.toNat_ofNat']
      omega
    have htype : UnitType.ofCode b = .ofCode (b.toNat % 32).toUInt8 := by
      apply UnitType.ofCode_congr
      rw [Nat.toUInt8, UInt8.toNat_ofNat']
      omega
    have hcode : b.toNat % 32 < 2 ^ 5 := Nat.mod_lt _ (by decide)
    have hwf : (⟨(b.toNat / 32).toUInt8, .ofCode b⟩ : NalHeader).WellFormed :=
      ⟨by rw [hrefIdc]; omega, htype ▸ UnitType.wellFormed_ofCode hcode⟩
    have hlow5 : Bits.ofNat 5 b.toNat = Bits.ofNat 5 (b.toNat % 32) :=
      Bits.ofNat_congr fun i hi => by
        rw [show 32 = 2 ^ 5 from rfl, Nat.testBit_mod_two_pow, decide_eq_true hi, Bool.true_and]
    have hzero : b.toNat / 128 = 0 := Nat.div_eq_of_lt hlow
    refine ⟨hwf, ?_⟩
    rw [bits_code hwf, bits_ofByte, hrefIdc, htype, UnitType.toNat_code_ofCode hcode, hlow5, hzero]
    rfl
  · cases hb

/-- Nothing behind the first byte is looked at. -/
theorem parse_cons (b : UInt8) (bytes : List UInt8) (trace : Trace) :
    ∃ s, parse { data := (b :: bytes).toArray, trace } =
      (liftM (ofByte b) : Decode NalHeader) s := by
  have hbounds := Reader.inBounds_start (b :: bytes) trace
  have hrest := Reader.rest_start (b :: bytes) trace
  rw [Bits.ofBytes_cons] at hrest
  cases hb : ofByte b with
  | ok h =>
    obtain ⟨hwf, hbits⟩ := wellFormed_ofByte hb
    rw [hbits] at hrest
    obtain ⟨s, hs, -⟩ := (reads_code hwf).run _ hbounds hrest
    exact ⟨s, hs⟩
  | error e =>
    rw [ofByte] at hb
    split at hb
    · cases hb
    · rename_i hhigh
      cases hb
      have hone : b.toNat / 128 = 1 := by
        have hlt := b.toNat_lt
        omega
      rw [bits_ofByte, hone, List.append_assoc] at hrest
      obtain ⟨s, hs, -⟩ := (Parse.reads_flag true).report.run _ hbounds hrest
      exact ⟨s, bind_of_ok hs⟩

/-- A peek checks what the first byte says. -/
theorem peek_cons (b : UInt8) (bytes : List UInt8) :
    peek (b :: bytes) = (ofByte b).bind fun h => h.validate.map fun _ => h := by
  obtain ⟨s, hs⟩ := parse_cons b bytes none
  rw [peek, hs]
  cases ofByte b <;> rfl

theorem peek_nil : peek [] = .error .overrun := rfl

end NalHeader

/-- Whether an error says that the header of a unit is not in order. Of an empty unit that is what
is said when data run out. -/
def NalError.RefusesHeader (unit : List UInt8) : NalError → Prop
  | .forbiddenZeroBit | .invalidHeader _ => True
  | .overrun => unit = []
  | _ => False

/-- A peek fails in no other way. -/
theorem NalHeader.refusesHeader_of_peek {unit : List UInt8} {e : NalError}
    (h : peek unit = .error e) : e.RefusesHeader unit := by
  cases unit with
  | nil =>
    cases h
    rfl
  | cons b bytes =>
    rw [peek_cons, ofByte] at h
    split at h
    · rw [Except.bind, validate] at h
      split at h <;> cases h
      trivial
    · cases h
      trivial

section Faults

variable {σ α : Type} {F : NalError → Prop}

theorem Faults.report (h : ∀ fault, F (.ofFault fault)) (p : EStateM Fault σ α) :
    Faults F (reportFaults p) := by
  intro s e t hs
  unfold reportFaults at hs
  cases hp : p s with
  | ok a u =>
    rw [hp] at hs
    cases hs
  | error fault u =>
    rw [hp] at hs
    cases hs
    exact h fault

theorem Faults.liftExcept {x : Except NalError α} (h : ∀ e, x = .error e → F e) :
    Faults F (liftM x : EStateM NalError σ α) := by
  intro s e t hs
  cases x with
  | ok a => cases hs
  | error e' =>
    cases hs
    exact h e rfl

theorem ParameterSets.error_of_resolve {sets : ParameterSets} {id : UInt8} {e : NalError}
    (h : sets.resolve id = .error e) : (∃ n, e = .missingPps n) ∨ ∃ n, e = .missingSps n := by
  rw [resolve] at h
  split at h
  · cases h
    exact .inl ⟨_, rfl⟩
  · split at h <;> cases h
    exact .inr ⟨_, rfl⟩

/-- The errors that reading a payload can end in, whatever they are called for. -/
structure PayloadErrors (F : NalError → Prop) : Prop where
  fault : ∀ fault, F (.ofFault fault)
  overrun : F .overrun
  missingPps : ∀ n, F (.missingPps n)
  missingSps : ∀ n, F (.missingSps n)
  unsupported : ∀ t, F (.unsupportedType t)

theorem faults_resolve (hF : PayloadErrors F) (sets : ParameterSets) (id : UInt8) :
    Faults F (liftM (sets.resolve id) : EStateM NalError σ (Pps × Sps)) := by
  refine Faults.liftExcept fun e he => ?_
  rcases ParameterSets.error_of_resolve he with ⟨n, rfl⟩ | ⟨n, rfl⟩
  · exact hF.missingPps n
  · exact hF.missingSps n

theorem SliceLayer.faults_parse (hF : PayloadErrors F) (nal : NalHeader) (sets : ParameterSets)
    (strict : Bool) : Faults F (parse nal sets strict) := by
  have hreport {α : Type} (p : Parse α) : Faults F (reportFaults p) := .report hF.fault p
  refine Faults.bind ((hreport _).bind fun opening => ?_) fun header => ?_
  · exact (faults_resolve hF sets _).bind fun known => hreport _
  · refine (faults_resolve hF sets _).bind fun known => (hreport _).bind fun more => ?_
    refine Faults.ite (fun _ => (hreport _).bind fun _ => .pure _) fun _ => ?_
    exact (hreport _).bind fun _ => .pure _

theorem SeiMessage.faults_parseUpTo (hF : PayloadErrors F) (count : Nat) :
    Faults F (parseUpTo count) := by
  have hreport {α : Type} (p : Parse α) : Faults F (reportFaults p) := .report hF.fault p
  induction count with
  | zero => exact .pure _
  | succ count ih =>
    refine (hreport _).bind fun more => Faults.ite (fun _ => ?_) fun _ => .pure _
    refine Faults.bind ?_ fun message => ih.bind fun rest => .pure _
    refine (hreport _).bind fun type => (hreport _).bind fun size => Faults.get fun r => ?_
    refine Faults.ite (fun _ => .throw hF.overrun) fun _ => ?_
    exact (hreport _).bind fun payload => .pure _

theorem NalPayload.faults_parse (hF : PayloadErrors F) (strict : Bool) (sets : ParameterSets)
    (header : NalHeader) : Faults F (parse strict sets header) := by
  have hend : Faults F (parseEnd strict) :=
    Faults.get fun r => .ite (fun _ => .pure _) fun _ => .report hF.fault _
  have hclosed {α : Type} {p : Decode α} (hp : Faults F p) (f : α → NalPayload) :
      Faults F (do let a ← p; parseEnd strict; return f a) :=
    hp.bind fun a => hend.bind fun _ => .pure _
  cases htype : header.unitType with
  | nonIdrSlice | idrSlice | auxiliarySlice =>
    rw [parse_slice (by rw [htype]; rfl), map_eq_pure_bind]
    exact (SliceLayer.faults_parse hF header sets strict).bind fun layer => .pure _
  | sei =>
    rw [parse, htype]
    exact hclosed (Faults.get fun r => SeiMessage.faults_parseUpTo hF _) _
  | sps | pps | accessUnitDelimiter =>
    rw [parse, htype]
    exact hclosed (.report hF.fault _) _
  | endOfSequence | endOfStream =>
    rw [parse, htype]
    exact .pure _
  | _ =>
    rw [parse, htype]
    exact .throw (hF.unsupported _)

end Faults

namespace NalUnit

variable {config : StreamConfig} {sets : ParameterSets}

/-- None of the errors behind the header is one of the header. -/
theorem payloadErrors_refusesHeader (b : UInt8) (bytes : List UInt8) :
    PayloadErrors fun e => ¬e.RefusesHeader (b :: bytes) := by
  constructor
  case fault =>
    intro fault
    rw [NalError.ofFault]
    cases fault.kind <;> simp [NalError.RefusesHeader]
  all_goals simp [NalError.RefusesHeader]

theorem faults_behindHeader {F : NalError → Prop} (hF : PayloadErrors F) (header : NalHeader) :
    Faults F (do
      let payload ← NalPayload.parse config.strictTrailingBits sets header
      if (← get).overrun then throw .overrun
      return { header, payload } : Decode NalUnit) := by
  refine (NalPayload.faults_parse hF _ sets header).bind fun payload => Faults.get fun r => ?_
  exact Faults.ite (fun _ => .bind (.throw hF.overrun) fun _ => .pure _) fun _ => .pure _

/-- A reader that minds the rules on headers refuses a header exactly if a peek does. -/
theorem decode_error_iff (hstrict : config.strictHeader = true) {unit plain : List UInt8}
    (hplain : unescape unit = .ok plain) {e : NalError} (he : e.RefusesHeader unit) :
    decode config sets unit = .error e ↔ NalHeader.peek unit = .error e := by
  cases unit with
  | nil =>
    have hdecode : decode config sets [] = .error .overrun := by
      rw [decode_of_unescape (show unescape [] = .ok [] from rfl)]
      rfl
    simp only [hdecode, NalHeader.peek_nil, Except.error.injEq]
  | cons b bytes =>
    obtain ⟨rest, rfl⟩ := exists_of_unescape hplain
    obtain ⟨s, hs⟩ := NalHeader.parse_cons b rest (if config.traceBits then some #[] else none)
    rw [decode_of_unescape hplain, NalHeader.peek_cons, parse]
    cases hb : NalHeader.ofByte b with
    | error e' =>
      rw [hb] at hs
      rw [bind_of_error hs, Except.bind, Except.error.injEq, Except.error.injEq]
    | ok h =>
      rw [hb] at hs
      rw [bind_of_ok hs, if_pos hstrict, Except.bind]
      cases hvalid : h.validate with
      | error e' =>
        have hrefused : (liftM (Except.error e' : Except NalError Unit) : Decode Unit) s =
            .error e' s := rfl
        rw [bind_of_error hrefused, Except.map, Except.error.injEq, Except.error.injEq]
      | ok _ =>
        have haccepted : (liftM (Except.ok () : Except NalError Unit) : Decode Unit) s =
            .ok () s := rfl
        rw [bind_of_ok haccepted]
        refine iff_of_false ?_ (by rintro ⟨⟩)
        intro hfailed
        split at hfailed
        · cases hfailed
        · rename_i e' t ht
          cases hfailed
          have hF := payloadErrors_refusesHeader b bytes
          exact faults_behindHeader hF h s e t ht he

/-- The header that is read is the one that a peek finds. -/
theorem header_of_decode {unit : List UInt8} {u : NalUnit} {h : NalHeader}
    (hpeek : NalHeader.peek unit = .ok h) (hdecode : decode config sets unit = .ok u) :
    u.header = h := by
  obtain ⟨plain, t, hplain, ht⟩ := decode_eq_ok.mp hdecode
  obtain ⟨r, hr, -⟩ := parse_eq_ok.mp ht
  cases unit with
  | nil => cases hpeek
  | cons b bytes =>
    obtain ⟨rest, rfl⟩ := exists_of_unescape hplain
    obtain ⟨s, hs⟩ := NalHeader.parse_cons b rest (if config.traceBits then some #[] else none)
    obtain ⟨hfound, -⟩ := liftM_eq_ok.mp (hs.symm.trans hr)
    rw [NalHeader.peek_cons, hfound, Except.bind] at hpeek
    exact (map_eq_ok.mp hpeek).choose_spec.2

end NalUnit

theorem ParameterSets.error_of_insertSps {sets : ParameterSets} {sps : Sps} {e : NalError}
    (h : sets.insertSps sps = .error e) : ∃ fault, e = .field fault := by
  rw [insertSps] at h
  split at h
  · cases h
    exact ⟨_, rfl⟩
  · cases h

theorem ParameterSets.error_of_keep {sets : ParameterSets} {p : NalPayload} {e : NalError}
    (h : sets.keep p = .error e) : ∃ fault, e = .field fault := by
  cases p with
  | sps sps => exact error_of_insertSps h
  | _ => cases h

theorem error_of_unescape {unit : List UInt8} {e : NalError} (h : unescape unit = .error e) :
    ∃ place, e = .illegalEscape place := by
  have hresult := unescapes_stripped (Nat.zero_le 2) 0 unit
  rw [← unescape_eq, h] at hresult
  cases hresult
  exact ⟨_, rfl⟩

namespace Stream

theorem readUnit_error_iff {s : Stream} (hstrict : s.config.strictHeader = true)
    {unit plain : List UInt8} (hplain : unescape unit = .ok plain) (e : NalError) :
    ((∃ t, readUnit unit s = .error e t) ∧ e.RefusesHeader unit) ↔
      NalHeader.peek unit = .error e := by
  constructor
  · rintro ⟨⟨t, h⟩, he⟩
    rw [readUnit_eq] at h
    split at h
    · rename_i e' hdecode
      cases h
      exact (NalUnit.decode_error_iff hstrict hplain he).mp hdecode
    · rename_i u _
      split at h
      · rename_i e' hkeep
        cases h
        obtain ⟨fault, rfl⟩ := ParameterSets.error_of_keep hkeep
        cases he
      · cases h
  · intro hpeek
    have he := NalHeader.refusesHeader_of_peek hpeek
    refine ⟨⟨s, ?_⟩, he⟩
    rw [readUnit_eq, (NalUnit.decode_error_iff hstrict hplain he).mpr hpeek]

end Stream

/-- Whether an error is any other than that a unit is not the parameter set that it has to be. -/
def NalError.NotExpecting (e : NalError) : Prop := ∀ found, e ≠ .spsExpected found

section Expecting

variable {σ α β : Type}

theorem payloadErrors_notExpecting : PayloadErrors NalError.NotExpecting := by
  constructor
  case fault =>
    intro fault found
    rw [NalError.ofFault]
    cases fault.kind <;> simp
  all_goals simp [NalError.NotExpecting]

theorem notExpecting_report (p : EStateM Fault σ α) :
    Faults NalError.NotExpecting (reportFaults p) := .report payloadErrors_notExpecting.fault p

theorem Faults.modify {ε : Type} {F : ε → Prop} (f : σ → σ) :
    Faults F (modify f : EStateM ε σ PUnit) := by
  intro s e t h
  cases h

/-- What is yielded may matter to what comes next. -/
theorem Faults.bind_of {ε : Type} {F : ε → Prop} {P : α → Prop} {p : EStateM ε σ α}
    {f : α → EStateM ε σ β} (hp : Faults F p) (hP : ∀ s a t, p s = .ok a t → P a)
    (hf : ∀ a, P a → Faults F (f a)) : Faults F (p >>= f) := by
  intro s e u h
  rcases bind_eq_error.mp h with hfirst | ⟨a, t, ha, hlater⟩
  · exact hp s e u hfirst
  · exact hf a (hP s a t ha) t e u hlater

theorem NalHeader.notExpecting_parse : Faults NalError.NotExpecting parse := by
  refine (notExpecting_report _).bind fun forbidden => Faults.ite (fun _ => ?_) fun _ => ?_
  · exact Faults.bind (.throw (by simp [NalError.NotExpecting])) fun _ =>
      (notExpecting_report _).bind fun _ => (notExpecting_report _).bind fun _ => .pure _
  · exact (notExpecting_report _).bind fun _ => (notExpecting_report _).bind fun _ => .pure _

theorem NalHeader.notExpecting_validate {h : NalHeader} {e : NalError}
    (he : h.validate = .error e) : e.NotExpecting := by
  rw [validate] at he
  split at he <;> cases he
  simp [NalError.NotExpecting]

theorem NalUnit.notExpecting_parse (config : StreamConfig) (sets : ParameterSets) :
    Faults NalError.NotExpecting (parse config sets) := by
  have hrest := @faults_behindHeader config sets _ payloadErrors_notExpecting
  refine NalHeader.notExpecting_parse.bind fun header => Faults.ite (fun _ => ?_) fun _ => ?_
  · exact Faults.bind (.liftExcept fun e => NalHeader.notExpecting_validate) fun _ => hrest header
  · exact hrest header

theorem NalUnit.notExpecting_decode {config : StreamConfig} {sets : ParameterSets}
    {unit : List UInt8} {e : NalError} (h : decode config sets unit = .error e) :
    e.NotExpecting := by
  cases hplain : unescape unit with
  | error e' =>
    rw [decode, hplain] at h
    cases h
    obtain ⟨place, rfl⟩ := error_of_unescape hplain
    simp [NalError.NotExpecting]
  | ok plain =>
    rw [decode_of_unescape hplain] at h
    split at h
    · cases h
    · rename_i e' t ht
      cases h
      exact notExpecting_parse config sets _ e t ht

theorem SpsUnit.notExpecting_build (v : SpsUnit) (sets : ParameterSets) :
    Faults NalError.NotExpecting (v.toNalUnit.build sets) := by
  have hpayload : Faults NalError.NotExpecting
      (NalPayload.build sets v.header (.sps v.sps)) :=
    (notExpecting_report _).bind fun _ => notExpecting_report _
  refine (notExpecting_report _).bind fun _ => hpayload.bind fun _ => Faults.get fun w => ?_
  refine Faults.ite (fun _ => ?_) fun _ => notExpecting_report _
  exact Faults.bind (.throw payloadErrors_notExpecting.overrun) fun _ => notExpecting_report _

theorem SpsUnit.notExpecting_encode {config : StreamConfig} {sets : ParameterSets} {v : SpsUnit}
    {e : NalError} (h : v.toNalUnit.encode config sets = .error e) : e.NotExpecting := by
  rw [NalUnit.encode] at h
  by_cases hfits : v.toNalUnit.payload.fits v.toNalUnit.header.unitType = true
  · cases hbuild : v.toNalUnit.build sets (v.toNalUnit.buffer config) with
    | ok size w =>
      rw [NalUnit.encodePlain_of_ok hfits hbuild] at h
      cases (escape_eq _).symm.trans h
    | error e' w =>
      rw [NalUnit.encodePlain_of_error hfits hbuild] at h
      cases h
      exact v.notExpecting_build sets _ e w hbuild
  · rw [NalUnit.encodePlain, Bool.eq_false_of_not_eq_true hfits] at h
    cases h
    simp [NalError.NotExpecting]

namespace Stream

theorem notExpecting_storeSps (sps : Sps) : Faults NalError.NotExpecting (storeSps sps) := by
  refine Faults.get fun s => Faults.bind (.liftExcept fun e he => ?_) fun _ => .modify _
  obtain ⟨fault, rfl⟩ := ParameterSets.error_of_insertSps he
  simp [NalError.NotExpecting]

theorem notExpecting_replaceSps (v : SpsUnit) : Faults NalError.NotExpecting (replaceSps v) :=
  (notExpecting_storeSps v.sps).bind fun _ => Faults.get fun _ =>
    .liftExcept fun _ => SpsUnit.notExpecting_encode

theorem notExpecting_readUnit (unit : List UInt8) :
    Faults NalError.NotExpecting (readUnit unit) := by
  intro s e t h
  rw [readUnit_eq] at h
  split at h
  · rename_i e' hdecode
    cases h
    exact NalUnit.notExpecting_decode hdecode
  · split at h
    · rename_i e' hkeep
      cases h
      obtain ⟨fault, rfl⟩ := ParameterSets.error_of_keep hkeep
      simp [NalError.NotExpecting]
    · cases h

/-- A unit that looks like a sequence parameter set is one, if it can be read. -/
theorem expectSps_of_readUnit {unit : List UInt8} (hsps : isSps unit = true) {s t : Stream}
    {u : NalUnit} (h : readUnit unit s = .ok u t) : ∃ v, u.expectSps = .ok v := by
  obtain ⟨hdecode, -⟩ := readUnit_eq_ok.mp h
  rw [isSps, hasType] at hsps
  split at hsps
  · rename_i header hpeek
    have htype : u.header.unitType = .sps := by
      rw [NalUnit.header_of_decode hpeek hdecode]
      exact beq_iff_eq.mp hsps
    have hfits := NalUnit.fits_of_decode hdecode
    rw [htype] at hfits
    obtain ⟨header, payload⟩ := u
    cases payload with
    | sps sps => exact ⟨_, rfl⟩
    | _ => cases hfits
  · cases hsps

theorem notExpecting_expectSps {u : NalUnit} (h : ∃ v, u.expectSps = .ok v) :
    Faults NalError.NotExpecting (liftM u.expectSps : EStateM NalError σ SpsUnit) := by
  obtain ⟨v, hv⟩ := h
  refine .liftExcept fun e he => ?_
  rw [hv] at he
  cases he

theorem notExpecting_patchSps (fixup : SpsFixup) {unit : List UInt8} (hsps : isSps unit = true) :
    Faults NalError.NotExpecting (patchSps fixup unit) := by
  refine Faults.bind_of (notExpecting_readUnit unit) (fun _ _ _ => expectSps_of_readUnit hsps) ?_
  intro u hu
  exact (notExpecting_expectSps hu).bind fun v => notExpecting_replaceSps _

end Stream

namespace SpsPatcher

theorem notExpecting_onStream {p : Session α} (hp : Faults NalError.NotExpecting p) :
    Faults NalError.NotExpecting (onStream p) := by
  intro r e t h
  rw [onStream] at h
  split at h
  · cases h
  · rename_i e' stream hs
    cases h
    exact hp _ e stream hs

theorem notExpecting_emitReplay : Faults NalError.NotExpecting emitReplay := by
  refine Faults.get fun r => ?_
  cases r.replay with
  | armed high =>
    refine (Faults.modify _).bind fun _ => ?_
    exact (notExpecting_onStream (Stream.notExpecting_replaceSps high)).bind fun _ => .pure _
  | waiting high => exact .pure _
  | done => exact .pure _

theorem notExpecting_sendSps {unit : List UInt8} (hsps : isSps unit = true) :
    Faults NalError.NotExpecting (sendSps unit) := by
  have hread : ∀ r u t, onStream (Stream.readUnit unit) r = .ok u t →
      ∃ v, u.expectSps = .ok v := by
    intro r u t h
    obtain ⟨s, hs, -⟩ := onStream_eq_ok.mp h
    exact Stream.expectSps_of_readUnit hsps hs
  have hbaseline : Faults NalError.NotExpecting (sendAsBaseline unit) := by
    refine Faults.bind_of (notExpecting_onStream (Stream.notExpecting_readUnit unit)) hread ?_
    intro u hu
    refine (Stream.notExpecting_expectSps hu).bind fun v => Faults.get fun r => ?_
    exact (Faults.modify _).bind fun _ => notExpecting_onStream (Stream.notExpecting_replaceSps _)
  refine Faults.get fun r => ?_
  split
  · exact hbaseline
  · exact notExpecting_onStream (Stream.notExpecting_patchSps r.fixup hsps)

/-- Whatever a patcher has been given so far, it never finds another unit where it looks for a
parameter set. -/
theorem notExpecting_process (unit : List UInt8) :
    Faults NalError.NotExpecting (process unit) := by
  rw [process_eq]
  refine notExpecting_emitReplay.bind fun front => Faults.bind ?_ fun own => .pure _
  intro r e t h
  rcases sendOwn_cases unit r with
    ⟨hsps, hsend⟩ | ⟨-, -, hsend⟩ | ⟨-, -, hsend | ⟨e', hpeek, hsend⟩⟩
  · exact notExpecting_sendSps hsps r e t (hsend.symm.trans h)
  · cases hsend.symm.trans h
  · cases hsend.symm.trans h
  · cases hsend.symm.trans h
    have hrefused := NalHeader.refusesHeader_of_peek hpeek
    rintro found rfl
    exact hrefused

end SpsPatcher

end Expecting

/-- A peek agrees with reading. Of a unit whose escapes are in order, a stream that minds the rules
on headers refuses the header if and only if a peek does, with the same error, whatever parameter
sets it has. Where a peek succeeds and the unit is read, with or without minding those rules, the
unit has the header that was peeked at. So a patcher, which goes by a peek, never reads a unit of
another type where it looks for a sequence parameter set. -/
theorem NalHeader.peek_agrees :
    (∀ (s : Stream) (unit plain : List UInt8), s.config.strictHeader = true →
      unescape unit = .ok plain → ∀ e,
      ((∃ t, Stream.readUnit unit s = .error e t) ∧ e.RefusesHeader unit) ↔
        peek unit = .error e) ∧
    (∀ (s t : Stream) (unit : List UInt8) (h : NalHeader) (u : NalUnit), peek unit = .ok h →
      Stream.readUnit unit s = .ok u t → u.header = h) ∧
    ∀ (r t : SpsPatcher) (unit : List UInt8) (found : UnitType),
      SpsPatcher.process unit r ≠ .error (.spsExpected found) t := by
  refine ⟨?_, ?_, ?_⟩
  · intro s unit plain hstrict hplain e
    exact Stream.readUnit_error_iff hstrict hplain e
  · intro s t unit h u hpeek hread
    exact NalUnit.header_of_decode hpeek (Stream.readUnit_eq_ok.mp hread).1
  · intro r t unit found h
    exact SpsPatcher.notExpecting_process unit r _ t h found rfl

/-- A unit with the forbidden bit, and a delimiter. -/
theorem NalHeader.peek_agrees_delimiter :
    let s : Stream := {}
    let u : NalUnit := ⟨⟨0, .accessUnitDelimiter⟩, .accessUnitDelimiter ⟨.iSIPSPB⟩⟩
    (peek [137, 240] = .error .forbiddenZeroBit ∧
      ∃ t, Stream.readUnit [137, 240] s = .error .forbiddenZeroBit t) ∧
    peek [9, 240] = .ok ⟨0, .accessUnitDelimiter⟩ ∧ Stream.readUnit [9, 240] s = .ok u s ∧
      u.header = ⟨0, .accessUnitDelimiter⟩ := by
  intro s u
  have hforbidden : peek [137, 240] = .error .forbiddenZeroBit := by cbv
  have hplain : unescape [137, 240] = .ok [137, 240] := by cbv
  have hpeek : peek [9, 240] = .ok ⟨0, .accessUnitDelimiter⟩ := by cbv
  have hdecode : NalUnit.decode s.config s.parameterSets [9, 240] = .ok u := by cbv
  have hread : Stream.readUnit [9, 240] s = .ok u s :=
    Stream.readUnit_eq_ok.mpr ⟨hdecode, s.parameterSets, rfl, rfl⟩
  obtain ⟨hrefused, -⟩ := (peek_agrees.1 s _ _ rfl hplain _).mpr hforbidden
  exact ⟨⟨hforbidden, hrefused⟩, hpeek, hread, peek_agrees.2.1 s s _ _ u hpeek hread⟩

end AvcSyntax

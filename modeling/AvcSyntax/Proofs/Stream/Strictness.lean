import AvcSyntax.Proofs.Stream.Basic

/-!
# Strictness only filters

A strict reader refuses some of the units that a lenient one reads. Those that it does not refuse
it reads in the same way, down to the position it stops at: `Refines` says so of any two actions,
and is closed under sequencing.

For slices the strictness about stop bits is idle. Their end is looked for before it is read:
where no more data follow, there is either nothing left or a stop bit with nothing but zero bits
behind it, in which the checks of a strict reader find no fault.
-/
namespace AvcSyntax

/-- Whatever one action yields the other yields too, and they leave the same state behind. -/
def Refines {ε σ α : Type} (p q : EStateM ε σ α) : Prop := ∀ s a t, p s = .ok a t → q s = .ok a t

section Sequencing

variable {ε σ α β : Type} {p q : EStateM ε σ α} {f g : α → EStateM ε σ β}

theorem Refines.refl (p : EStateM ε σ α) : Refines p p := fun _ _ _ h => h

theorem Refines.throw (e : ε) : Refines (throw e) p := by
  rintro s a t ⟨⟩

theorem Refines.bind (hp : Refines p q) (hf : ∀ a, Refines (f a) (g a)) :
    Refines (p >>= f) (q >>= g) := by
  intro s b u h
  obtain ⟨a, t, ht, hb⟩ := bind_eq_ok.mp h
  rw [bind_of_ok (hp s a t ht)]
  exact hf a t b u hb

theorem Refines.report {p q : EStateM Fault σ α} (h : Refines p q) :
    Refines (reportFaults p) (reportFaults q) := by
  intro s a t hs
  exact reportFaults_eq_ok.mpr (h s a t (reportFaults_eq_ok.mp hs))

end Sequencing

namespace Reader

structure Quiet (r : Reader) : Prop where
  inBounds : r.InBounds
  rest : true ∉ r.rest

theorem Quiet.moves {r s : Reader} {bs : Bits} (hr : r.Quiet) (h : r.Moves bs s) :
    true ∉ bs ∧ s.Quiet := by
  have hrest := hr.rest
  rw [h.rest, List.mem_append, not_or] at hrest
  exact ⟨hrest.1, h.inBounds hr.inBounds, hrest.2⟩

end Reader

namespace Parse

variable {r s : Reader}

theorem accepts_align : Accepts align fun _ _ => True :=
  Accepts.get fun _ => Accepts.ite (fun _ => Accepts.pure trivial) fun _ => accepts_skip _

/-- The stop bit is one and nothing but zero bits follow. -/
theorem quiet_of_flag {stop : Bool} (hmore : Bits.hasMore r.rest = false)
    (h : flag r = .ok stop s) : stop = true ∧ s.Quiet := by
  have hr := inBounds_of_flag h
  obtain ⟨_, -, hmoves, rfl⟩ := accepts_flag r stop s hr h
  have hrest := hmoves.rest
  rw [Code.bits_flag, List.singleton_append] at hrest
  rw [hrest] at hmore
  cases stop with
  | false => cases hmore
  | true =>
    rw [Bits.hasMore, ← Bool.not_eq_true, List.contains_iff_mem] at hmore
    exact ⟨rfl, hmoves.inBounds hr, hmore⟩

/-- Without more data there is no fault that only a strict reader finds. -/
theorem trailingBits_eq (hmore : Bits.hasMore r.rest = false) (strict : Bool) :
    trailingBits strict r = trailingBits false r := by
  refine bind_congr_at rfl fun stop s hs => ?_
  obtain ⟨rfl, -⟩ := quiet_of_flag hmore hs
  simp

theorem quiet_of_trailingBits (hmore : Bits.hasMore r.rest = false)
    (h : trailingBits false r = .ok () s) : s.Quiet := by
  obtain ⟨stop, t, ht, h⟩ := bind_eq_ok.mp h
  obtain ⟨-, hquiet⟩ := quiet_of_flag hmore ht
  have halign : align t = .ok () s := by simpa using h
  obtain ⟨_, -, hmoves, -⟩ := accepts_align t () s hquiet.inBounds halign
  exact (hquiet.moves hmoves).2

theorem trailingWords_eq (hr : r.Quiet) (strict : Bool) (count : Nat) :
    trailingWords strict count r = trailingWords false count r := by
  induction count generalizing r with
  | zero => rfl
  | succ count ih =>
    refine bind_congr_at rfl fun word s hs => ?_
    obtain ⟨_, -, hmoves, hword, rfl⟩ := accepts_u (by decide) r word s hr.inBounds hs
    obtain ⟨hbits, hquiet⟩ := hr.moves hmoves
    rw [Code.bits_u] at hbits
    have hzero : word = 0 := by
      have hall : Bits.ofNat 16 word = Bits.ofNat 16 0 := by
        rw [Bits.ofNat_replicate_false]
        refine List.eq_replicate_iff.mpr ⟨Bits.length_ofNat _ _, ?_⟩
        intro b hb
        exact Bool.eq_false_of_not_eq_true fun hone => hbits (hone ▸ hb)
      rw [← Bits.toNat_ofNat_of_lt hword, hall]
      rfl
    subst hzero
    simpa using ih hquiet

theorem sliceTrailingBits_eq (hmore : Bits.hasMore r.rest = false) (arithmetic strict : Bool) :
    sliceTrailingBits arithmetic strict r = sliceTrailingBits arithmetic false r := by
  refine bind_congr_at (trailingBits_eq hmore strict) fun _ s hs => ?_
  cases arithmetic with
  | false => rfl
  | true => exact trailingWords_eq (quiet_of_trailingBits hmore hs) strict _

theorem hasMore_of_moreData (h : moreData r = .ok false s) : Bits.hasMore s.rest = false := by
  obtain ⟨t, ht⟩ := moreData_eq r
  rw [ht] at h
  injection h with hmore hs
  rw [← hs]
  exact hmore

theorem refines_trailingBits (strict : Bool) :
    Refines (trailingBits strict) (trailingBits false) := by
  refine (Refines.refl flag).bind fun stop => ?_
  cases strict <;> cases stop
  · exact .refl _
  · exact .refl _
  · exact .throw _
  · exact .refl _

end Parse

/-- How strictly its end is checked makes no difference to a slice. -/
theorem SliceLayer.parse_eq (nal : NalHeader) (sets : ParameterSets) (strict : Bool) :
    parse nal sets strict = parse nal sets false := by
  funext r
  refine bind_congr_at rfl fun header s _ => ?_
  refine bind_congr_at rfl fun known t _ => ?_
  refine bind_congr_at rfl fun more v hv => ?_
  cases more with
  | true => rfl
  | false =>
    have hmore := Parse.hasMore_of_moreData (reportFaults_eq_ok.mp hv)
    exact bind_congr_at (reportFaults_congr (Parse.sliceTrailingBits_eq hmore _ _)) fun _ _ _ => rfl

namespace NalPayload

variable {strict lenient : Bool}

/-- At the end of the buffer a strict reader fails, and elsewhere both look for the stop bit. -/
theorem refines_parseEnd (h : lenient = true → strict = true) :
    Refines (parseEnd strict) (parseEnd lenient) := by
  cases strict with
  | false =>
    obtain rfl : lenient = false := Bool.eq_false_of_not_eq_true fun hl => by cases h hl
    exact .refl _
  | true =>
    cases lenient with
    | true => exact .refl _
    | false =>
      intro r _ s hs
      rw [parseEnd, get_bind] at hs ⊢
      rw [if_neg (by simp)] at hs
      have hend : ¬r.atEnd := by
        intro hend
        obtain ⟨_, _, hstop, -⟩ := bind_eq_ok.mp (reportFaults_eq_ok.mp hs)
        obtain ⟨_, _, hu, -⟩ := bind_eq_ok.mp hstop
        have hroom := ((Parse.u_eq_ok (by decide)).mp hu).1
        rw [← Reader.length_rest, Reader.rest_eq_nil_iff.mpr hend] at hroom
        exact absurd hroom (by decide)
      rw [if_neg (by simp [hend])]
      exact (Parse.refines_trailingBits true).report r () s hs

theorem refines_parse (h : lenient = true → strict = true) (sets : ParameterSets)
    (header : NalHeader) : Refines (parse strict sets header) (parse lenient sets header) := by
  have hclosed : ∀ {α : Type} (p : Decode α) (f : α → NalPayload),
      Refines (do let a ← p; parseEnd strict; return f a)
        (do let a ← p; parseEnd lenient; return f a) :=
    fun p f => (Refines.refl p).bind fun _ => (refines_parseEnd h).bind fun _ => .refl _
  unfold parse
  split
  all_goals first
    | exact hclosed _ _
    | exact .refl _
    | rw [SliceLayer.parse_eq header sets strict, SliceLayer.parse_eq header sets lenient]
      exact .refl _

theorem parse_of_isSlice {header : NalHeader} (htype : header.unitType.isSlice = true)
    (strict : Bool) (sets : ParameterSets) :
    parse strict sets header = parse false sets header := by
  rw [parse_slice htype, SliceLayer.parse_eq, parse_slice htype]

end NalPayload

/-- Whether settings differ from strict ones in nothing but that some rules are not minded. -/
structure StreamConfig.Relaxes (lenient strict : StreamConfig) : Prop where
  traceBits : lenient.traceBits = strict.traceBits
  strictHeader : lenient.strictHeader = true → strict.strictHeader = true
  strictTrailingBits : lenient.strictTrailingBits = true → strict.strictTrailingBits = true

namespace NalUnit

variable {sets : ParameterSets} {u : NalUnit} {strict lenient : StreamConfig}

theorem refines_parse (h : lenient.Relaxes strict) (sets : ParameterSets) :
    Refines (parse strict sets) (parse lenient sets) := by
  intro r u s hs
  obtain ⟨t, ht, hrule, hpayload, hover⟩ := parse_eq_ok.mp hs
  refine parse_eq_ok.mpr ⟨t, ht, fun hl => hrule (h.strictHeader hl), ?_, hover⟩
  exact NalPayload.refines_parse h.strictTrailingBits sets u.header t u.payload s hpayload

/-- What a strict reader makes of some bytes, a more lenient one makes of them too. -/
theorem decode_of_relaxes (h : lenient.Relaxes strict) {bytes : List UInt8}
    (hdecode : decode strict sets bytes = .ok u) : decode lenient sets bytes = .ok u := by
  obtain ⟨plain, s, hplain, hs⟩ := decode_eq_ok.mp hdecode
  refine decode_eq_ok.mpr ⟨plain, s, hplain, ?_⟩
  rw [h.traceBits]
  exact refines_parse h sets _ u s hs

end NalUnit

/-- Whether the first byte of a unit gives the type of a slice. -/
def holdsSlice (bytes : List UInt8) : Bool :=
  bytes.head?.any fun b => (UnitType.ofCode b).isSlice

namespace NalUnit

/-- Nothing is left out of the first byte of a unit. -/
theorem exists_of_unescape {b : UInt8} {bytes plain : List UInt8}
    (h : unescape (b :: bytes) = .ok plain) : ∃ rest, plain = b :: rest := by
  rw [unescape_eq, stripped_cons (by simp)] at h
  obtain ⟨rest, -, rfl⟩ := map_eq_ok.mp h
  exact ⟨rest, rfl⟩

theorem parse_of_isSlice {r : Reader}
    (htype : ∀ h s, NalHeader.parse r = .ok h s → h.unitType.isSlice = true)
    (config : StreamConfig) (sets : ParameterSets) (strict : Bool) :
    parse { config with strictTrailingBits := strict } sets r =
      parse { config with strictTrailingBits := false } sets r := by
  refine bind_congr_at rfl fun header s hs => ?_
  simp only [NalPayload.parse_of_isSlice (htype header s hs) strict sets]

/-- How strictly its end is checked makes no difference to a unit that holds a slice. -/
theorem decode_of_holdsSlice {bytes : List UInt8} (h : holdsSlice bytes = true)
    (config : StreamConfig) (sets : ParameterSets) (strict : Bool) :
    decode { config with strictTrailingBits := strict } sets bytes =
      decode { config with strictTrailingBits := false } sets bytes := by
  cases bytes with
  | nil => cases h
  | cons b bytes =>
    cases hplain : unescape (b :: bytes) with
    | error e =>
      rw [decode, hplain, decode, hplain]
      rfl
    | ok plain =>
      obtain ⟨rest, rfl⟩ := exists_of_unescape hplain
      have htype : (UnitType.ofCode b).isSlice = true := h
      rw [decode_of_unescape hplain, decode_of_unescape hplain, parse_of_isSlice]
      intro header s hs
      rw [NalHeader.unitType_of_parse hs, htype]

end NalUnit

namespace Stream

/-- The outcome of a call on a stream as one with other settings has it. -/
def underConfig {α : Type} (config : StreamConfig) :
    EStateM.Result NalError Stream α → EStateM.Result NalError Stream α
  | .ok a t => .ok a { t with config }
  | .error e t => .error e { t with config }

/-- A strict reader only filters: the units that it reads have the same content and the same effect
for a reader that minds fewer rules. Of a slice both make the same even where they fail, if they
differ in nothing but how strictly the end of a unit is checked. -/
theorem readUnit_of_relaxes (sets : ParameterSets) (bytes : List UInt8) :
    (∀ strict lenient : StreamConfig, lenient.Relaxes strict →
        ∀ u t, readUnit bytes ⟨strict, sets⟩ = .ok u t →
          readUnit bytes ⟨lenient, sets⟩ = .ok u { t with config := lenient }) ∧
      (holdsSlice bytes = true → ∀ (config : StreamConfig) (a b : Bool),
        readUnit bytes ⟨{ config with strictTrailingBits := a }, sets⟩ =
          underConfig { config with strictTrailingBits := a }
            (readUnit bytes ⟨{ config with strictTrailingBits := b }, sets⟩)) := by
  constructor
  · intro strict lenient h u t hread
    obtain ⟨hdecode, later, hkeep, rfl⟩ := readUnit_eq_ok.mp hread
    exact readUnit_eq_ok.mpr ⟨NalUnit.decode_of_relaxes h hdecode, later, hkeep, rfl⟩
  · intro h config a b
    rw [readUnit_eq, readUnit_eq, NalUnit.decode_of_holdsSlice h config sets a,
      NalUnit.decode_of_holdsSlice h config sets b]
    cases NalUnit.decode { config with strictTrailingBits := false } sets bytes with
    | error e => rfl
    | ok u => cases hkeep : sets.keep u.payload <;> simp only [hkeep] <;> rfl

/-- A slice of an IDR picture without data, read by the strictest reader and by the most lenient
one, and the same slice cut off. -/
theorem readUnit_of_relaxes_slice :
    let sets : ParameterSets :=
      { sps := fun id => if id = 0 then some { profileIdc := 66, levelIdc := 10 } else none
        pps := fun id => if id = 0 then some {} else none }
    let strict : StreamConfig := { strictTrailingBits := true }
    let lenient : StreamConfig := { strictHeader := false }
    lenient.Relaxes strict ∧
      (∃ u t, readUnit [101, 136, 132, 12] ⟨strict, sets⟩ = .ok u t ∧
        readUnit [101, 136, 132, 12] ⟨lenient, sets⟩ = .ok u { t with config := lenient }) ∧
      holdsSlice [101, 136] = true ∧
      readUnit [101, 136] ⟨strict, sets⟩ = .error .overrun ⟨strict, sets⟩ ∧
      readUnit [101, 136] ⟨{}, sets⟩ = .error .overrun ⟨{}, sets⟩ := by
  intro sets strict lenient
  have hrelaxes : lenient.Relaxes strict := ⟨rfl, nofun, nofun⟩
  have hdecode : NalUnit.decode strict sets [101, 136, 132, 12] =
      .ok ⟨⟨3, .idrSlice⟩, .slice ⟨
        { type := .i, allSlicesSameType := true, refPicMarking := some (.idr false false) },
        none⟩⟩ := by cbv
  have hread := (readUnit_eq_ok (s := ⟨strict, sets⟩)).mpr ⟨hdecode, sets, rfl, rfl⟩
  have hfail : NalUnit.decode strict sets [101, 136] = .error .overrun := by cbv
  have hcut : readUnit [101, 136] ⟨strict, sets⟩ = .error .overrun ⟨strict, sets⟩ := by
    rw [readUnit_eq, hfail]
  refine ⟨hrelaxes, ⟨_, _, hread, ?_⟩, rfl, hcut, ?_⟩
  · exact (readUnit_of_relaxes sets _).1 strict lenient hrelaxes _ _ hread
  · have hsame := (readUnit_of_relaxes sets [101, 136]).2 rfl {} false true
    rw [hsame]
    exact congrArg (underConfig {}) hcut

end Stream

end AvcSyntax

import AvcSyntax.Proofs.Slice.Moving
import AvcSyntax.Proofs.Slice.Overflow
import AvcSyntax.Proofs.Stream.Basic

/-!
# Units fit the buffer that is set aside for them

A unit is written into a buffer of its own before it is escaped. The buffer has a fixed number of
bytes for everything that has a bound, whatever the values in the unit, and room of its own for
slice data, messages and explicit slice group maps. So a unit that cannot be written is one that
breaks a rule, or a slice with a number that overflows, and never one that found too little room. A
slice takes the counts of its reference pictures from a picture parameter set, so these have to be
in range.
-/
namespace AvcSyntax

section Rules

/-! Outside of slices all rules that end a code early are rules on values, record by record. -/

@[simp]
theorem AspectRatio.refusesValues_code (a : AspectRatio) : a.code.RefusesValues := by simp [code]

@[simp]
theorem ColourDescription.refusesValues_code (d : ColourDescription) :
    d.code.RefusesValues := by simp [code, Code.append_assoc]

@[simp]
theorem VideoSignal.refusesValues_code (s : VideoSignal) : s.code.RefusesValues := by
  simp [code, Code.append_assoc]

@[simp]
theorem ChromaLocation.refusesValues_code (l : ChromaLocation) : l.code.RefusesValues := by
  simp [code]

@[simp]
theorem TimingInfo.refusesValues_code (t : TimingInfo) : t.code.RefusesValues := by
  simp [code, Code.append_assoc]

@[simp]
theorem DeliverySchedule.refusesValues_code (s : DeliverySchedule) : s.code.RefusesValues := by
  simp [code, Code.append_assoc]

@[simp]
theorem HrdParameters.refusesValues_code (h : HrdParameters) : h.code.RefusesValues := by
  simp [code, Code.append_assoc]

@[simp]
theorem BitstreamRestriction.refusesValues_code (b : BitstreamRestriction) :
    b.code.RefusesValues := by simp [code, Code.append_assoc]

@[simp]
theorem VuiParameters.refusesValues_code (v : VuiParameters) : v.code.RefusesValues := by
  simp [code, Code.append_assoc]

@[simp]
theorem ScalingList.refusesValues_code {n : Nat} (l : ScalingList n) : l.code.RefusesValues := by
  unfold code
  split
  · exact Code.refusesValues_se _
  · split
    · exact Code.refusesValues_fail rfl
    · exact Code.refusesValues_concat Code.refusesValues_se

@[simp]
theorem ScalingMatrix.refusesValues_code (m : ScalingMatrix) (count : Nat) :
    (m.code count).RefusesValues := by simp [code, Code.append_assoc, -List.map_take]

@[simp]
theorem SampleFormat.refusesValues_code (f : SampleFormat) : f.code.RefusesValues := by
  simp [code, Code.append_assoc]

@[simp]
theorem FrameCropping.refusesValues_code (c : FrameCropping) : c.code.RefusesValues := by
  simp [code, Code.append_assoc]

@[simp]
theorem OrderCycle.refusesValues_code (c : OrderCycle) : c.code.RefusesValues := by
  simp [code, Code.append_assoc]

@[simp]
theorem PicOrderCount.refusesValues_code (p : PicOrderCount) : p.code.RefusesValues := by
  cases p <;> simp [code]

@[simp]
theorem Sps.refusesValues_code (s : Sps) : s.code.RefusesValues := by
  simp [code, Code.append_assoc]

@[simp]
theorem SliceGroups.refusesValues_code (g : SliceGroups) : g.code.RefusesValues := by
  have hmap : ∀ groups map, (mapCode groups map).RefusesValues := by
    intro groups map
    cases map with
    | explicit ids =>
      simp [mapCode, Code.append_assoc, Code.refusesValues_of_no_fault]
    | _ => simp [mapCode, Code.append_assoc]
  simp [code, hmap]

@[simp]
theorem PpsExtension.refusesValues_code (chromaFormatIdc : UInt8) (e : PpsExtension) :
    (e.code chromaFormatIdc).RefusesValues := by simp [code, Code.append_assoc]

theorem Pps.refusesValues_code (sets : ParameterSets) (p : Pps) :
    (p.code sets).RefusesValues := by
  have hgroups : (sliceGroupsCode p.sliceGroups).RefusesValues := by
    cases p.sliceGroups <;> simp [sliceGroupsCode, Code.append_assoc]
  cases hextension : p.extension <;> simp [code, Code.append_assoc, hgroups, hextension]

theorem SeiMessage.refusesValues_code (m : SeiMessage) : m.code.RefusesValues := by
  have hsize : (if m.payload.length < 0x100000000 then Code.empty
      else .fail (.payloadTooLarge m.payload.length)).RefusesValues := by
    split
    · exact Code.refusesValues_empty
    · exact Code.refusesValues_fail rfl
  simp [code, Code.append_assoc, hsize]

theorem NalHeader.refusesValues_code (h : NalHeader) : h.code.RefusesValues := by
  simp [code, Code.append_assoc]

end Rules

section Builders

/-- Whether an error is about neither data nor room that ran out, and an overflow only where one is
possible. -/
structure NalError.Refuses (overflows : Prop) (e : NalError) : Prop where
  ne_overrun : e ≠ .overrun
  ne_bufferTooSmall : ∀ available, e ≠ .bufferTooSmall available
  overflows : e = .overflow → overflows

variable {overflows : Prop}

theorem NalError.Refuses.mono {C D : Prop} {e : NalError} (h : e.Refuses C) (hle : C → D) :
    e.Refuses D := ⟨h.ne_overrun, h.ne_bufferTooSmall, fun he => hle (h.overflows he)⟩

theorem NalError.refuses_ofFault {fault : Fault} (h : fault.kind = .invalidValue) :
    (NalError.ofFault fault).Refuses overflows := by
  rw [ofFault, h]
  exact ⟨nofun, nofun, nofun⟩

theorem NalError.refuses_overflow (h : overflows) : NalError.overflow.Refuses overflows :=
  ⟨nofun, nofun, fun _ => h⟩

theorem ParameterSets.refuses_of_resolve {sets : ParameterSets} {id : UInt8} {e : NalError}
    (h : sets.resolve id = .error e) : e.Refuses overflows := by
  unfold resolve at h
  split at h
  · cases h
    exact ⟨nofun, nofun, nofun⟩
  · split at h
    · cases h
      exact ⟨nofun, nofun, nofun⟩
    · cases h

theorem Build.needs_ones {E : Fault → Prop} (count : Nat) : Needs E count (ones count) :=
  Needs.of_writes fun _ => ⟨_, _, by rw [List.length_replicate], (appends_ones count).writes⟩

variable {sets : ParameterSets} {n : Nat}

theorem Code.RefusesValues.needs_report {c : Code} (hc : c.RefusesValues) (hn : c.AtMost n) :
    Needs (NalError.Refuses overflows) n (reportFaults c.write) :=
  (Code.needs_write (fun _ h => h) hc hn).report fun _ => NalError.refuses_ofFault

/-- Apart from their whole bytes, slice data take less than one. -/
theorem SliceData.needs_build (d : SliceData) (pps : Pps) :
    Needs (NalError.Refuses (d.MessageOverflows pps)) (7 + 8 * d.bytes.length) (d.build pps) := by
  have hbytes : Needs (NalError.Refuses (d.MessageOverflows pps)) (8 * d.bytes.length)
      (reportFaults (Build.bytes d.bytes)) := (Build.needs_bytes d.bytes).report_of_safe
  refine Needs.of_eq fun w => ⟨_, build_eq d pps w, ?_⟩
  have hcount : (8 - w.pos % 8) % 8 ≤ 7 := by omega
  refine Needs.ite (fun _ => ?_) fun _ => Needs.ite (fun _ => ?_) fun hmode => ?_
  · have hown : Needs (NalError.Refuses (d.MessageOverflows pps)) _
        (reportFaults (Build.u ((8 - w.pos % 8) % 8) d.alignmentBits.toNat)) :=
      (Build.needs_u _ _).report fun _ => NalError.refuses_ofFault
    exact (hown.mono hcount).bind fun _ => hbytes
  · have hones : Needs (NalError.Refuses (d.MessageOverflows pps)) _
        (reportFaults (Build.ones ((8 - w.pos % 8) % 8))) := (Build.needs_ones _).report_of_safe
    exact (hones.mono hcount).bind fun _ => hbytes
  · -- The offset that the message tells overflows, or the message is the error.
    refine Needs.mono ?_ (Nat.zero_le _)
    by_cases hoffset : d.alignmentBitCount.toNat ≤ 8
    · rw [difference_eq hoffset]
      exact Needs.throw ⟨nofun, nofun, nofun⟩
    · have hover : d.MessageOverflows pps := ⟨eq_false_of_ne_true hmode, by omega⟩
      rw [difference_eq_error (by omega)]
      exact Needs.throw (NalError.refuses_overflow hover)

section Slices

/-- Whether the counts of reference pictures that slices may take from picture parameter sets are
in range. -/
def ParameterSets.CountsInRange (sets : ParameterSets) : Prop :=
  ∀ id p, sets.pps id = some p →
    p.numRefIdxL0DefaultActiveMinus1.toNat ≤ 31 ∧ p.numRefIdxL1DefaultActiveMinus1.toNat ≤ 31

variable {sets : ParameterSets}

theorem SliceHeader.needs_build (hsets : sets.CountsInRange) (h : SliceHeader) (nal : NalHeader) :
    Needs (NalError.Refuses (sets.ChangeCycleOverflows h.ppsId)) 60195 (h.build nal sets) := by
  unfold build code
  cases hresolve : sets.resolve h.ppsId with
  | error e =>
    exact (Needs.throw (ParameterSets.refuses_of_resolve hresolve)).mono (Nat.zero_le _)
  | ok known =>
    obtain ⟨pps, sps⟩ := known
    obtain ⟨hl0, hl1⟩ := hsets h.ppsId pps (ParameterSets.resolve_eq_ok.mp hresolve).1
    have hlength := (atMost_openingCode h).append (atMost_bodyCode h nal pps sps hl0 hl1)
    rw [ParameterSets.changeCycleOverflows_iff hresolve]
    refine (Code.needs_write (fun _ => .inl) (fun _ => kind_of_fault) hlength).report ?_
    rintro fault (hvalue | ⟨rfl, hover⟩)
    · exact NalError.refuses_ofFault hvalue
    · exact NalError.refuses_overflow hover

theorem SliceLayer.needs_build (hsets : sets.CountsInRange) (l : SliceLayer) (nal : NalHeader) :
    Needs (NalError.Refuses (sets.ChangeCycleOverflows l.header.ppsId ∨ l.MessageOverflows sets))
      (61000 + 8 * (l.data.elim 0 fun d => d.bytes.length)) (l.build nal sets) := by
  unfold build
  have hheader := (l.header.needs_build hsets nal).weaken fun _ he =>
    he.mono (.inl : _ → _ ∨ l.MessageOverflows sets)
  cases hdata : l.data with
  | none =>
    refine (hheader.bind fun _ => Build.needs_trailingBits.report_of_safe).mono ?_
    simp
  | some d =>
    refine (hheader.bind (n := 7 + 8 * d.bytes.length) fun _ => ?_).mono ?_
    · cases hresolve : sets.resolve l.header.ppsId with
      | error e =>
        exact (Needs.throw (ParameterSets.refuses_of_resolve hresolve)).mono (Nat.zero_le _)
      | ok known =>
        refine (d.needs_build known.1).weaken fun _ he => he.mono fun hover => ?_
        exact .inr ⟨d, known.1, known.2, hdata, hresolve, hover⟩
    · simp only [Option.elim]
      omega

end Slices

/-- Whether a payload has a number that overflows when it is written. Only slices have such ones. -/
def NalPayload.Overflows (p : NalPayload) (sets : ParameterSets) : Prop :=
  ∃ l, p = .slice l ∧ (sets.ChangeCycleOverflows l.header.ppsId ∨ l.MessageOverflows sets)

variable {sets : ParameterSets}

/-- A payload takes no more than what is set aside for it, less the header. -/
theorem NalPayload.needs_build (hsets : sets.CountsInRange) (p : NalPayload) (header : NalHeader) :
    Needs (NalError.Refuses (p.Overflows sets)) (131000 + 8 * p.unboundedSize)
      (p.build sets header) := by
  -- All payloads but slices are one code and its stop bit.
  have hclosed : ∀ {c : Code} {n : Nat}, c.RefusesValues → c.AtMost n →
      n + 8 ≤ 131000 + 8 * p.unboundedSize →
      Needs (NalError.Refuses (p.Overflows sets)) (131000 + 8 * p.unboundedSize)
        (do reportFaults c.write; reportFaults Build.trailingBits : Encode Unit) :=
    fun hc hn hle =>
      ((hc.needs_report hn).bind fun _ => Build.needs_trailingBits.report_of_safe).mono hle
  cases p with
  | slice l =>
    have hdata : (NalPayload.slice l).unboundedSize = l.data.elim 0 fun d => d.bytes.length := by
      rw [unboundedSize]
      cases l.data <;> rfl
    rw [hdata]
    exact ((l.needs_build hsets header).weaken fun _ he =>
      he.mono fun hover => ⟨l, rfl, hover⟩).mono (by omega)
  | sei messages =>
    have hmessages : (Code.concat (messages.map SeiMessage.code)).AtMost
        (messages.map fun m => 8 * m.size).sum :=
      Code.AtMost.concat_sum fun m _ => m.atMost_code
    have hsum : (NalPayload.sei messages).unboundedSize = (messages.map SeiMessage.size).sum := rfl
    refine hclosed (Code.refusesValues_concat SeiMessage.refusesValues_code) hmessages ?_
    rw [List.sum_map_mul_left]
    omega
  | sps s => exact hclosed s.refusesValues_code s.atMost_code (by omega)
  | pps p =>
    have hmap : (NalPayload.pps p).unboundedSize = p.explicitMapSize := rfl
    exact hclosed (p.refusesValues_code sets) (p.atMost_code sets) (by omega)
  | accessUnitDelimiter d =>
    exact hclosed (Code.refusesValues_u 3 d.primaryPicType.code) d.atMost_code (by omega)
  | endOfSequence | endOfStream => exact (Needs.pure ()).mono (Nat.zero_le _)

theorem NalHeader.atMost_code (h : NalHeader) : h.code.AtMost 8 :=
  (((Code.atMost_inRange _ _ _ _).append (Code.atMost_flag _)).append (Code.atMost_u 2 _)).append
    (Code.atMost_u 5 _)

namespace NalUnit

variable {config : StreamConfig} {u : NalUnit}

/-- The header and the end take less than two bytes. -/
theorem needs_build {E : NalError → Prop} (hheader : Needs E 8 (reportFaults u.header.code.write))
    (hpayload : Needs E (131000 + 8 * u.payload.unboundedSize) (u.payload.build sets u.header)) :
    Needs E (8 * (boundedSize + u.payload.unboundedSize)) (u.build sets) := by
  have hfinish : Needs E 7 (reportFaults Build.finish) := Build.needs_finish.report_of_safe
  have hend : Needs E 7 (do
      if (← get).overrun then throw .overrun
      Build.finish : Encode Nat) := by
    refine Needs.get fun w hover => ?_
    rw [if_neg (by simp [hover])]
    exact hfinish
  refine (hheader.bind fun _ => hpayload.bind fun _ => hend).mono ?_
  have hbounded : boundedSize = 16384 := rfl
  omega

/-- A unit that needs no more than the room set aside for it is written, or refused. -/
theorem encode_of_needs {E : NalError → Prop} (hfits : u.payload.fits u.header.unitType = true)
    (h : Needs E (8 * (boundedSize + u.payload.unboundedSize)) (u.build sets)) :
    (∃ w, u.encode config sets = .ok w) ∨ ∃ e, u.encode config sets = .error e ∧ E e := by
  have hbuilt := h (u.buffer config) rfl (remaining_buffer config u).ge
  cases hcases : u.build sets (u.buffer config) with
  | ok size w =>
    left
    refine ⟨escaped 0 (w.data.extract 0 size).toList, ?_⟩
    rw [encode, encodePlain_of_ok hfits hcases]
    exact escape_eq _
  | error e w =>
    rw [hcases] at hbuilt
    refine .inr ⟨e, ?_, hbuilt⟩
    rw [encode, encodePlain_of_error hfits hcases]
    rfl

end NalUnit

end Builders

namespace Stream

end Stream

end AvcSyntax

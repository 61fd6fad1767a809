import AvcSyntax.Proofs.Bits.Safety
import AvcSyntax.Proofs.Slice.Layer
import AvcSyntax.Proofs.Slice.Overflow

/-!
# Where slices overflow

The parameter sets that a slice is read and written under may hold anything, and so may a slice that
is written. Even then reading and writing stay inside their buffer, and there are only two places
where they overflow: the width of the count of slice group changes, which needs one more than each
field of the picture's size, and the message that data cannot be moved, which tells an offset.

Reading a header is reading what stands in front of the count and then the count, and writing is the
same. The front overflows nowhere.
-/
namespace AvcSyntax

section Fields

/-! Everything in front of the count, record by record. -/

theorem Parse.safe_int32 : Parse.int32.Safe := (Parse.safe_seWithin _ _ _).bind fun _ => .pure _

theorem Parse.safe_ueInList (list : String) : (Parse.ueInList list).Safe := by
  refine Parse.safe_mapFault (fun fault hfault => ?_) Parse.safe_ue
  split
  · nofun
  · exact hfault

theorem Parse.safe_operand (list : String) : (Parse.operand list).Safe :=
  (Parse.safe_ueInList list).bind fun _ => (Parse.safe_inRange _ _ _ _).bind fun _ => .pure _

theorem Parse.safe_operations {α : Type} {next : Parse (Option α)} (hnext : next.Safe)
    (list : String) (room : Nat) : (Parse.operations list next room).Safe := by
  induction room with
  | zero =>
    refine hnext.bind fun found => ?_
    cases found with
    | none => exact .pure []
    | some op => exact .throw nofun
  | succ room ih =>
    refine hnext.bind fun found => ?_
    cases found with
    | none => exact .pure []
    | some op => exact ih.bind fun _ => .pure _

theorem RefListOperation.safe_parse? : parse?.Safe := by
  refine (Parse.safe_ueInList listName).bind fun idc => ?_
  split
  · exact (Parse.safe_operand listName).bind fun _ => .pure _
  · exact (Parse.safe_operand listName).bind fun _ => .pure _
  · exact (Parse.safe_operand listName).bind fun _ => .pure _
  · exact .pure none
  · exact .throw nofun

theorem RefListModification.safe_parse (type : SliceType) : (parse type).Safe := by
  have hlist : RefListOperation.parseList.Safe :=
    Parse.safe_optional (Parse.safe_operations RefListOperation.safe_parse? _ _)
  simp only [parse, ite_bind]
  exact (Stays.unless hlist none).bind fun _ => (Stays.onlyIf hlist none).bind fun _ => .pure _

theorem MarkingOperation.safe_parse? : parse?.Safe := by
  have hoperand := Parse.safe_operand listName
  refine (Parse.safe_ueInList listName).bind fun op => ?_
  split
  · exact .pure none
  · exact hoperand.bind fun _ => .pure _
  · exact hoperand.bind fun _ => .pure _
  · exact hoperand.bind fun _ => hoperand.bind fun _ => .pure _
  · exact hoperand.bind fun _ => .pure _
  · exact .pure _
  · exact hoperand.bind fun _ => .pure _
  · exact .throw nofun

theorem RefPicMarking.safe_parse (isIdr : Bool) : (parse isIdr).Safe := by
  refine .ite (fun _ => ?_) fun _ => ?_
  · exact Parse.safe_flag.bind fun _ => Parse.safe_flag.bind fun _ => .pure _
  · refine Parse.safe_flag.bind fun _ => .ite (fun _ => ?_) fun _ => .pure _
    exact (Parse.safe_operations MarkingOperation.safe_parse? _ _).bind fun _ => .pure _

theorem WeightOffset.safe_parse : parse.Safe :=
  (Parse.safe_seWithin _ _ _).bind fun _ => (Parse.safe_seWithin _ _ _).bind fun _ => .pure _

theorem PredWeight.safe_parse (hasChroma : Bool) : (parse hasChroma).Safe := by
  have hpair : Parse.Safe (do
      let cb ← WeightOffset.parse
      let cr ← WeightOffset.parse
      return (cb, cr)) :=
    WeightOffset.safe_parse.bind fun _ => WeightOffset.safe_parse.bind fun _ => .pure _
  simp only [parse, ite_bind]
  refine (Parse.safe_optional WeightOffset.safe_parse).bind fun luma => ?_
  exact (Stays.onlyIf (Parse.safe_optional hpair) none).bind fun _ => .pure _

theorem PredWeightTable.safe_parse (chromaArrayType l0Minus1 : UInt8) (l1Minus1 : Option UInt8) :
    (parse chromaArrayType l0Minus1 l1Minus1).Safe := by
  have hentries (count : Nat) := Parse.safe_times (PredWeight.safe_parse (chromaArrayType != 0)) count
  simp only [parse, ite_bind]
  refine (Parse.safe_ueUpTo _ _).bind fun luma => ?_
  refine (Stays.onlyIf (Parse.safe_ueUpTo _ _) 0).bind fun chroma => ?_
  exact (hentries _).bind fun l0 => (hentries _).bind fun l1 => .pure _

/-- A width may be refused, but it does not overflow. -/
theorem Parse.safe_widthAbove4 (quantity : String) (minus4 : UInt8) :
    Parse.Safe (liftM (widthAbove4 quantity minus4)) := by
  refine .ofExcept fun fault hfault => ?_
  rw [widthAbove4] at hfault
  cases hrange : rangeFault? quantity 0 12 minus4.toNat with
  | some limit =>
    rw [hrange] at hfault
    cases hfault
    exact Fault.ne_overflow (kind_of_rangeFault? hrange)
  | none =>
    have hle := (rangeFault?_eq_none.mp hrange).2
    rw [hrange] at hfault
    cases (natWord_eq (show minus4.toNat + 4 < 2 ^ 8 by omega)).symm.trans hfault

theorem SlicePicOrder.safe_parse (count : PicOrderCount) (hasBottom : Bool) :
    (parse count hasBottom).Safe := by
  cases count with
  | lowBits log2 =>
    simp only [parse, ite_bind]
    refine (Parse.safe_widthAbove4 _ _).bind fun width => (Parse.safe_u width).bind fun lsb => ?_
    exact (Stays.onlyIf Parse.safe_int32 0).bind fun _ => .pure _
  | cycle c =>
    simp only [parse, ite_bind]
    refine .unless (Parse.safe_int32.bind fun delta0 => ?_) _
    exact (Stays.onlyIf Parse.safe_int32 0).bind fun _ => .pure _
  | decodingOrder => exact .pure _

theorem RefCounts.safe_parse (type : SliceType) (pps : Pps) : (parse type pps).Safe := by
  simp only [parse, ite_bind]
  refine (Stays.onlyIf Parse.safe_flag false).bind fun overridden => .ite (fun _ => ?_) fun _ => ?_
  · refine (Parse.safe_ueUpTo _ _).bind fun l0 => ?_
    exact (Stays.onlyIf ((Parse.safe_ueUpTo _ _).map _) _).bind fun _ => .pure _
  · exact .pure _

theorem SliceDeblocking.safe_parse : parse.Safe := by
  have hoffset : parseOffset.Safe := (Parse.safe_seWithin _ _ _).bind fun _ => .pure _
  refine (Parse.safe_ueUpTo _ _).bind fun disableIdc => .ite (fun _ => .pure _) fun _ => ?_
  exact hoffset.bind fun _ => hoffset.bind fun _ => .pure _

namespace SliceHeader

theorem safe_parseOpening : parseOpening.Safe := by
  refine (Parse.safe_ueUpTo _ _).bind fun firstMb => Parse.safe_ue.bind fun code => ?_
  refine Stays.bind (.ofExcept fun fault hfault => ?_) fun type =>
    (Parse.safe_ueUpTo _ _).bind fun ppsId => .pure _
  rw [SliceType.ofCode] at hfault
  cases hrange : rangeFault? "slice_type" 0 9 code with
  | some limit =>
    rw [hrange] at hfault
    cases hfault
    exact Fault.ne_overflow (kind_of_rangeFault? hrange)
  | none =>
    rw [hrange] at hfault
    cases hfault

theorem safe_parseColourPlane : parseColourPlane.Safe :=
  (Parse.safe_u 2).bind fun _ => (Parse.safe_inRange _ _ _ _).bind fun _ => .pure _

/-- Without slice groups a header overflows nowhere. -/
theorem safe_parseBody (nal : NalHeader) (pps : Pps) (sps : Sps) (opening : SliceHeader) :
    (parseBody nal pps.ungrouped sps opening).Safe := by
  have habsent : parseChangeCycle pps.ungrouped sps = pure 0 := rfl
  simp only [parseBody, ite_bind, habsent]
  refine (Stays.onlyIf safe_parseColourPlane 0).bind fun colourPlaneId => ?_
  refine (Parse.safe_widthAbove4 _ _).bind fun width => (Parse.safe_u width).bind fun frameNum => ?_
  refine (Stays.unless Parse.safe_flag false).bind fun fieldPic => ?_
  refine (Stays.onlyIf Parse.safe_flag false).bind fun bottomField => ?_
  refine (Stays.onlyIf (Parse.safe_ueUpTo _ _) 0).bind fun idrPicId => ?_
  refine (SlicePicOrder.safe_parse _ _).bind fun picOrder => ?_
  refine (Stays.onlyIf (Parse.safe_ueUpTo _ _) 0).bind fun redundantPicCnt => ?_
  refine (Stays.onlyIf Parse.safe_flag false).bind fun directSpatialMvPred => ?_
  refine (RefCounts.safe_parse _ _).bind fun refCounts => ?_
  refine (RefListModification.safe_parse _).bind fun refListModification => ?_
  refine (Stays.onlyIf ((PredWeightTable.safe_parse _ _ _).map some) none).bind fun table => ?_
  refine (Stays.onlyIf ((RefPicMarking.safe_parse _).map some) none).bind fun marking => ?_
  refine (Stays.onlyIf (Parse.safe_ueUpTo _ _) 0).bind fun cabacInitIdc => ?_
  rw [check_bind (qpDeltaLimits_eq sps pps.ungrouped)]
  refine (Parse.safe_seWithin _ _ _).bind fun qpDelta => ?_
  refine (Stays.onlyIf Parse.safe_flag false).bind fun spForSwitch => ?_
  refine (Stays.onlyIf (Parse.safe_seWithin _ _ _) 0).bind fun qsDelta => ?_
  exact (Stays.onlyIf SliceDeblocking.safe_parse {}).bind fun deblocking => .pure _

end SliceHeader

end Fields

/-- Begun with this cursor the action ends with an overflow. -/
def OverflowsAt {σ α : Type} (p : EStateM NalError σ α) (s : σ) : Prop :=
  ∃ t, p s = .error .overflow t

section Overflows

variable {σ α β : Type} {I : σ → Prop} {p : EStateM NalError σ α}
  {f : α → EStateM NalError σ β} {s : σ}

theorem Stays.not_overflowsAt (hp : Stays I (· ≠ .overflow) p) (hs : I s) :
    ¬OverflowsAt p s := fun ⟨_, h⟩ => (hp.of_error hs h).2 rfl

theorem overflowsAt_bind :
    OverflowsAt (p >>= f) s ↔
      OverflowsAt p s ∨ ∃ a t, p s = .ok a t ∧ OverflowsAt (f a) t := by
  constructor
  · rintro ⟨u, h⟩
    rcases bind_eq_error.mp h with hfirst | ⟨a, t, ha, hlater⟩
    · exact .inl ⟨u, hfirst⟩
    · exact .inr ⟨a, t, ha, u, hlater⟩
  · rintro (⟨u, hfirst⟩ | ⟨a, t, ha, u, hlater⟩)
    · exact ⟨u, bind_eq_error.mpr (.inl hfirst)⟩
    · exact ⟨u, bind_eq_error.mpr (.inr ⟨a, t, ha, hlater⟩)⟩

/-- Behind what does not overflow. -/
theorem overflowsAt_behind (hp : Stays I (· ≠ .overflow) p) (hs : I s) :
    OverflowsAt (p >>= f) s ↔ ∃ a t, p s = .ok a t ∧ OverflowsAt (f a) t := by
  rw [overflowsAt_bind, or_iff_right (hp.not_overflowsAt hs)]

/-- In front of what does not overflow. -/
theorem overflowsAt_inFront {G : NalError → Prop} (hp : Stays I G p)
    (hf : ∀ a, Stays I (· ≠ .overflow) (f a)) (hs : I s) :
    OverflowsAt (p >>= f) s ↔ OverflowsAt p s := by
  rw [overflowsAt_bind, or_iff_left]
  rintro ⟨a, t, ha, hlater⟩
  exact (hf a).not_overflowsAt (hp.of_ok hs ha) hlater

end Overflows

theorem ParameterSets.ne_overflow_of_resolve {sets : ParameterSets} {id : UInt8} {e : NalError}
    (h : sets.resolve id = .error e) : e ≠ .overflow := by
  rw [resolve] at h
  rintro rfl
  split at h
  · cases h
  · split at h <;> cases h

/-- What follows the parameter sets overflows only if they are known. -/
theorem ParameterSets.overflowsAt_resolve {σ α : Type} {sets : ParameterSets} {id : UInt8}
    {g : Pps × Sps → EStateM NalError σ α} {s : σ} :
    OverflowsAt (do g (← sets.resolve id)) s ↔
      ∃ pps sps, sets.resolve id = .ok (pps, sps) ∧ OverflowsAt (g (pps, sps)) s := by
  cases hsets : sets.resolve id with
  | error e =>
    refine iff_of_false ?_ (by simp)
    rintro ⟨t, ⟨⟩⟩
    exact ne_overflow_of_resolve hsets rfl
  | ok found =>
    constructor
    · exact fun hover => ⟨found.1, found.2, rfl, hover⟩
    · rintro ⟨_, _, ⟨⟩, hover⟩
      exact hover

namespace SliceHeader

/-- Every field is read behind the one before it, and what is put together names the same parameter
set. -/
theorem ppsId_of_parseBody {nal : NalHeader} {pps : Pps} {sps : Sps} {opening h : SliceHeader}
    {r s : Reader} (hparse : parseBody nal pps sps opening r = .ok h s) :
    h.ppsId = opening.ppsId := by
  simp only [parseBody, ite_bind] at hparse
  repeat obtain ⟨_, _, _, hparse⟩ := bind_eq_ok.mp hparse
  cases hparse
  rfl

/-- The count of slice group changes is read behind everything else. -/
theorem parseBody_eq (nal : NalHeader) (pps : Pps) (sps : Sps) (opening : SliceHeader) :
    parseBody nal pps sps opening = (do
      let h ← parseBody nal pps.ungrouped sps opening
      let cycle ← parseChangeCycle pps sps
      return h.setChangeCycle cycle.toUInt32) := by
  have habsent : parseChangeCycle pps.ungrouped sps = pure 0 := rfl
  have hlimits : qpDeltaRange sps pps.ungrouped = qpDeltaRange sps pps := rfl
  simp only [parseBody, ite_bind, habsent, check_bind (qpDeltaLimits_eq sps _), hlimits]
  simp only [bind_assoc, pure_bind]
  rfl

theorem parse_eq (nal : NalHeader) (sets : ParameterSets) :
    parse nal sets = (do
      let h ← parse nal sets.ungrouped
      let found ← sets.resolve h.ppsId
      let cycle ← parseChangeCycle found.1 found.2
      return h.setChangeCycle cycle.toUInt32) := by
  funext r
  rw [parse, parse, bind_assoc]
  refine bind_congr_at rfl fun opening s _ => ?_
  rw [sets.resolve_ungrouped]
  cases hsets : sets.resolve opening.ppsId with
  | error e => rfl
  | ok found =>
    have hbody : reportFaults (parseBody nal found.1 found.2 opening) s =
        (do
          let h ← reportFaults (parseBody nal found.1.ungrouped found.2 opening)
          let cycle ← parseChangeCycle found.1 found.2
          return h.setChangeCycle cycle.toUInt32 : Decode SliceHeader) s := by
      rw [parseBody_eq nal found.1, reportFaults_bind]
      refine bind_congr_at rfl fun h t _ => ?_
      rw [reportFaults_bind]
      rfl
    refine hbody.trans (bind_congr_at rfl fun h t hfront => ?_)
    have hid : h.ppsId = opening.ppsId := ppsId_of_parseBody (reportFaults_eq_ok.mp hfront)
    rw [hid, check_bind hsets]

variable {nal : NalHeader} {sets : ParameterSets}

theorem stays_parse_ungrouped (nal : NalHeader) (sets : ParameterSets) :
    Stays Reader.Fits (· ≠ .overflow) (parse nal sets.ungrouped) := by
  refine safe_parseOpening.report_safe.bind fun opening => ?_
  rw [sets.resolve_ungrouped]
  cases hsets : sets.resolve opening.ppsId with
  | error e => exact .throw (ParameterSets.ne_overflow_of_resolve hsets)
  | ok found =>
    exact (safe_parseBody nal found.1 found.2 opening).report_safe

/-- The width of the count is all that may overflow. -/
theorem overflowsAt_parseChangeCycle {pps : Pps} {sps : Sps} {r : Reader} (hr : r.Fits) :
    OverflowsAt (reportFaults (parseChangeCycle pps sps)) r ↔ ChangeCycleOverflows pps sps := by
  rw [parseChangeCycle, ChangeCycleOverflows]
  cases pps.sliceGroupChangeRate? with
  | none =>
    have hpure : (Pure.pure 0 : Parse Nat).Safe := .pure 0
    refine iff_of_false ?_ fun hover => Bool.false_ne_true hover.1
    exact hpure.report_safe.not_overflowsAt hr
  | some rate =>
    by_cases hsize : sps.SizeOverflows
    · refine iff_of_true ⟨r, ?_⟩ ⟨rfl, hsize⟩
      dsimp only
      rw [Sps.changeCycleBits_eq_error hsize]
      rfl
    · obtain ⟨width, hwidth⟩ := Sps.exists_changeCycleBits hsize rate
      refine iff_of_false ?_ fun hover => hsize hover.2
      dsimp only
      rw [check_bind hwidth]
      exact (Parse.safe_u width).report_safe.not_overflowsAt hr

theorem stays_parseChangeCycle (pps : Pps) (sps : Sps) :
    Stays Reader.Fits (fun _ => True) (reportFaults (parseChangeCycle pps sps)) := by
  refine Stays.report (F := fun _ => True) ?_ fun _ _ => trivial
  rw [parseChangeCycle]
  cases pps.sliceGroupChangeRate? with
  | none => exact .pure 0
  | some rate =>
    refine Stays.bind (.ofExcept fun _ _ => trivial) fun width => ?_
    exact (Parse.safe_u width).forget

theorem stays_parse (nal : NalHeader) (sets : ParameterSets) :
    Stays Reader.Fits (fun _ => True) (parse nal sets) := by
  rw [parse_eq]
  refine (stays_parse_ungrouped nal sets).forget.bind fun h => ?_
  refine Stays.bind (.ofExcept fun _ _ => trivial) fun found => ?_
  exact (stays_parseChangeCycle found.1 found.2).bind fun cycle => .pure _

/-- Reading a header overflows if everything in front of the count of slice group changes is read,
and the width of the count depends on a size that overflows. -/
theorem overflowsAt_parse {r : Reader} (hr : r.Fits) (nal : NalHeader) (sets : ParameterSets) :
    OverflowsAt (parse nal sets) r ↔
      ∃ h s, parse nal sets.ungrouped r = .ok h s ∧ sets.ChangeCycleOverflows h.ppsId := by
  rw [parse_eq, overflowsAt_behind (stays_parse_ungrouped nal sets) hr]
  refine exists_congr fun h => exists_congr fun s => and_congr_right fun hfront => ?_
  have hs := (stays_parse_ungrouped nal sets).of_ok hr hfront
  rw [ParameterSets.overflowsAt_resolve]
  refine exists_congr fun pps => exists_congr fun sps => and_congr_right fun _ => ?_
  rw [← overflowsAt_parseChangeCycle hs]
  exact overflowsAt_inFront (stays_parseChangeCycle _ _) (fun cycle => .pure _) hs

section Building

variable {h : SliceHeader} {w : Writer}

theorem build_eq (h : SliceHeader) (nal : NalHeader) (sets : ParameterSets) :
    h.build nal sets = (do
      h.build nal sets.ungrouped
      let found ← sets.resolve h.ppsId
      (changeCycleCode found.1 found.2 h.groupChangeCycle).write) := by
  funext w
  simp only [build, code, sets.resolve_ungrouped]
  cases sets.resolve h.ppsId with
  | error e => rfl
  | ok found =>
    have hwrite : reportFaults (h.openingCode ++ h.bodyCode nal found.1 found.2).write w =
        (do
          reportFaults (h.openingCode ++ h.bodyCode nal found.1.ungrouped found.2).write
          reportFaults (changeCycleCode found.1 found.2 h.groupChangeCycle).write) w := by
      rw [bodyCode_eq_append h nal found.1, ← Code.append_assoc, Code.write_append,
        reportFaults_bind]
    exact hwrite

theorem stays_build_ungrouped (h : SliceHeader) (nal : NalHeader) (sets : ParameterSets) :
    Stays Writer.Fits (· ≠ .overflow) (h.build nal sets.ungrouped) := by
  simp only [build, code, sets.resolve_ungrouped]
  cases hsets : sets.resolve h.ppsId with
  | error e => exact .throw (ParameterSets.ne_overflow_of_resolve hsets)
  | ok found =>
    have hfront := refusesValues_front h nal found.1 found.2
    have hwrite : Stays Writer.Fits (· ≠ Fault.overflow)
        (h.openingCode ++ h.bodyCode nal found.1.ungrouped found.2).write := by
      refine Code.stays_write (fun _ hne => hne) fun fault hfault => ?_
      rintro rfl
      cases hfront _ hfault
    exact hwrite.report_safe

theorem stays_writeChangeCycle (pps : Pps) (sps : Sps) (cycle : UInt32) :
    Stays Writer.Fits (fun _ => True) (reportFaults (changeCycleCode pps sps cycle).write) :=
  (Code.stays_write (F := fun _ => True) (fun _ _ => trivial) fun _ _ => trivial).report
    fun _ _ => trivial

theorem overflowsAt_writeChangeCycle (hw : w.Fits) (pps : Pps) (sps : Sps) (cycle : UInt32) :
    OverflowsAt (reportFaults (changeCycleCode pps sps cycle).write) w ↔
      ChangeCycleOverflows pps sps := by
  by_cases hover : ChangeCycleOverflows pps sps
  · rw [changeCycleCode_of_overflows hover]
    exact iff_of_true ⟨w, rfl⟩ hover
  · have hwrite : Stays Writer.Fits (· ≠ Fault.overflow) (changeCycleCode pps sps cycle).write := by
      refine Code.stays_write (fun _ hne => hne) fun fault hfault => ?_
      cases (fault_changeCycleCode hover cycle).symm.trans hfault
    refine iff_of_false ?_ hover
    exact hwrite.report_safe.not_overflowsAt hw

theorem stays_build (h : SliceHeader) (nal : NalHeader) (sets : ParameterSets) :
    Stays Writer.Fits (fun _ => True) (h.build nal sets) := by
  rw [build_eq]
  refine (stays_build_ungrouped h nal sets).forget.bind fun _ => ?_
  refine Stays.bind (.ofExcept fun _ _ => trivial) fun found => ?_
  exact stays_writeChangeCycle found.1 found.2 _

/-- Writing a header overflows if everything in front of the count of slice group changes is
written, and the width of the count depends on a size that overflows. -/
theorem overflowsAt_build (hw : w.Fits) (h : SliceHeader) (nal : NalHeader)
    (sets : ParameterSets) :
    OverflowsAt (h.build nal sets) w ↔
      ∃ v, h.build nal sets.ungrouped w = .ok () v ∧ sets.ChangeCycleOverflows h.ppsId := by
  rw [build_eq, overflowsAt_behind (stays_build_ungrouped h nal sets) hw]
  refine Unique.exists_iff.trans (exists_congr fun v => and_congr_right fun hfront => ?_)
  have hv := (stays_build_ungrouped h nal sets).of_ok hw hfront
  rw [ParameterSets.overflowsAt_resolve]
  refine exists_congr fun pps => exists_congr fun sps => and_congr_right fun _ => ?_
  exact overflowsAt_writeChangeCycle hv pps sps _

end Building

end SliceHeader

namespace SliceData

theorem safe_parse : parse.Safe := by
  refine .get fun r _ => (Parse.safe_u _).bind fun bits => .get fun s _ => .get fun t _ => ?_
  exact (Parse.safe_skip _).bind fun _ => .pure _

theorem safe_ones (count : Nat) : (Build.ones count).Safe := by
  induction count with
  | zero => exact .pure ()
  | succ count ih => exact (Build.safe_flag true).bind fun _ => ih

/-- The message is all that may overflow. -/
theorem stays_build (d : SliceData) (pps : Pps) :
    Stays Writer.Fits (fun e => e = .overflow → d.MessageOverflows pps) (d.build pps) := by
  have hsafe {p : Build Unit} (hp : p.Safe) :
      Stays Writer.Fits (fun e => e = .overflow → d.MessageOverflows pps) (do
        reportFaults p
        reportFaults (Build.bytes d.bytes)) :=
    (hp.report_safe.bind fun _ => (Build.safe_bytes d.bytes).report_safe).weaken
      fun _ hne he => absurd he hne
  refine .get fun w _ => .ite (fun _ => hsafe (Build.safe_u _ _)) fun _ =>
    .ite (fun _ => hsafe (safe_ones _)) fun hmode => ?_
  by_cases hcount : d.alignmentBitCount.toNat ≤ 8
  · rw [difference_eq hcount]
    exact .throw nofun
  · rw [difference_eq_error (by omega)]
    exact .throw fun _ => ⟨eq_false_of_ne_true hmode, by omega⟩

theorem overflowsAt_build {w : Writer} (hw : w.Fits) (d : SliceData) (pps : Pps) :
    OverflowsAt (d.build pps) w ↔ d.MessageOverflows pps := by
  constructor
  · rintro ⟨v, hv⟩
    exact ((stays_build d pps).of_error hw hv).2 rfl
  · rintro ⟨hmode, hcount⟩
    refine ⟨w, ?_⟩
    rw [build_eq, if_neg (by omega), if_neg (by simp [hmode]), difference_eq_error hcount]
    rfl

end SliceData

namespace SliceLayer

variable {nal : NalHeader} {sets : ParameterSets}

/-- Behind its header a slice overflows nowhere when it is read. -/
theorem stays_behindHeader (sets : ParameterSets) (strict : Bool) (header : SliceHeader) :
    Stays Reader.Fits (· ≠ .overflow) (do
      let (pps, _) ← sets.resolve header.ppsId
      if ← Parse.moreData then
        let data ← SliceData.parse
        return { header, data := some data }
      else
        Parse.sliceTrailingBits pps.entropyCodingMode strict
        return { header } : Decode SliceLayer) := by
  refine Stays.bind (.ofExcept fun _ => ParameterSets.ne_overflow_of_resolve) fun found => ?_
  refine Parse.safe_moreData.report_safe.bind fun more => .ite (fun _ => ?_) fun _ => ?_
  · exact SliceData.safe_parse.report_safe.bind fun data => .pure _
  · exact (Parse.safe_sliceTrailingBits _ strict).report_safe.bind fun _ => .pure _

theorem stays_parse (nal : NalHeader) (sets : ParameterSets) (strict : Bool) :
    Stays Reader.Fits (fun _ => True) (parse nal sets strict) :=
  (SliceHeader.stays_parse nal sets).bind fun header =>
    (stays_behindHeader sets strict header).forget

theorem overflowsAt_parse {r : Reader} (hr : r.Fits) (nal : NalHeader) (sets : ParameterSets)
    (strict : Bool) :
    OverflowsAt (parse nal sets strict) r ↔
      ∃ h s, SliceHeader.parse nal sets.ungrouped r = .ok h s ∧
        sets.ChangeCycleOverflows h.ppsId :=
  (overflowsAt_inFront (SliceHeader.stays_parse nal sets) (stays_behindHeader sets strict) hr).trans
    (SliceHeader.overflowsAt_parse hr nal sets)

theorem stays_build (slice : SliceLayer) (nal : NalHeader) (sets : ParameterSets) :
    Stays Writer.Fits (fun _ => True) (slice.build nal sets) := by
  refine (slice.header.stays_build nal sets).bind fun _ => ?_
  cases slice.data with
  | none => exact Build.safe_trailingBits.report_safe.forget
  | some d =>
    refine Stays.bind (.ofExcept fun _ _ => trivial) fun found => ?_
    exact (d.stays_build found.1).forget

/-- Behind its header a slice overflows where the message of its data does. -/
theorem overflowsAt_build {w : Writer} (hw : w.Fits) (slice : SliceLayer) (nal : NalHeader)
    (sets : ParameterSets) :
    OverflowsAt (slice.build nal sets) w ↔
      (∃ v, slice.header.build nal sets.ungrouped w = .ok () v ∧
        sets.ChangeCycleOverflows slice.header.ppsId) ∨
      ∃ v, slice.header.build nal sets w = .ok () v ∧ slice.MessageOverflows sets := by
  rw [build, overflowsAt_bind, SliceHeader.overflowsAt_build hw]
  refine or_congr_right (Unique.exists_iff.trans (exists_congr fun v => and_congr_right
    fun hheader => ?_))
  have hv := (slice.header.stays_build nal sets).of_ok hw hheader
  rw [MessageOverflows]
  cases slice.data with
  | none =>
    refine iff_of_false ?_ (by simp)
    exact Build.safe_trailingBits.report_safe.not_overflowsAt hv
  | some d =>
    have hdata : OverflowsAt (do
        let found ← sets.resolve slice.header.ppsId
        d.build found.1 : Encode Unit) v ↔
          ∃ pps sps, sets.resolve slice.header.ppsId = .ok (pps, sps) ∧ d.MessageOverflows pps := by
      simp only [ParameterSets.overflowsAt_resolve, SliceData.overflowsAt_build hv]
    refine Iff.trans hdata ?_
    simp

/-- Whatever the parameter sets and the slice hold, reading and writing a slice stay inside the
buffer and end with a result or an error. An overflow is the error of two cases only. In one the
count of slice group changes follows, and a field of the picture's size is the largest word. In the
other a message is due for data with a count of more than eight bits. -/
theorem overflow_outcome (nal : NalHeader) (sets : ParameterSets) :
    (∀ strict : Bool, Stays Reader.Fits (fun _ => True) (parse nal sets strict) ∧
      ∀ r : Reader, r.Fits → ((∃ s, parse nal sets strict r = .error .overflow s) ↔
        ∃ h s, SliceHeader.parse nal sets.ungrouped r = .ok h s ∧
          sets.ChangeCycleOverflows h.ppsId)) ∧
    ∀ slice : SliceLayer, Stays Writer.Fits (fun _ => True) (slice.build nal sets) ∧
      ∀ w : Writer, w.Fits → ((∃ v, slice.build nal sets w = .error .overflow v) ↔
        (∃ v, slice.header.build nal sets.ungrouped w = .ok () v ∧
          sets.ChangeCycleOverflows slice.header.ppsId) ∨
        ∃ v, slice.header.build nal sets w = .ok () v ∧ slice.MessageOverflows sets) :=
  ⟨fun strict => ⟨stays_parse nal sets strict, fun _ hr => overflowsAt_parse hr nal sets strict⟩,
    fun slice => ⟨slice.stays_build nal sets, fun _ hw => overflowsAt_build hw slice nal sets⟩⟩

/-- A picture of `2 ^ 64` macroblocks whose slice groups change, and data with a count of nine
bits. Under other parameter sets the same slice is read. -/
theorem overflow_outcome_edited :
    let nal : NalHeader := ⟨0, .nonIdrSlice⟩
    let pps : Pps := { sliceGroups := some { map := .changing 3 false 0 } }
    let sps : Sps := { picWidthInMbsMinus1 := 18446744073709551615 }
    let edited : ParameterSets := { sps := fun _ => some sps, pps := fun _ => some pps }
    let plain : ParameterSets := { sps := fun _ => some {}, pps := fun _ => some {} }
    let moved : SliceLayer := { data := some { alignmentBitCount := 9 } }
    let r : Reader := { data := #[136, 128, 64, 0, 0, 1, 96] }
    let w : Writer := { data := #[0, 0, 0, 0] }
    r.Fits ∧ w.Fits ∧ (∃ s, parse nal edited false r = .error .overflow s) ∧
      ¬(∃ s, parse nal plain false r = .error .overflow s) ∧
      ∃ v, moved.build nal plain w = .error .overflow v := by
  intro nal pps sps edited plain moved r w
  have hr : r.Fits := ⟨Nat.zero_le _, by decide⟩
  have hw : w.Fits := ⟨Nat.zero_le _, by decide⟩
  let header : SliceHeader := { type := .i, allSlicesSameType := true }
  have hfront : SliceHeader.parse nal edited.ungrouped r = .ok header { r with pos := 18 } := by
    cbv
  have hheader : moved.header.build nal plain w =
      .ok () { w with data := #[224, 4, 0, 0], pos := 14 } := by cbv
  have hparse := ((overflow_outcome nal edited).1 false).2 r hr
  have hplain := ((overflow_outcome nal plain).1 false).2 r hr
  have hbuild := ((overflow_outcome nal plain).2 moved).2 w hw
  refine ⟨hr, hw, hparse.mpr ⟨_, _, hfront, pps, sps, rfl, rfl, .inl rfl⟩, ?_,
    hbuild.mpr (.inr ⟨_, hheader, _, _, _, rfl, rfl, rfl, by decide⟩)⟩
  rw [hplain]
  rintro ⟨_, _, -, _, _, ⟨⟩, ⟨⟩, -⟩

end SliceLayer

end AvcSyntax

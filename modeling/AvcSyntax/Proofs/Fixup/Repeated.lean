import AvcSyntax.Proofs.Fixup.Downstream

/-!
# Patching a patched parameter set

A fixup changes nothing that it has changed before, also if the parameter set has been written and
read in between. So patching what was patched gives the same bytes, and every stream can do it.
-/
namespace AvcSyntax

namespace SpsFixup

variable (fixup : SpsFixup)

theorem stripVui_stripVui (v : VuiParameters) :
    fixup.stripVui (fixup.stripVui v) = fixup.stripVui v := by
  simp only [stripVui]
  cases fixup.stripVideoSignal <;> cases fixup.stripChromaLocation <;> rfl

/-- There is nothing to strip from information that says nothing. -/
theorem stripVui_default : fixup.stripVui {} = {} := by
  unfold stripVui
  cases fixup.stripVideoSignal <;> cases fixup.stripChromaLocation <;> rfl

theorem applyVui_applyVui (vui : Option VuiParameters) :
    fixup.applyVui (fixup.applyVui vui) = fixup.applyVui vui := by
  have hstripped : (vui.map fixup.stripVui).map fixup.stripVui = vui.map fixup.stripVui := by
    rw [Option.map_map]
    congr
    funext v
    exact fixup.stripVui_stripVui v
  cases hchange : fixup.restriction with
  | keep =>
    simp only [applyVui, hchange]
    exact hstripped
  | remove =>
    cases vui with
    | none => simp only [applyVui, hchange, Option.map_none]
    | some v =>
      have hstrip := congrArg (fun u : VuiParameters => some { u with restriction := none })
        (fixup.stripVui_stripVui v)
      simp only [applyVui, hchange, Option.map_some]
      exact hstrip
  | lowLatency =>
    have hbase : fixup.stripVui ((vui.map fixup.stripVui).getD {}) =
        (vui.map fixup.stripVui).getD {} := by
      cases vui with
      | none => exact fixup.stripVui_default
      | some v => exact fixup.stripVui_stripVui v
    have hagain := congrArg (fun u : VuiParameters => some { u with
      restriction := some (BitstreamRestriction.lowLatency
        ((vui.map fixup.stripVui).getD {}).restriction) }) hbase
    simp only [applyVui, hchange, Option.map_some, Option.getD_some]
    exact hagain

/-- A sample format that is kept once is kept again. -/
theorem apply_apply (s : Sps) : fixup.apply (fixup.apply s) = fixup.apply s := by
  have hgetD : ∀ (o : Option UInt8) (x : UInt8), o.getD (o.getD x) = o.getD x := by
    intro o x
    cases o <;> rfl
  cases hprofile : fixup.profileIdc with
  | none => simp only [apply, hgetD, applyVui_applyVui, hprofile, Option.getD_none]
  | some profile =>
    simp only [apply, hgetD, applyVui_applyVui, hprofile, Option.getD_some]
    cases Sps.isHighProfile profile <;> rfl

/-- It makes no difference whether the format that is written has been read before. -/
theorem withFormat_apply_withFormat (s : Sps) :
    (fixup.apply s.withFormat).withFormat = (fixup.apply s).withFormat := by
  cases hprofile : fixup.profileIdc with
  | none =>
    simp only [apply, Sps.withFormat, hprofile, Option.getD_none]
    cases Sps.isHighProfile s.profileIdc <;> rfl
  | some profile =>
    simp only [apply, Sps.withFormat, hprofile, Option.getD_some]
    cases Sps.isHighProfile profile with
    | false => rfl
    | true => cases Sps.isHighProfile s.profileIdc <;> rfl

theorem code_apply_again (s : Sps) :
    (fixup.apply (fixup.apply s).withFormat).code = (fixup.apply s).code := by
  rw [← Sps.code_withFormat, withFormat_apply_withFormat, apply_apply, Sps.code_withFormat]

end SpsFixup

namespace Stream

/-- Whatever a stream has read before, a sequence parameter set that it can read it can patch. A
new stream reads the result behind the same header as the changed parameter set, with the sample
format that is written of it, and any stream patches it to the same bytes again. -/
theorem patchSps_of_readUnit (fixup : SpsFixup)
    (hframes : ∀ n ∈ fixup.maxNumRefFrames, n.toNat ≤ 16) {s t : Stream} {n : List UInt8}
    {header : NalHeader} {sps : Sps} (h : readUnit n s = .ok ⟨header, .sps sps⟩ t) :
    ∃ w, (∃ later, patchSps fixup n s = .ok w later) ∧
      (∃ d, readUnit w {} = .ok ⟨header, .sps (fixup.apply sps).withFormat⟩ d) ∧
      ∀ other : Stream, ∃ later, patchSps fixup w other = .ok w later := by
  have hunit : readUnit n s = .ok (SpsUnit.toNalUnit ⟨header, sps⟩) t := h
  obtain ⟨hdecode, -⟩ := decode_of_readUnit hunit
  have hwf : sps.WellFormed := (NalUnit.decode_sps hdecode {}).1
  have hchanged := SpsFixup.wellFormed_apply hframes hwf
  obtain ⟨w, hw⟩ := (SpsUnit.readable_of_decode hdecode hchanged).exists_encode
  have hread : ∀ config, NalUnit.decode config {} w =
      .ok (SpsUnit.toNalUnit ⟨header, (fixup.apply sps).withFormat⟩) := fun config =>
    (hw config {}).2.decode
  refine ⟨w, ?_, ?_, ?_⟩
  · exact (exists_patchSps_iff fixup).mpr ⟨⟨header, sps⟩, hdecode, (hw s.config {}).1⟩
  · obtain ⟨d, hd, -⟩ := readUnit_sps (s := {}) (hread {})
    exact ⟨d, hd⟩
  · intro other
    have hagain := NalUnit.encode_sps_congr (fixup.code_apply_again sps) other.config {} header
    exact (exists_patchSps_iff fixup).mpr
      ⟨_, hread other.config, hagain.trans (hw other.config {}).1⟩

/-- A Baseline parameter set that becomes High and gets bounds, on a stream that minds stop bits
but no headers. -/
theorem patchSps_of_readUnit_high :
    let fixup : SpsFixup :=
      { maxNumRefFrames := some 1, profileIdc := some 100, stripVideoSignal := true
        restriction := .lowLatency }
    let s : Stream := { config := { strictHeader := false, strictTrailingBits := true } }
    let high : Sps :=
      { profileIdc := 100, levelIdc := 10, sampleFormat := some {}, maxNumRefFrames := 1
        vui := some { restriction := some {
          log2MaxMvLengthHorizontal := 16, log2MaxMvLengthVertical := 16
          maxNumReorderFrames := 0, maxDecFrameBuffering := 1 } } }
    (∀ n ∈ fixup.maxNumRefFrames, n.toNat ≤ 16) ∧
      (∃ t, readUnit [103, 66, 0, 10, 251, 136] s =
        .ok ⟨⟨3, .sps⟩, .sps { profileIdc := 66, levelIdc := 10 }⟩ t) ∧
      ∃ w, (∃ later, patchSps fixup [103, 66, 0, 10, 251, 136] s = .ok w later) ∧
        (∃ d, readUnit w {} = .ok ⟨⟨3, .sps⟩, .sps high⟩ d) ∧
        ∃ later, patchSps fixup w {} = .ok w later := by
  intro fixup s high
  have hframes : ∀ n ∈ fixup.maxNumRefFrames, n.toNat ≤ 16 := by
    intro n hn
    obtain rfl := Option.some.inj hn
    decide
  have hread : readUnit [103, 66, 0, 10, 251, 136] s =
      .ok ⟨⟨3, .sps⟩, .sps { profileIdc := 66, levelIdc := 10 }⟩
        (after [[103, 66, 0, 10, 251, 136]] s) := by cbv
  have hhigh : (fixup.apply { profileIdc := 66, levelIdc := 10 }).withFormat = high := by decide
  obtain ⟨w, hw, hback, hagain⟩ := patchSps_of_readUnit fixup hframes hread
  exact ⟨hframes, ⟨_, hread⟩, w, hw, hhigh ▸ hback, hagain {}⟩

end Stream

end AvcSyntax

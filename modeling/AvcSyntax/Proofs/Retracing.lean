import AvcSyntax.Proofs.Bits.Written
import AvcSyntax.Proofs.Pps
import AvcSyntax.Proofs.Sps

/-!
# Building retraces reading

A record is read from some bits, and building it writes some bits. `Retraces build r s` says that
they are the same: between the readers `r` and `s` stand the bits that `build` writes wherever
there is room for them, and whenever it succeeds it has written these and nothing else.

Whatever is read from a valid code is retraced by writing that code. So it is with parameter sets,
read from any position of any buffer, as long as they hold no scaling matrix. A scaling list may
be coded in more than one way.
-/
namespace AvcSyntax

/-- The bits from one reader up to another. -/
def Reader.passed (r s : Reader) : Bits := bitsAt r.data r.pos (s.pos - r.pos)

theorem Reader.Moves.passed_eq {r s : Reader} {bs : Bits} (h : r.Moves bs s) :
    r.passed s = bs := by
  have hlength : s.pos - r.pos = bs.length := by
    rw [h.pos, Nat.add_sub_cancel_left]
  rw [passed, hlength]
  exact bitsAt_of_rest h.rest

/-- The builder writes the bits between the two readers, no more and no fewer. -/
structure Retraces (build : Build Unit) (r s : Reader) : Prop where
  moves : r.Moves (r.passed s) s
  /-- Room for the bits is all that it takes. -/
  appends : Appends build (r.passed s) ()
  /-- Less room is not enough. -/
  fills : ∀ w v, build w = .ok () v → w.Fills (r.passed s) v

theorem Code.Valid.retraces {c : Code} (hc : c.Valid) {r s : Reader} (h : r.Moves c.bits s) :
    Retraces c.write r s := by
  have hpassed := h.passed_eq
  constructor
  case moves => rwa [hpassed]
  case appends =>
    rw [hpassed]
    exact hc.appends
  case fills =>
    intro w v hwrite
    rw [hpassed]
    exact hc.fills_of_write hwrite

theorem Accepts.retraces {ε α : Type} {p : EStateM ε Reader α} {P : α → Code → Prop}
    (hp : Accepts p P) {r s : Reader} {a : α} (hr : r.InBounds) (h : p r = .ok a s) :
    ∃ c, P a c ∧ Retraces c.write r s := by
  obtain ⟨c, hc, hmoves, hP⟩ := hp r a s hr h
  exact ⟨c, hP, hc.retraces hmoves⟩

/-- A sequence parameter set begins with a byte, so it is not read behind the end. -/
theorem Sps.inBounds_of_parse {r s : Reader} {sps : Sps} (h : parse r = .ok sps s) :
    r.InBounds := by
  obtain ⟨_, _, hprofile, -⟩ := bind_eq_ok.mp h
  rw [Parse.octet, map_eq_pure_bind] at hprofile
  obtain ⟨_, _, hbits, -⟩ := bind_eq_ok.mp hprofile
  exact Parse.inBounds_of_u (by decide) (by decide) hbits

theorem Pps.inBounds_of_parse {sets : ParameterSets} {r s : Reader} {pps : Pps}
    (h : parse sets r = .ok pps s) : r.InBounds := by
  obtain ⟨_, _, hid, -⟩ := bind_eq_ok.mp h
  exact Parse.inBounds_of_ueUpTo hid

namespace ParameterSets

/-- A parameter set without a scaling matrix is built from the bits that it was read from, a
picture parameter set against the same parameter sets as before. -/
theorem retraces_of_parse (sets : ParameterSets) (r s : Reader) :
    (∀ sps, Sps.parse r = .ok sps s → (∀ f ∈ sps.sampleFormat, f.scalingMatrix = none) →
      Retraces sps.code.write r s) ∧
    (∀ pps, Pps.parse sets r = .ok pps s → (∀ e ∈ pps.extension, e.scalingMatrix = none) →
      Retraces (pps.code sets).write r s) := by
  constructor
  · intro sps h hplain
    have hr := Sps.inBounds_of_parse h
    obtain ⟨c, ⟨-, hcode⟩, hretraces⟩ := Sps.accepts_parse.retraces hr h
    rwa [hcode hplain] at hretraces
  · intro pps h hplain
    have hr := Pps.inBounds_of_parse h
    obtain ⟨c, ⟨-, hcode⟩, hretraces⟩ := Pps.accepts_parse.retraces hr h
    rwa [hcode hplain] at hretraces

/-- Not at a byte boundary: a sequence with a clock, of a high profile, and a picture parameter set
with an extension in front of the stop bit. -/
theorem retraces_of_parse_shifted :
    let high : Sps := {
      profileIdc := 100
      levelIdc := 10
      sampleFormat := some { chromaFormatIdc := 3, separateColourPlanes := true }
      picOrderCount := .cycle { offsetForNonRefPic := -1, offsetsForRefFrames := [2] }
      frameMbsOnly := false
      vui := some { timing := some { unitsInTick := 1, timeScale := 50 } } }
    let extended : Pps := {
      extension := some { transform8x8Mode := true, secondChromaQpIndexOffset := -2 } }
    let r : Reader := {
      data := #[0x0c, 0x80, 0x01, 0x52, 0x72, 0x8e, 0x89, 0x61, 8, 0, 0, 0, 8, 0, 0, 1, 0x90, 0]
      pos := 3 }
    let t : Reader := { data := #[0x19, 0xc7, 0x11, 0x60], pos := 3 }
    (Sps.parse r = .ok high { r with pos := 138 } ∧
      Retraces high.code.write r { r with pos := 138 }) ∧
    (Pps.parse {} t = .ok extended { t with pos := 26 } ∧
      Retraces (extended.code {}).write t { t with pos := 26 }) := by
  intro high extended r t
  have hsps : Sps.parse r = .ok high { r with pos := 138 } := by cbv
  have hpps : Pps.parse {} t = .ok extended { t with pos := 26 } := by cbv
  have hformat : ∀ f ∈ high.sampleFormat, f.scalingMatrix = none := by
    intro f hf
    obtain rfl := Option.some.inj hf
    rfl
  have hextension : ∀ e ∈ extended.extension, e.scalingMatrix = none := by
    intro e he
    obtain rfl := Option.some.inj he
    rfl
  exact ⟨⟨hsps, (retraces_of_parse {} r _).1 high hsps hformat⟩,
    ⟨hpps, (retraces_of_parse {} t _).2 extended hpps hextension⟩⟩

end ParameterSets

end AvcSyntax

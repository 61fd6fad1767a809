import AvcSyntax.Proofs.Bits.Bytes

/-!
# What actions keep and what they fail with

`Stays I F p` says that the action `p`, begun with a cursor of which `I` holds, ends with one of
which it holds, and that `F` holds of whatever it fails with. The relation is closed under
sequencing, so that it is proved of the primitive actions and followed through everything that is
read and written.

The cursors are those inside a buffer whose bits can be counted in one word. No action on bits and
bytes leaves the buffer, and none of those that read overflows.
-/
namespace AvcSyntax

/-- Begun where `I` holds the action ends where it holds, and it fails only with errors of which `F`
holds. -/
def Stays {ε σ α : Type} (I : σ → Prop) (F : ε → Prop) (p : EStateM ε σ α) : Prop :=
  ∀ s, I s →
    match p s with
    | .ok _ t => I t
    | .error e t => I t ∧ F e

section Sequencing

variable {ε σ α β : Type} {I : σ → Prop} {F G : ε → Prop} {p q : EStateM ε σ α}
  {f : α → EStateM ε σ β} {s t : σ} {a : α} {e : ε}

theorem Stays.of_ok (hp : Stays I F p) (hs : I s) (h : p s = .ok a t) : I t := by
  have hrun := hp s hs
  rwa [h] at hrun

theorem Stays.of_error (hp : Stays I F p) (hs : I s) (h : p s = .error e t) : I t ∧ F e := by
  have hrun := hp s hs
  rwa [h] at hrun

theorem Stays.pure (a : α) : Stays I F (Pure.pure a : EStateM ε σ α) := fun _ hs => hs

theorem Stays.throw (he : F e) : Stays I F (throw e : EStateM ε σ α) := fun _ hs => ⟨hs, he⟩

theorem Stays.bind (hp : Stays I F p) (hf : ∀ a, Stays I F (f a)) : Stays I F (p >>= f) := by
  intro s hs
  cases h : p s with
  | ok a t =>
    rw [bind_of_ok h]
    exact hf a t (hp.of_ok hs h)
  | error e t =>
    rw [bind_of_error h]
    exact hp.of_error hs h

theorem Stays.map (hp : Stays I F p) (g : α → β) : Stays I F (g <$> p) := by
  rw [map_eq_pure_bind]
  exact hp.bind fun a => .pure (g a)

theorem Stays.get {f : σ → EStateM ε σ α} (hf : ∀ s, I s → Stays I F (f s)) :
    Stays I F (MonadState.get >>= f) := fun s hs => hf s hs s hs

theorem Stays.ite {C : Prop} [Decidable C] (hp : C → Stays I F p) (hq : ¬C → Stays I F q) :
    Stays I F (if C then p else q) := by
  split
  · exact hp ‹_›
  · exact hq ‹_›

theorem Stays.onlyIf {C : Prop} [Decidable C] (hp : Stays I F p) (a : α) :
    Stays I F (if C then p else Pure.pure a) := .ite (fun _ => hp) fun _ => .pure a

theorem Stays.unless {C : Prop} [Decidable C] (hp : Stays I F p) (a : α) :
    Stays I F (if C then Pure.pure a else p) := .ite (fun _ => .pure a) fun _ => hp

theorem Stays.ofExcept {x : Except ε α} (hx : ∀ e, x = .error e → F e) :
    Stays I F (liftM x : EStateM ε σ α) := by
  cases x with
  | ok a => exact .pure a
  | error e => exact .throw (hx e rfl)

theorem Stays.weaken (hp : Stays I F p) (h : ∀ e, F e → G e) : Stays I G p := by
  intro s hs
  cases hrun : p s with
  | ok a t => exact hp.of_ok hs hrun
  | error e t => exact ⟨(hp.of_error hs hrun).1, h e (hp.of_error hs hrun).2⟩

/-- What an action keeps, whatever it fails with. -/
theorem Stays.forget (hp : Stays I F p) : Stays I (fun _ => True) p :=
  hp.weaken fun _ _ => trivial

theorem Stays.report {F : Fault → Prop} {G : NalError → Prop} {p : EStateM Fault σ α}
    (hp : Stays I F p) (h : ∀ fault, F fault → G (.ofFault fault)) :
    Stays I G (reportFaults p) := by
  intro s hs
  rw [reportFaults]
  cases hrun : p s with
  | ok a t => exact hp.of_ok hs hrun
  | error e t => exact ⟨(hp.of_error hs hrun).1, h e (hp.of_error hs hrun).2⟩

end Sequencing

theorem Fault.ne_overflow {fault : Fault} (h : fault.kind = .invalidValue) :
    fault ≠ .overflow := by
  rintro rfl
  cases h

theorem NalError.ofFault_ne_overflow {fault : Fault} (h : fault ≠ .overflow) :
    ofFault fault ≠ .overflow := by
  cases fault <;> first | exact absurd rfl h | nofun

theorem Stays.report_safe {σ α : Type} {I : σ → Prop} {p : EStateM Fault σ α}
    (hp : Stays I (· ≠ .overflow) p) : Stays I (· ≠ .overflow) (reportFaults p) :=
  hp.report fun _ => NalError.ofFault_ne_overflow

/-- A reader inside its buffer, whose bits can be counted in one word. -/
structure Reader.Fits (r : Reader) : Prop where
  inBounds : r.InBounds
  size_lt : r.size < 2 ^ 64

theorem Reader.Fits.exhausted {r : Reader} (hr : r.Fits) : r.exhausted.Fits :=
  ⟨Nat.le_refl _, hr.size_lt⟩

theorem Reader.Fits.advance {r : Reader} (hr : r.Fits) {count : Nat} (hroom : count ≤ r.remaining)
    (t : Trace) : ({ r with pos := r.pos + count, trace := t } : Reader).Fits := by
  refine ⟨?_, hr.size_lt⟩
  have hpos := hr.inBounds
  rw [remaining] at hroom
  rw [InBounds] at hpos ⊢
  change r.pos + count ≤ r.size
  omega

/-- A parser that stays inside the buffer and does not overflow. -/
abbrev Parse.Safe {α : Type} (p : Parse α) : Prop := Stays Reader.Fits (· ≠ Fault.overflow) p

namespace Parse

variable {α β : Type} {p : Parse α}

theorem safe_u (count : Nat) : (u count).Safe := by
  intro r hr
  unfold u
  by_cases hroom : r.remaining < min count 64
  · simp only [if_pos hroom]
    exact ⟨hr.exhausted, nofun⟩
  · simp only [if_neg hroom]
    exact hr.advance (Nat.not_lt.mp hroom) _

theorem safe_flag : flag.Safe := (safe_u 1).bind fun _ => .pure _

theorem safe_skip (count : Nat) : (skip count).Safe := by
  intro r hr
  unfold skip
  by_cases hroom : r.remaining < count
  · simp only [if_pos hroom]
    exact ⟨hr.exhausted, nofun⟩
  · simp only [if_neg hroom]
    exact hr.advance (Nat.not_lt.mp hroom) _

theorem safe_align : align.Safe := .get fun _ _ => .unless (safe_skip _) ()

theorem safe_inRange (quantity : String) (low high value : Int) :
    (inRange quantity low high value).Safe := by
  rw [inRange]
  cases hrange : rangeFault? quantity low high value with
  | some fault => exact .throw (Fault.ne_overflow (kind_of_rangeFault? hrange))
  | none => exact .pure ()

theorem safe_lookahead (hp : p.Safe) : (lookahead p).Safe := by
  intro r hr
  rw [lookahead]
  cases hrun : p r with
  | ok a s => exact ⟨hr.inBounds, hr.size_lt⟩
  | error e s => exact ⟨⟨hr.inBounds, hr.size_lt⟩, (hp.of_error hr hrun).2⟩

theorem safe_mapFault {f : Fault → Fault} (hf : ∀ fault, fault ≠ .overflow → f fault ≠ .overflow)
    (hp : p.Safe) : (mapFault f p).Safe := by
  intro r hr
  rw [mapFault]
  cases hrun : p r with
  | ok a s => exact hp.of_ok hr hrun
  | error e s => exact ⟨(hp.of_error hr hrun).1, hf e (hp.of_error hr hrun).2⟩

theorem safe_optional (hp : p.Safe) : (optional p).Safe :=
  safe_flag.bind fun _ => .ite (fun _ => hp.bind fun _ => .pure _) fun _ => .pure none

theorem safe_times (hp : p.Safe) (count : Nat) : (times count p).Safe := by
  have hafter (count : Nat) : ∀ found, (timesAfter p count found).Safe := by
    induction count with
    | zero => exact fun found => .pure _
    | succ count ih => exact fun found => hp.bind fun a => ih _
  exact hafter count []

theorem safe_readZeros (more : Nat) : (ExpGolomb.readZeros more).Safe := by
  induction more with
  | zero => exact safe_flag.bind fun _ => .ite (fun _ => .pure 0) fun _ => .throw nofun
  | succ more ih =>
    exact safe_flag.bind fun _ => .ite (fun _ => .pure 0) fun _ => ih.bind fun _ => .pure _

theorem safe_ue : ue.Safe := by
  rw [ue_eq]
  exact (safe_readZeros _).bind fun zeros => (safe_u zeros).bind fun _ => .pure _

theorem safe_se : se.Safe := by
  rw [se_eq]
  exact safe_ue.map _

theorem safe_ueUpTo (quantity : String) (high : Nat) : (ueUpTo quantity high).Safe :=
  safe_ue.bind fun _ => (safe_inRange _ _ _ _).bind fun _ => .pure _

theorem safe_seWithin (quantity : String) (low high : Int) : (seWithin quantity low high).Safe :=
  safe_se.bind fun _ => (safe_inRange _ _ _ _).bind fun _ => .pure _

theorem safe_oneBitWithin (count : Nat) : (oneBitWithin count).Safe := by
  induction count with
  | zero => exact .pure false
  | succ count ih => exact safe_flag.bind fun _ => .ite (fun _ => .pure true) fun _ => ih

theorem safe_moreData : moreData.Safe := by
  refine .get fun r _ => .unless (.unless (safe_lookahead ?_) _) _
  exact (safe_skip 1).bind fun _ => safe_oneBitWithin _

theorem safe_trailingBits (strict : Bool) : (trailingBits strict).Safe := by
  refine safe_flag.bind fun stop => .ite (fun _ => ?_) fun _ => safe_align
  exact Stays.bind (.throw nofun) fun _ => safe_align

theorem safe_trailingWords (strict : Bool) (count : Nat) : (trailingWords strict count).Safe := by
  induction count with
  | zero => exact .pure ()
  | succ count ih =>
    refine (safe_u 16).bind fun word => .ite (fun _ => ?_) fun _ => ih
    exact Stays.bind (.throw nofun) fun _ => ih

theorem safe_sliceTrailingBits (arithmetic strict : Bool) :
    (sliceTrailingBits arithmetic strict).Safe := by
  refine (safe_trailingBits strict).bind fun _ => .onlyIf (.get fun _ _ => ?_) ()
  exact safe_trailingWords strict _

end Parse

structure Writer.Fits (w : Writer) : Prop where
  pos_le : w.pos ≤ 8 * w.data.size
  size_lt : 8 * w.data.size < 2 ^ 64

theorem Writer.Fits.moves {w v : Writer} {bs : Bits} (hw : w.Fits) (h : w.Moves bs v)
    (hroom : bs.length ≤ w.remaining) : v.Fits := by
  have hpos := hw.pos_le
  rw [remaining] at hroom
  constructor
  case pos_le =>
    rw [h.pos, h.size]
    omega
  case size_lt =>
    rw [h.size]
    exact hw.size_lt

namespace Build

abbrev Safe {α : Type} (p : Build α) : Prop := Stays Writer.Fits (· ≠ Fault.overflow) p

theorem safe_u (count value : Nat) : (u count value).Safe := by
  intro w hw
  unfold u
  by_cases hwide : 1 <<< min count 64 ≤ value
  · simp only [if_pos hwide]
    exact ⟨hw, nofun⟩
  · by_cases hroom : w.remaining < min count 64
    · simp only [if_neg hwide, if_pos hroom]
      exact ⟨⟨hw.pos_le, hw.size_lt⟩, nofun⟩
    · simp only [if_neg hwide, if_neg hroom]
      refine hw.moves (w.moves_append _ _) ?_
      rw [Bits.length_ofNat]
      exact Nat.not_lt.mp hroom

theorem safe_flag (b : Bool) : (flag b).Safe := safe_u 1 _

theorem safe_align : align.Safe := .get fun _ _ => .unless (safe_u _ 0) ()

theorem safe_someBytes (bs : List UInt8) : (someBytes bs).Safe := by
  intro w hw
  by_cases hbs : bs = []
  · subst hbs
    exact hw
  by_cases hfull : w.remaining < 8
  · rw [someBytes_of_full hfull hbs]
    exact ⟨hw.pos_le, hw.size_lt⟩
  · obtain ⟨v, hv, hmoves⟩ := exists_someBytes (Nat.not_lt.mp hfull) bs
    rw [hv]
    refine hw.moves hmoves ?_
    rw [Bits.length_ofBytes, List.length_take]
    omega

theorem safe_bytes (bs : List UInt8) : (bytes bs).Safe := by
  refine (safe_someBytes bs).bind fun count => .ite (fun _ => .pure ()) fun _ => ?_
  exact (safe_someBytes _).bind fun _ => .throw nofun

theorem safe_trailingBits : trailingBits.Safe := (safe_flag true).bind fun _ => safe_align

end Build

theorem Field.safe_write (f : Field) : f.write.Safe := by
  cases f with
  | number width value => exact Build.safe_u width value
  | bytes bs => exact Build.safe_bytes bs

theorem Field.safe_writeAll (fs : List Field) : (Field.writeAll fs).Safe := by
  induction fs with
  | nil => exact .pure ()
  | cons f fs ih => exact f.safe_write.bind fun _ => ih

/-- Writing a code overflows only where the code ends with that. -/
theorem Code.stays_write {c : Code} {F : Fault → Prop}
    (hvalues : ∀ fault, fault ≠ .overflow → F fault)
    (hc : ∀ fault, c.fault = some fault → F fault) : Stays Writer.Fits F c.write := by
  refine ((Field.safe_writeAll c.fields).weaken hvalues).bind fun _ => ?_
  cases hended : c.fault with
  | none => exact .pure ()
  | some fault => exact .throw (hc fault hended)

end AvcSyntax

import AvcSyntax.Proofs.Bits.ExpGolomb
import AvcSyntax.Proofs.Bits.Writing

/-!
# How much room builders need

`Needs E n p` says that the builder `p` never runs out of room where `n` bits are left: either it
takes no more than that, or it fails with an error of which `E` holds. Unlike `Writes` the relation
speaks of any value that a builder is given, also of those that it refuses. It is closed under
sequencing, where the numbers of bits add up.

A code needs as many bits as it has, if the rule that may end it is one on values. The lemmas on
that are tagged for `simp`, which follows them through the code of a whole record.
-/
namespace AvcSyntax

/-- Where there is room for `n` bits the builder takes at most that many, or it fails with an error
of which `E` holds. -/
def Needs {ε α : Type} (E : ε → Prop) (n : Nat) (p : EStateM ε Writer α) : Prop :=
  ∀ w : Writer, w.overrun = false → n ≤ w.remaining →
    match p w with
    | .ok _ v => v.overrun = false ∧ w.remaining ≤ v.remaining + n
    | .error e _ => E e

section Sequencing

variable {ε α β : Type} {E : ε → Prop} {m n : Nat} {p q : EStateM ε Writer α}
  {f : α → EStateM ε Writer β}

theorem Needs.pure (a : α) : Needs E 0 (Pure.pure a : EStateM ε Writer α) :=
  fun _ hover _ => ⟨hover, Nat.le_refl _⟩

theorem Needs.throw {e : ε} (h : E e) : Needs E 0 (throw e : EStateM ε Writer α) :=
  fun _ _ _ => h

theorem Needs.mono (hp : Needs E m p) (hle : m ≤ n) : Needs E n p := by
  intro w hover hroom
  have hfirst := hp w hover (by omega)
  cases hw : p w with
  | ok a v =>
    rw [hw] at hfirst
    exact ⟨hfirst.1, by have := hfirst.2; omega⟩
  | error e v =>
    rw [hw] at hfirst
    exact hfirst

theorem Needs.weaken {F : ε → Prop} (hp : Needs E n p) (h : ∀ e, E e → F e) : Needs F n p := by
  intro w hover hroom
  have hw := hp w hover hroom
  cases hcases : p w with
  | ok a v =>
    rw [hcases] at hw
    exact hw
  | error e v =>
    rw [hcases] at hw
    exact h e hw

theorem Needs.bind (hp : Needs E m p) (hf : ∀ a, Needs E n (f a)) :
    Needs E (m + n) (p >>= f) := by
  intro w hover hroom
  have hfirst := hp w hover (by omega)
  cases hw : p w with
  | ok a v =>
    rw [hw] at hfirst
    obtain ⟨hlost, hleft⟩ := hfirst
    have hlater := hf a v hlost (by omega)
    rw [bind_of_ok hw]
    cases hv : f a v with
    | ok b u =>
      rw [hv] at hlater
      exact ⟨hlater.1, by have := hlater.2; omega⟩
    | error e u =>
      rw [hv] at hlater
      exact hlater
  | error e v =>
    rw [hw] at hfirst
    rw [bind_of_error hw]
    exact hfirst

theorem Needs.get {f : Writer → EStateM ε Writer α}
    (hf : ∀ w : Writer, w.overrun = false → Needs E n (f w)) :
    Needs E n (MonadState.get >>= f) := fun w hover hroom => hf w hover w hover hroom

/-- A builder that acts in every place like one that needs no more. -/
theorem Needs.of_eq (h : ∀ w, ∃ q, p w = q w ∧ Needs E n q) : Needs E n p := by
  intro w hover hroom
  obtain ⟨q, hq, hneeds⟩ := h w
  rw [hq]
  exact hneeds w hover hroom

theorem Needs.ite {C : Prop} [Decidable C] (hp : C → Needs E n p) (hq : ¬C → Needs E n q) :
    Needs E n (if C then p else q) := by
  split
  · exact hp ‹_›
  · exact hq ‹_›

theorem Needs.report {F : Fault → Prop} {E : NalError → Prop} {p : Build α} (hp : Needs F n p)
    (h : ∀ fault, F fault → E (.ofFault fault)) : Needs E n (reportFaults p) := by
  intro w hover hroom
  have hw := hp w hover hroom
  unfold reportFaults
  cases hcases : p w with
  | ok a v =>
    rw [hcases] at hw
    exact hw
  | error e v =>
    rw [hcases] at hw
    exact h e hw

/-- A builder that does not fail where there is room does not fail for the whole unit either. -/
theorem Needs.report_of_safe {E : NalError → Prop} {p : Build α}
    (hp : Needs (fun _ => False) n p) : Needs E n (reportFaults p) :=
  hp.report fun _ => False.elim

/-- A builder needs no more than the bits that it writes, however many that are at a position. -/
theorem Needs.of_writes (h : ∀ pos, ∃ bs a, bs.length ≤ n ∧ Writes pos p bs a) : Needs E n p := by
  intro w hover hroom
  obtain ⟨bs, a, hle, hwrites⟩ := h w.pos
  obtain ⟨v, hv, hmoves⟩ := hwrites w rfl hover (by omega)
  rw [hv]
  exact ⟨hmoves.overrun.trans hover, by rw [hmoves.remaining]; omega⟩

end Sequencing

namespace Build

variable {E : Fault → Prop}

theorem needs_align : Needs E 7 align :=
  Needs.of_writes fun pos => ⟨_, _, by rw [List.length_replicate]; omega, writes_align⟩

theorem needs_trailingBits : Needs E 8 trailingBits :=
  Needs.of_writes fun pos => ⟨_, _, by rw [Bits.length_stop]; omega, writes_trailingBits⟩

theorem needs_finish : Needs E 7 finish :=
  needs_align.bind fun _ => Needs.get fun _ _ => Needs.pure _

theorem needs_bytes (bs : List UInt8) : Needs E (8 * bs.length) (bytes bs) :=
  Needs.of_writes fun _ => ⟨_, _, by rw [Bits.length_ofBytes], writes_bytes bs⟩

/-- A number that is too wide for its field is refused before there could be too little room. -/
theorem needs_u (count value : Nat) :
    Needs (fun fault => fault.kind = .invalidValue) count (u count value) := by
  intro w hover hroom
  unfold u
  by_cases hwide : 1 <<< min count 64 ≤ value
  · simp only [if_pos hwide]
    rfl
  · have hfit : ¬w.remaining < min count 64 := by omega
    have hmoves := w.moves_append (.bits w.pos (min count 64) value)
      (.ofNat (min count 64) value)
    have hleft := hmoves.remaining
    rw [Bits.length_ofNat] at hleft
    simp only [if_neg hwide, if_neg hfit]
    exact ⟨hmoves.overrun.trans hover, by omega⟩

end Build

theorem Field.needs_write (f : Field) :
    Needs (fun fault => fault.kind = .invalidValue) f.bits.length f.write := by
  cases f with
  | number width value =>
    rw [bits, Bits.length_ofNat]
    exact Build.needs_u width value
  | bytes bs =>
    rw [bits, Bits.length_ofBytes]
    exact Build.needs_bytes bs

theorem Field.needs_writeAll (fs : List Field) :
    Needs (fun fault => fault.kind = .invalidValue) (fs.flatMap Field.bits).length
      (Field.writeAll fs) := by
  induction fs with
  | nil => exact Needs.pure ()
  | cons f fs ih =>
    rw [List.flatMap_cons, List.length_append]
    exact (Field.needs_write f).bind fun _ => ih

namespace Code

/-- Whether the rule that may end the code is one on values. -/
def RefusesValues (c : Code) : Prop := ∀ fault, c.fault = some fault → fault.kind = .invalidValue

section RefusesValues

variable {c d : Code}

theorem refusesValues_of_no_fault (h : c.fault = none) : c.RefusesValues := by
  simp [RefusesValues, h]

@[simp]
theorem refusesValues_empty : empty.RefusesValues := refusesValues_of_no_fault rfl

@[simp]
theorem refusesValues_u (width value : Nat) : (u width value).RefusesValues :=
  refusesValues_of_no_fault rfl

@[simp]
theorem refusesValues_flag (b : Bool) : (flag b).RefusesValues := refusesValues_of_no_fault rfl

@[simp]
theorem refusesValues_bytes (bs : List UInt8) : (bytes bs).RefusesValues :=
  refusesValues_of_no_fault rfl

@[simp]
theorem refusesValues_word (count value : Nat) : (word count value).RefusesValues :=
  refusesValues_of_no_fault rfl

@[simp]
theorem refusesValues_byteSum (n : Nat) : (byteSum n).RefusesValues :=
  refusesValues_of_no_fault rfl

theorem refusesValues_fail {fault : Fault} (h : fault.kind = .invalidValue) :
    (fail fault).RefusesValues := by
  rintro _ ⟨⟩
  exact h

@[simp]
theorem refusesValues_inRange (quantity : String) (low high value : Int) :
    (inRange quantity low high value).RefusesValues := fun _ => kind_of_rangeFault?

@[simp]
theorem refusesValues_ue (n : Nat) : (ue n).RefusesValues := by
  rw [ue, ExpGolomb.code_eq]
  split
  · exact refusesValues_fail rfl
  · exact refusesValues_of_no_fault rfl

@[simp]
theorem refusesValues_se (n : Int) : (se n).RefusesValues := refusesValues_ue _

/-- The rules behind a fault do not matter. -/
@[simp]
theorem refusesValues_append (hc : c.RefusesValues) :
    (c ++ d).RefusesValues ↔ (c.fault = none → d.RefusesValues) := by
  by_cases hfault : c.fault = none
  · rw [append_of_no_fault hfault]
    exact ⟨fun h _ => h, fun h => h hfault⟩
  · rw [append_of_fault (Option.isSome_iff_ne_none.mpr hfault)]
    exact ⟨fun _ h => absurd h hfault, fun _ => hc⟩

@[simp]
theorem refusesValues_onlyIf {p : Prop} [Decidable p] :
    (onlyIf p c).RefusesValues ↔ (p → c.RefusesValues) := by
  by_cases hp : p
  · rw [onlyIf_true hp]
    exact ⟨fun h _ => h, fun h => h hp⟩
  · rw [onlyIf_false hp]
    exact ⟨fun _ h => absurd h hp, fun _ => refusesValues_empty⟩

@[simp]
theorem refusesValues_optional {α : Type} {code : α → Code} {o : Option α} :
    (optional code o).RefusesValues ↔ ∀ a ∈ o, (code a).RefusesValues := by
  cases o with
  | none => simp [optional]
  | some a =>
    rw [optional, refusesValues_append (refusesValues_flag true)]
    simp [flag, u]

@[simp]
theorem refusesValues_concat {α : Type} {code : α → Code} {as : List α}
    (h : ∀ a, (code a).RefusesValues) : (concat (as.map code)).RefusesValues := by
  induction as with
  | nil => exact refusesValues_empty
  | cons a as ih => exact (refusesValues_append (h a)).mpr fun _ => ih

end RefusesValues

/-- A code needs no more than its bits, whether or not it breaks a rule. -/
theorem needs_write {E : Fault → Prop} {c : Code} {n : Nat}
    (hvalues : ∀ fault, fault.kind = .invalidValue → E fault)
    (hfault : ∀ fault, c.fault = some fault → E fault) (hn : c.AtMost n) : Needs E n c.write := by
  refine Needs.mono ?_ hn
  refine ((Field.needs_writeAll c.fields).weaken hvalues).bind (n := 0) fun _ => ?_
  cases hended : c.fault with
  | none => exact Needs.pure ()
  | some fault => exact Needs.throw (hfault fault hended)

theorem Valid.needs_write {c : Code} {n : Nat} (hc : c.Valid) (hn : c.AtMost n) :
    Needs (fun _ => False) n c.write :=
  Needs.of_writes fun _ => ⟨c.bits, (), hn, hc.writes⟩

end Code

end AvcSyntax

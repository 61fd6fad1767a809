import AvcSyntax.Nal.Error
import AvcSyntax.Proofs.Bits.Codes

/-!
# What parsers read

A parser is described by two relations. `Reads p c tail a` says that `p`, standing in front of
the bits of a valid code `c` and then `tail`, yields `a` and stops in front of `tail`. `Accepts p P`
says that whatever `p` yields was read from a valid code, and that `P` holds of the two. Both
are closed under sequencing, so a parser of a record is followed field by field, once to see that
it reads the code of the record back and once to see that it yields nothing else.

The relations speak of readers that have not passed the end of their buffer. What is recorded of
the accesses plays no part.
-/
namespace AvcSyntax

namespace Reader

/-- Whether a reader has not passed the end of its buffer. -/
def InBounds (r : Reader) : Prop := r.pos ≤ r.size

/-- `s` is the reader `r` after the bits `bs` were read. -/
structure Moves (r : Reader) (bs : Bits) (s : Reader) : Prop where
  data : s.data = r.data
  overrun : s.overrun = r.overrun
  pos : s.pos = r.pos + bs.length
  rest : r.rest = bs ++ s.rest

theorem atEnd_iff (r : Reader) : r.atEnd ↔ r.size ≤ r.pos := by simp [atEnd]

theorem isAligned_iff (r : Reader) : r.isAligned ↔ r.pos % 8 = 0 := by simp [isAligned]

@[simp] theorem length_rest (r : Reader) : r.rest.length = r.remaining := length_bitsAt _ _ _

/-- Only a reader that has not passed the end has anything left. -/
theorem inBounds_of_remaining {r : Reader} (h : 0 < r.remaining) : r.InBounds := by
  unfold remaining at h
  unfold InBounds
  omega

theorem Moves.refl (r : Reader) : r.Moves [] r := ⟨rfl, rfl, rfl, rfl⟩

theorem Moves.note (r : Reader) (t : Trace) : r.Moves [] { r with trace := t } :=
  ⟨rfl, rfl, rfl, rfl⟩

theorem Moves.trans {r s t : Reader} {bs cs : Bits} (h : r.Moves bs s) (k : s.Moves cs t) :
    r.Moves (bs ++ cs) t where
  data := k.data.trans h.data
  overrun := k.overrun.trans h.overrun
  pos := by rw [k.pos, h.pos, List.length_append, Nat.add_assoc]
  rest := by rw [h.rest, k.rest, List.append_assoc]

theorem Moves.size {r s : Reader} {bs : Bits} (h : r.Moves bs s) : s.size = r.size := by
  rw [Reader.size, h.data, Reader.size]

theorem Moves.inBounds {r s : Reader} {bs : Bits} (h : r.Moves bs s) (hr : r.InBounds) :
    s.InBounds := by
  have hlength := congrArg List.length h.rest
  simp only [List.length_append, length_rest, remaining, h.size, h.pos] at hlength
  rw [InBounds] at hr ⊢
  rw [h.size, h.pos]
  omega

theorem Moves.rest_eq {r s : Reader} {bs tail : Bits} (h : r.Moves bs s)
    (hrest : r.rest = bs ++ tail) : s.rest = tail :=
  List.append_cancel_left (h.rest.symm.trans hrest)

theorem rest_eq_bitsAt_append {r : Reader} {count : Nat} (h : count ≤ r.remaining) :
    r.rest = bitsAt r.data r.pos count ++
      bitsAt r.data (r.pos + count) (r.remaining - count) := by
  rw [← bitsAt_append, rest]
  congr 1
  omega

theorem length_le_remaining {r : Reader} {bs tail : Bits} (h : r.rest = bs ++ tail) :
    bs.length ≤ r.remaining := by
  rw [← length_rest, h, List.length_append]
  exact Nat.le_add_right _ _

theorem bitsAt_of_rest {r : Reader} {bs tail : Bits} (h : r.rest = bs ++ tail) :
    bitsAt r.data r.pos bs.length = bs :=
  (List.append_inj ((rest_eq_bitsAt_append (length_le_remaining h)).symm.trans h)
    (length_bitsAt _ _ _)).1

theorem moves_advance {r : Reader} {bs tail : Bits} (h : r.rest = bs ++ tail) (t : Trace) :
    r.Moves bs { r with pos := r.pos + bs.length, trace := t } := by
  refine ⟨rfl, rfl, rfl, ?_⟩
  rw [rest_eq_bitsAt_append (length_le_remaining h), bitsAt_of_rest h, rest, remaining, remaining,
    size, size, Nat.sub_sub]

theorem moves_of_room {r : Reader} {count : Nat} (h : count ≤ r.remaining) (t : Trace) :
    r.Moves (bitsAt r.data r.pos count) { r with pos := r.pos + count, trace := t } := by
  have hmoves := moves_advance (rest_eq_bitsAt_append h) t
  rwa [length_bitsAt] at hmoves

/-- A reader at the start of bytes has all their bits in front of it. -/
theorem rest_start (bytes : List UInt8) (t : Trace) :
    ({ data := bytes.toArray, trace := t } : Reader).rest = Bits.ofBytes bytes := by
  have h := bitsAt_all bytes.toArray
  simpa [rest, remaining, size] using h

theorem inBounds_start (bytes : List UInt8) (t : Trace) :
    ({ data := bytes.toArray, trace := t } : Reader).InBounds := Nat.zero_le _

end Reader

/-- In front of the bits of a valid code and then `tail` the parser yields `a` and stops in front
of `tail`. -/
structure Reads {ε α : Type} (p : EStateM ε Reader α) (c : Code) (tail : Bits) (a : α) :
    Prop where
  valid : c.Valid
  run : ∀ r : Reader, r.InBounds → r.rest = c.bits ++ tail →
    ∃ s, p r = .ok a s ∧ r.Moves c.bits s

/-- Whatever the parser yields was read from a valid code, and `P` holds of the two. -/
def Accepts {ε α : Type} (p : EStateM ε Reader α) (P : α → Code → Prop) : Prop :=
  ∀ r a s, r.InBounds → p r = .ok a s → ∃ c : Code, c.Valid ∧ r.Moves c.bits s ∧ P a c

section Sequencing

variable {ε σ α β : Type}

theorem bind_of_ok {p : EStateM ε σ α} {f : α → EStateM ε σ β} {s t : σ} {a : α}
    (h : p s = .ok a t) : (p >>= f) s = f a t := by
  simp only [bind, EStateM.bind, h]

theorem bind_of_error {p : EStateM ε σ α} {f : α → EStateM ε σ β} {s t : σ} {e : ε}
    (h : p s = .error e t) : (p >>= f) s = .error e t := by
  simp only [bind, EStateM.bind, h]

theorem get_bind (f : σ → EStateM ε σ β) (s : σ) : (get >>= f) s = f s s := rfl

theorem bind_eq_ok {p : EStateM ε σ α} {f : α → EStateM ε σ β} {s u : σ} {b : β} :
    (p >>= f) s = .ok b u ↔ ∃ a t, p s = .ok a t ∧ f a t = .ok b u := by
  simp only [bind, EStateM.bind]
  cases p s with
  | ok a t => simp
  | error e t => simp

theorem bind_eq_error {p : EStateM ε σ α} {f : α → EStateM ε σ β} {s u : σ} {e : ε} :
    (p >>= f) s = .error e u ↔
      p s = .error e u ∨ ∃ a t, p s = .ok a t ∧ f a t = .error e u := by
  simp only [bind, EStateM.bind]
  cases p s with
  | ok a t => simp
  | error e t => simp

/-- Whenever the action fails, `F` holds of the fault. -/
def Faults (F : ε → Prop) (p : EStateM ε σ α) : Prop := ∀ s e t, p s = .error e t → F e

section Faults

variable {F : ε → Prop} {p : EStateM ε σ α}

theorem Faults.pure (a : α) : Faults F (Pure.pure a : EStateM ε σ α) := by
  intro s e t h
  cases h

theorem Faults.throw {e : ε} (he : F e) : Faults F (throw e : EStateM ε σ α) := by
  intro s e t h
  cases h
  exact he

theorem Faults.bind {f : α → EStateM ε σ β} (hp : Faults F p) (hf : ∀ a, Faults F (f a)) :
    Faults F (p >>= f) := by
  intro s e u h
  rcases bind_eq_error.mp h with hfirst | ⟨a, t, -, hlater⟩
  · exact hp s e u hfirst
  · exact hf a t e u hlater

theorem Faults.get {f : σ → EStateM ε σ α} (hf : ∀ s, Faults F (f s)) :
    Faults F (MonadState.get >>= f) := fun s e t h => hf s s e t h

theorem Faults.ite {C : Prop} [Decidable C] {q : EStateM ε σ α} (hp : C → Faults F p)
    (hq : ¬C → Faults F q) : Faults F (if C then p else q) := by
  split
  · exact hp ‹_›
  · exact hq ‹_›

end Faults

theorem liftM_eq_ok {x : Except ε α} {s t : σ} {a : α} :
    (liftM x : EStateM ε σ α) s = .ok a t ↔ x = .ok a ∧ s = t := by
  cases x with
  | ok b =>
    constructor
    · rintro ⟨⟩
      exact ⟨rfl, rfl⟩
    · rintro ⟨⟨⟩, rfl⟩
      rfl
  | error e =>
    constructor
    · rintro ⟨⟩
    · rintro ⟨⟨⟩, _⟩

theorem check_bind {x : Except ε α} {a : α} (hx : x = .ok a) (f : α → EStateM ε σ β) :
    ((liftM x : EStateM ε σ α) >>= f) = f a := by
  subst hx
  rfl

theorem reportFaults_eq_ok {p : EStateM Fault σ α} {s t : σ} {a : α} :
    reportFaults p s = .ok a t ↔ p s = .ok a t := by
  unfold reportFaults
  cases p s with
  | ok b u => simp
  | error e u => simp

theorem reportFaults_congr {p q : EStateM Fault σ α} {s : σ} (h : p s = q s) :
    reportFaults p s = reportFaults q s := by
  unfold reportFaults
  rw [h]

theorem reportFaults_bind (p : EStateM Fault σ α) (f : α → EStateM Fault σ β) :
    reportFaults (p >>= f) = (reportFaults p >>= fun a => reportFaults (f a)) := by
  funext s
  simp only [reportFaults, bind, EStateM.bind]
  cases p s with
  | ok a t => rfl
  | error e t => rfl

/-- Two sequences have the same outcome in a state if their first parts have and their second
parts have wherever the first leads. -/
theorem bind_congr_at {p q : EStateM ε σ α} {f g : α → EStateM ε σ β} {s : σ} (hp : p s = q s)
    (hf : ∀ a t, q s = .ok a t → f a t = g a t) : (p >>= f) s = (q >>= g) s := by
  cases hq : q s with
  | ok a t => rw [bind_of_ok (hp.trans hq), bind_of_ok hq, hf a t hq]
  | error e t => rw [bind_of_error (hp.trans hq), bind_of_error hq]

variable {p : EStateM ε Reader α} {f : α → EStateM ε Reader β} {c d : Code} {tail : Bits}
  {a : α} {b : β}

theorem Reads.pure (a : α) : Reads (Pure.pure a : EStateM ε Reader α) .empty tail a :=
  ⟨Code.valid_empty, fun r _ _ => ⟨r, rfl, .refl r⟩⟩

theorem Reads.bind (hp : Reads p c (d.bits ++ tail) a) (hf : Reads (f a) d tail b) :
    Reads (p >>= f) (c ++ d) tail b := by
  refine ⟨hp.valid.append hf.valid, fun r hr hrest => ?_⟩
  rw [hp.valid.bits_append, List.append_assoc] at hrest
  obtain ⟨s, hs, hmoves⟩ := hp.run r hr hrest
  obtain ⟨t, ht, hmoves'⟩ := hf.run s (hmoves.inBounds hr) (hmoves.rest_eq hrest)
  refine ⟨t, (bind_of_ok hs).trans ht, ?_⟩
  rw [hp.valid.bits_append]
  exact hmoves.trans hmoves'

/-- Nothing is read any more behind the last field. -/
theorem Reads.last (hp : Reads p c tail a) (h : f a = Pure.pure b) :
    Reads (p >>= f) c tail b := by
  have hpure : Reads (f a) .empty tail b := h ▸ Reads.pure b
  exact Code.append_empty c ▸ Reads.bind hp hpure

/-- A first step that only looks at what is in front of the reader. -/
theorem Reads.look (hp : Reads p .empty (c.bits ++ tail) a) (hf : Reads (f a) c tail b) :
    Reads (p >>= f) c tail b := Reads.bind hp hf

/-- The last step of a record puts its fields together. -/
theorem Reads.bind_pure {g : α → β} (hp : Reads p c tail a) (h : g a = b) :
    Reads (p >>= fun a => Pure.pure (g a)) c tail b := hp.last (congrArg _ h)

theorem Reads.map {g : α → β} (hp : Reads p c tail a) : Reads (g <$> p) c tail (g a) := by
  refine ⟨hp.valid, fun r hr hrest => ?_⟩
  obtain ⟨s, hs, hmoves⟩ := hp.run r hr hrest
  exact ⟨s, by simp only [Functor.map, EStateM.map, hs], hmoves⟩

theorem Reads.get {f : Reader → EStateM ε Reader α} (hp : Reads p c tail a)
    (h : ∀ r : Reader, r.InBounds → r.rest = c.bits ++ tail → f r = p) :
    Reads (MonadState.get >>= f) c tail a :=
  ⟨hp.valid, fun r hr hrest => by rw [get_bind, h r hr hrest]; exact hp.run r hr hrest⟩

theorem Reads.of_bits (hp : Reads p c tail a) (hd : d.Valid) (h : d.bits = c.bits) :
    Reads p d tail a := ⟨hd, fun r hr hrest => by rw [h] at hrest ⊢; exact hp.run r hr hrest⟩

/-- A check on writing that holds leaves no trace in the code. -/
theorem Reads.check {quantity : String} {low high value : Int} (hp : Reads p c tail a)
    (hlow : low ≤ value) (hhigh : value ≤ high) :
    Reads p (.inRange quantity low high value ++ c) tail a := by
  rw [Code.inRange_eq_empty hlow hhigh, Code.empty_append]
  exact hp

theorem Reads.onlyIf {P : Prop} [Decidable P] {d : α} (hp : P → Reads p c tail a)
    (hd : ¬P → a = d) : Reads (if P then p else Pure.pure d) (.onlyIf P c) tail a := by
  by_cases h : P
  · rw [if_pos h, Code.onlyIf_true h]
    exact hp h
  · rw [if_neg h, Code.onlyIf_false h, hd h]
    exact Reads.pure d

theorem Reads.unless {set : Bool} {d : α} (hp : set = false → Reads p c tail a)
    (hd : set = true → a = d) :
    Reads (if set then Pure.pure d else p) (.onlyIf (!set) c) tail a := by
  cases set with
  | false => exact hp rfl
  | true => exact hd rfl ▸ Reads.pure a

/-- Sequencing where the condition stands outside. -/
theorem ite_bind (P : Prop) [Decidable P] (p q : EStateM ε σ α) (f : α → EStateM ε σ β) :
    (if P then p >>= f else q >>= f) = (if P then p else q) >>= f := by split <;> rfl

theorem Accepts.pure {P : α → Code → Prop} (h : P a .empty) :
    Accepts (Pure.pure a : EStateM ε Reader α) P := by
  rintro r _ _ _ ⟨⟩
  exact ⟨.empty, Code.valid_empty, .refl r, h⟩

theorem Accepts.bind {P : α → Code → Prop} {Q : β → Code → Prop} (hp : Accepts p P)
    (hf : ∀ a c, P a c → Accepts (f a) fun b d => Q b (c ++ d)) : Accepts (p >>= f) Q := by
  intro r b t hr h
  obtain ⟨a, s, hs, ht⟩ := bind_eq_ok.mp h
  obtain ⟨c, hc, hmoves, hP⟩ := hp r a s hr hs
  obtain ⟨d, hd, hmoves', hQ⟩ := hf a c hP s b t (hmoves.inBounds hr) ht
  refine ⟨c ++ d, hc.append hd, ?_, hQ⟩
  rw [hc.bits_append]
  exact hmoves.trans hmoves'

theorem Accepts.get {f : Reader → EStateM ε Reader α} {P : α → Code → Prop}
    (h : ∀ r, Accepts (f r) P) : Accepts (MonadState.get >>= f) P := fun r => h r r

theorem Accepts.mono {P Q : α → Code → Prop} (hp : Accepts p P) (h : ∀ a c, P a c → Q a c) :
    Accepts p Q := fun r a s hr hs =>
  let ⟨c, hc, hmoves, hP⟩ := hp r a s hr hs
  ⟨c, hc, hmoves, h a c hP⟩

theorem Accepts.of_bits {P Q : α → Code → Prop} (hp : Accepts p P)
    (h : ∀ a c, c.Valid → P a c → ∃ d : Code, d.Valid ∧ d.bits = c.bits ∧ Q a d) :
    Accepts p Q := by
  intro r a s hr hs
  obtain ⟨c, hc, hmoves, hP⟩ := hp r a s hr hs
  obtain ⟨d, hd, hbits, hQ⟩ := h a c hc hP
  exact ⟨d, hd, hbits ▸ hmoves, hQ⟩

theorem Accepts.map {g : α → β} {Q : β → Code → Prop} (hp : Accepts p fun a => Q (g a)) :
    Accepts (g <$> p) Q := by
  intro r b s hr h
  rw [map_eq_pure_bind] at h
  obtain ⟨a, t, ht, hb⟩ := bind_eq_ok.mp h
  obtain ⟨rfl, rfl⟩ : g a = b ∧ t = s := by simpa [Pure.pure, EStateM.pure] using hb
  exact hp r a t hr ht

theorem Accepts.throw {P : α → Code → Prop} (e : ε) :
    Accepts (throw e : EStateM ε Reader α) P := by
  rintro r _ _ _ ⟨⟩

theorem Accepts.ite {C : Prop} [Decidable C] {q : EStateM ε Reader α} {P : α → Code → Prop}
    (hp : C → Accepts p P) (hq : ¬C → Accepts q P) : Accepts (if C then p else q) P := by
  split
  · exact hp ‹_›
  · exact hq ‹_›

/-- A parser all of whose values are coded in the same way. -/
theorem Accepts.always {code : α → Code} (hp : Accepts p fun a c => c = code a) :
    Accepts p fun a c => True ∧ c = code a := hp.mono fun _ _ h => ⟨trivial, h⟩

theorem Accepts.onlyIf {C : Prop} [Decidable C] {P : α → Prop} {code : α → Code} {d : α}
    (hp : C → Accepts p fun a c => P a ∧ c = code a) :
    Accepts (if C then p else Pure.pure d) fun a c =>
      ((C → P a) ∧ (¬C → a = d)) ∧ c = .onlyIf C (code a) := by
  refine Accepts.ite (fun h => (hp h).mono ?_) fun h => Accepts.pure ?_
  · rintro a _ ⟨ha, rfl⟩
    exact ⟨⟨fun _ => ha, fun hne => absurd h hne⟩, (Code.onlyIf_true h _).symm⟩
  · exact ⟨⟨fun hC => absurd hC h, fun _ => rfl⟩, (Code.onlyIf_false h _).symm⟩

theorem Accepts.unless {set : Bool} {P : α → Prop} {code : α → Code} {d : α}
    (hp : set = false → Accepts p fun a c => P a ∧ c = code a) :
    Accepts (if set then Pure.pure d else p) fun a c =>
      ((set = false → P a) ∧ (set = true → a = d)) ∧ c = .onlyIf (!set) (code a) := by
  cases set with
  | false =>
    apply (hp rfl).mono
    rintro a _ ⟨ha, rfl⟩
    exact ⟨⟨fun _ => ha, by simp⟩, rfl⟩
  | true => exact Accepts.pure ⟨⟨by simp, fun _ => rfl⟩, rfl⟩

end Sequencing

end AvcSyntax

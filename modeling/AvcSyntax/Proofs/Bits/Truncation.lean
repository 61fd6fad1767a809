import AvcSyntax.Proofs.Bits.GolombFaults

/-!
# Data that are cut short

An action that takes its bits one after the other never looks behind the last of them, and it
misses every one of them that is not there. `Sequential F p` says both of `p`: whatever it yields
it yields again from the same bits, whatever follows them, and in front of only a part of these
bits it fails with a fault of which `F` holds. This goes over from the parts of a sequence to the
whole, so a cut at any bit of a record shows.

`Faults F p` says that `p` fails in no other way than `F` allows.
-/
namespace AvcSyntax

theorem Reader.exists_rest (bs : Bits) :
    ∃ (r : Reader) (tail : Bits), r.InBounds ∧ r.rest = bs ++ tail := by
  have hlength : (bs ++ List.replicate (7 * bs.length) false).length = 8 * bs.length := by
    rw [List.length_append, List.length_replicate]
    omega
  obtain ⟨bytes, -, hbytes⟩ := Bits.exists_ofBytes hlength
  have hrest := (rest_start bytes none).trans hbytes
  exact ⟨_, _, inBounds_start bytes none, hrest⟩

theorem Faults.mapFault {α : Type} {F G : Fault → Prop} {p : Parse α} {g : Fault → Fault}
    (hp : Faults F p) (hg : ∀ e, F e → G (g e)) : Faults G (Parse.mapFault g p) := by
  intro r e s h
  unfold Parse.mapFault at h
  split at h
  · cases h
  · rename_i hfail
    cases h
    exact hg _ (hp r _ _ hfail)

namespace Parse

variable {α β : Type} {F G : Fault → Prop} {p : Parse α} {f : α → Parse β}

section Faults

theorem faults_u (count : Nat) : Faults (· = .bitsExhausted) (u count) := by
  intro r e s h
  simp only [u] at h
  split at h
  · cases h
    rfl
  · cases h

theorem faults_ue : Faults (fun e => e = .bitsExhausted ∨ e = .golombPrefixTooLong) ue := by
  intro r e s h
  rcases ue_cases r with ⟨-, n, t, ht⟩ | ⟨-, t, ht, -⟩ | ⟨-, -, t, ht, -⟩
  · rw [ht] at h
    cases h
  · rw [ht] at h
    cases h
    exact .inr rfl
  · rw [ht] at h
    cases h
    exact .inl rfl

theorem faults_octets (count : Nat) : Faults (· = .bitsExhausted) (octets count) := by
  induction count with
  | zero => exact .pure []
  | succ count ih => exact (faults_u 8).bind fun b => ih.bind fun bs => .pure (b.toUInt8 :: bs)

theorem faults_someBytes (count : Nat) : Faults (· = .bitsExhausted) (someBytes count) := by
  intro r e s h
  rw [someBytes_eq] at h
  split at h
  · cases h
  split at h
  · cases h
  split at h
  · cases h
  · exact faults_octets _ r e s h

theorem faults_bytes (count : Nat) : Faults (·.kind = .endOfData) (bytes count) := by
  have hsome (count : Nat) : Faults (·.kind = .endOfData) (someBytes count) := by
    intro r e s h
    rw [faults_someBytes count r e s h]
    rfl
  refine (hsome count).bind fun found => ?_
  split
  · exact .pure found
  · exact (hsome _).bind fun _ => .throw rfl

theorem faults_inRange (quantity : String) (low high value : Int) :
    Faults (·.kind = .invalidValue) (inRange quantity low high value) := by
  rw [inRange]
  cases hrange : rangeFault? quantity low high value with
  | some fault => exact .throw (kind_of_rangeFault? hrange)
  | none => exact .pure ()

end Faults

section Sequential

/-- From the bits `bs`, wherever they stand and whatever follows, the action yields `a` and stops
behind them. In front of only a part of them it fails, and `F` holds of the fault. -/
structure Takes (F : Fault → Prop) (p : Parse α) (bs : Bits) (a : α) : Prop where
  whole : ∀ (r : Reader) (tail : Bits), r.InBounds → r.rest = bs ++ tail →
    ∃ s, p r = .ok a s ∧ r.Moves bs s
  cut : ∀ r : Reader, r.InBounds → r.rest <+: bs → r.rest ≠ bs →
    ∃ e s, p r = .error e s ∧ F e

/-- Whatever the action yields, it takes from the bits that it passes. -/
def Sequential (F : Fault → Prop) (p : Parse α) : Prop :=
  ∀ r a s, r.InBounds → p r = .ok a s → ∃ bs, r.Moves bs s ∧ Takes F p bs a

/-- Only the bits that are passed are taken. -/
theorem Sequential.takes {r s : Reader} {bs : Bits} {a : α} (hp : Sequential F p)
    (hr : r.InBounds) (h : p r = .ok a s) (hmoves : r.Moves bs s) : Takes F p bs a := by
  obtain ⟨cs, hpassed, htakes⟩ := hp r a s hr h
  rwa [List.append_cancel_right (hmoves.rest.symm.trans hpassed.rest)]

/-- A code that is read back is taken whole. -/
theorem Sequential.takes_code {c : Code} {a : α} (hp : Sequential F p)
    (hreads : ∀ tail, Reads p c tail a) : Takes F p c.bits a := by
  obtain ⟨r, tail, hr, hrest⟩ := Reader.exists_rest c.bits
  obtain ⟨s, hs, hmoves⟩ := (hreads tail).run r hr hrest
  exact hp.takes hr hs hmoves

theorem Takes.pure (a : α) : Takes F (Pure.pure a) [] a := by
  constructor
  case whole => exact fun r _ _ _ => ⟨r, rfl, .refl r⟩
  case cut => exact fun r _ hrest hne => absurd (List.prefix_nil.mp hrest) hne

theorem Takes.bind {bs cs : Bits} {a : α} {b : β} (hp : Takes F p bs a)
    (hf : Takes F (f a) cs b) : Takes F (p >>= f) (bs ++ cs) b := by
  constructor
  case whole =>
    intro r tail hr hrest
    rw [List.append_assoc] at hrest
    obtain ⟨s, hs, hmoves⟩ := hp.whole r _ hr hrest
    obtain ⟨t, ht, hmoves'⟩ := hf.whole s tail (hmoves.inBounds hr) (hmoves.rest_eq hrest)
    exact ⟨t, (bind_of_ok hs).trans ht, hmoves.trans hmoves'⟩
  case cut =>
    intro r hr hrest hne
    -- The cut falls among the bits of the first action, or behind all of them.
    by_cases hfirst : bs <+: r.rest
    · obtain ⟨tail, htail⟩ := hfirst
      obtain ⟨s, hs, hmoves⟩ := hp.whole r tail hr htail.symm
      rw [← htail, List.prefix_append_right_inj] at hrest
      rw [← htail] at hne
      have hleft := hmoves.rest_eq htail.symm
      have hshort : s.rest ≠ cs := by
        rintro rfl
        exact hne (by rw [hleft])
      obtain ⟨e, t, ht, he⟩ := hf.cut s (hmoves.inBounds hr) (hleft ▸ hrest) hshort
      exact ⟨e, t, (bind_of_ok hs).trans ht, he⟩
    · have hpart : r.rest <+: bs :=
        (List.prefix_or_prefix_of_prefix hrest (List.prefix_append bs cs)).resolve_right hfirst
      have hshort : r.rest ≠ bs := fun heq => hfirst (heq ▸ List.prefix_refl _)
      obtain ⟨e, s, hs, he⟩ := hp.cut r hr hpart hshort
      exact ⟨e, s, bind_of_error hs, he⟩

theorem Takes.mapFault {g : Fault → Fault} {bs : Bits} {a : α} (hp : Takes F p bs a)
    (hg : ∀ e, F e → G (g e)) : Takes G (mapFault g p) bs a := by
  constructor
  case whole =>
    intro r tail hr hrest
    obtain ⟨s, hs, hmoves⟩ := hp.whole r tail hr hrest
    exact ⟨s, by rw [Parse.mapFault, hs], hmoves⟩
  case cut =>
    intro r hr hrest hne
    obtain ⟨e, s, hs, he⟩ := hp.cut r hr hrest hne
    exact ⟨g e, s, by rw [Parse.mapFault, hs], hg e he⟩

theorem Sequential.pure (a : α) : Sequential F (Pure.pure a) := by
  intro r _ _ _ h
  cases h
  exact ⟨[], .refl r, .pure a⟩

theorem Sequential.throw (e : Fault) : Sequential F (throw e : Parse α) := by
  intro r a s _ h
  cases h

theorem Sequential.bind (hp : Sequential F p) (hf : ∀ a, Sequential F (f a)) :
    Sequential F (p >>= f) := by
  intro r b t hr h
  obtain ⟨a, s, hs, ht⟩ := bind_eq_ok.mp h
  obtain ⟨bs, hmoves, htakes⟩ := hp r a s hr hs
  obtain ⟨cs, hmoves', htakes'⟩ := hf a s b t (hmoves.inBounds hr) ht
  exact ⟨bs ++ cs, hmoves.trans hmoves', htakes.bind htakes'⟩

theorem Sequential.map (hp : Sequential F p) (g : α → β) : Sequential F (g <$> p) := by
  rw [map_eq_pure_bind]
  exact hp.bind fun a => .pure (g a)

theorem Sequential.ite {C : Prop} [Decidable C] {q : Parse α} (hp : C → Sequential F p)
    (hq : ¬C → Sequential F q) : Sequential F (if C then p else q) := by
  split
  · exact hp ‹_›
  · exact hq ‹_›

theorem Sequential.mapFault {g : Fault → Fault} (hp : Sequential F p)
    (hg : ∀ e, F e → G (g e)) : Sequential G (mapFault g p) := by
  intro r a s hr h
  unfold Parse.mapFault at h
  split at h
  · rename_i heq
    obtain ⟨bs, hmoves, htakes⟩ := hp r a s hr (heq.trans h)
    exact ⟨bs, hmoves, htakes.mapFault hg⟩
  · cases h

theorem Sequential.mono (hp : Sequential F p) (h : ∀ e, F e → G e) : Sequential G p := by
  intro r a s hr hs
  obtain ⟨bs, hmoves, hwhole, hcut⟩ := hp r a s hr hs
  refine ⟨bs, hmoves, hwhole, ?_⟩
  intro r hr hrest hne
  obtain ⟨e, s, hs, he⟩ := hcut r hr hrest hne
  exact ⟨e, s, hs, h e he⟩

/-- An action that always takes the same number of bits, and fails only because they are not
there. -/
theorem Sequential.of_length (count : Nat) {P : α → Prop} {code : α → Code}
    (hreads : ∀ a, P a → ∀ tail, Reads p (code a) tail a)
    (haccepts : Accepts p fun a c => P a ∧ c = code a)
    (hlength : ∀ a, P a → (code a).bits.length = count) (hfaults : Faults F p) :
    Sequential F p := by
  intro r a s hr h
  obtain ⟨_, -, hmoves, ha, rfl⟩ := haccepts r a s hr h
  refine ⟨_, hmoves, fun r tail hr hrest => (hreads a ha tail).run r hr hrest, ?_⟩
  intro r hr hrest hne
  cases hresult : p r with
  | error e t => exact ⟨e, t, rfl, hfaults r e t hresult⟩
  | ok b t =>
    obtain ⟨_, -, hpassed, hb, rfl⟩ := haccepts r b t hr hresult
    have hleft := congrArg List.length hpassed.rest
    rw [List.length_append, hlength b hb, ← hlength a ha] at hleft
    exact absurd (hrest.eq_of_length_le (by omega)) hne

theorem sequential_u (count : Nat) : Sequential (·.kind = .endOfData) (u count) := by
  have hwidth : u count = u (min count 64) := by
    funext r
    rw [u, u, Nat.min_assoc, Nat.min_self]
  have hle : min count 64 ≤ 64 := Nat.min_le_right count 64
  rw [hwidth]
  refine .of_length (min count 64) (fun _ hvalue _ => reads_u hle hvalue) (accepts_u hle) ?_ ?_
  · intro value _
    rw [Code.bits_u, Bits.length_ofNat]
  · intro r e s h
    rw [faults_u _ r e s h]
    rfl

theorem sequential_flag : Sequential (·.kind = .endOfData) flag :=
  (sequential_u 1).bind fun _ => .pure _

theorem sequential_octet (count : Nat) : Sequential (·.kind = .endOfData) (octet count) :=
  (sequential_u count).map _

theorem sequential_bytes (count : Nat) : Sequential (·.kind = .endOfData) (bytes count) := by
  refine .of_length (8 * count) ?_ (accepts_bytes count) ?_ (faults_bytes count)
  · rintro bs rfl tail
    exact reads_bytes bs
  · rintro bs rfl
    rw [Code.bits_bytes, Bits.length_ofBytes]

theorem sequential_word (count : Nat) : Sequential (·.kind = .endOfData) (word count) :=
  (sequential_bytes count).map _

theorem sequential_inRange (quantity : String) (low high value : Int) :
    Sequential F (inRange quantity low high value) := by
  unfold inRange
  split
  · exact .throw _
  · exact .pure ()

theorem sequential_readZeros (more : Nat) :
    Sequential (·.kind = .endOfData) (ExpGolomb.readZeros more) := by
  induction more with
  | zero => exact sequential_flag.bind fun _ => .ite (fun _ => .pure 0) fun _ => .throw _
  | succ more ih =>
    refine sequential_flag.bind fun _ => .ite (fun _ => .pure 0) fun _ => ?_
    exact ih.bind fun zeros => .pure (zeros + 1)

theorem sequential_ue : Sequential (·.kind = .endOfData) ue := by
  rw [ue_eq]
  exact (sequential_readZeros _).bind fun zeros => (sequential_u zeros).bind fun _ => .pure _

theorem sequential_se : Sequential (·.kind = .endOfData) se := by
  rw [se_eq]
  exact sequential_ue.map _

theorem sequential_ueUpTo (quantity : String) (high : Nat) :
    Sequential (·.kind = .endOfData) (ueUpTo quantity high) :=
  sequential_ue.bind fun n => (sequential_inRange quantity 0 high n).bind fun _ => .pure n

theorem sequential_seWithin (quantity : String) (low high : Int) :
    Sequential (·.kind = .endOfData) (seWithin quantity low high) :=
  sequential_se.bind fun n => (sequential_inRange quantity low high n).bind fun _ => .pure n

theorem Sequential.optional (hp : Sequential F p)
    (hF : ∀ e : Fault, e.kind = .endOfData → F e := by exact fun _ he => he) :
    Sequential F (optional p) := by
  refine (sequential_flag.mono hF).bind fun _ => .ite (fun _ => ?_) fun _ => .pure none
  exact hp.bind fun a => .pure (some a)

private theorem sequential_timesAfter (hp : Sequential F p) (count : Nat) (found : List α) :
    Sequential F (timesAfter p count found) := by
  induction count generalizing found with
  | zero => exact .pure found.reverse
  | succ count ih => exact hp.bind fun a => ih (a :: found)

theorem Sequential.times (hp : Sequential F p) (count : Nat) : Sequential F (times count p) :=
  sequential_timesAfter hp count []

/-- Bytes that begin with the bits that were passed are read in the same way, and those that end
inside them are not read. -/
theorem Sequential.of_bytes (hp : Sequential F p) {bytes : List UInt8} {t : Trace} {a : α}
    {s : Reader} (h : p { data := bytes.toArray, trace := t } = .ok a s) :
    (∀ (other : List UInt8) (t' : Trace),
      (Bits.ofBytes bytes).take s.pos <+: Bits.ofBytes other →
        ∃ s', p { data := other.toArray, trace := t' } = .ok a s' ∧ s'.pos = s.pos) ∧
    ∀ (cut : List UInt8) (t' : Trace), cut <+: bytes → 8 * cut.length < s.pos →
      ∃ e s', p { data := cut.toArray, trace := t' } = .error e s' ∧ F e := by
  obtain ⟨bs, hmoves, htakes⟩ := hp _ a s (Reader.inBounds_start bytes t) h
  have hrest := hmoves.rest
  rw [Reader.rest_start] at hrest
  have hpos : s.pos = bs.length := hmoves.pos.trans (Nat.zero_add _)
  constructor
  · intro other t' hother
    rw [hrest, hpos, List.take_left] at hother
    obtain ⟨tail, htail⟩ := hother
    obtain ⟨s', hs', hmoves'⟩ := htakes.whole { data := other.toArray, trace := t' } tail
      (Reader.inBounds_start other t') ((Reader.rest_start other t').trans htail.symm)
    exact ⟨s', hs', (hmoves'.pos.trans (Nat.zero_add _)).trans hpos.symm⟩
  · intro cut t' hcut hshort
    have hlength := Bits.length_ofBytes cut
    have hpart : Bits.ofBytes cut <+: bs := by
      obtain ⟨more, rfl⟩ := hcut
      rw [Bits.ofBytes_append] at hrest
      refine List.prefix_of_prefix_length_le ⟨_, hrest⟩ (List.prefix_append bs s.rest) ?_
      omega
    refine htakes.cut _ (Reader.inBounds_start cut t') ?_ ?_
    · rwa [Reader.rest_start]
    · rw [Reader.rest_start]
      rintro rfl
      omega

end Sequential

end Parse

end AvcSyntax

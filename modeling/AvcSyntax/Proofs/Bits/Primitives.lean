import AvcSyntax.Proofs.Bits.Reading

/-!
# What the primitive parsers read

Numbers of a given width, flags, whole bytes, optional parts and lists, each with what it reads
and with what it accepts. Whole bytes are read the same way at a byte boundary, where they are
copied, and between two of them.
-/
namespace AvcSyntax

namespace Parse

variable {α : Type} {tail : Bits}

theorem u_eq_ok {count : Nat} (hcount : count ≤ 64) {r s : Reader} {value : Nat} :
    u count r = .ok value s ↔ count ≤ r.remaining ∧
      value = (bitsAt r.data r.pos count).toNat ∧
      s = (r.note (.bits r.pos count value)).advance count := by
  rw [u, Nat.min_eq_left hcount]
  by_cases h : r.remaining < count
  · simp [h, Nat.not_le.mpr h]
  · simp only [h, if_false, EStateM.Result.ok.injEq, Nat.not_lt.mp h, true_and]
    constructor
    · rintro ⟨rfl, rfl⟩
      exact ⟨rfl, rfl⟩
    · rintro ⟨rfl, rfl⟩
      exact ⟨rfl, rfl⟩

theorem inBounds_of_u {count : Nat} (hpos : 0 < count) (hcount : count ≤ 64) {r s : Reader}
    {value : Nat} (h : u count r = .ok value s) : r.InBounds := by
  obtain ⟨hroom, -⟩ := (u_eq_ok hcount).mp h
  rw [Reader.remaining] at hroom
  rw [Reader.InBounds]
  omega

theorem inBounds_of_flag {r s : Reader} {b : Bool} (h : flag r = .ok b s) : r.InBounds := by
  obtain ⟨_, _, hu, -⟩ := bind_eq_ok.mp h
  exact inBounds_of_u (by decide) (by decide) hu

theorem reads_u {count value : Nat} (hcount : count ≤ 64) (hvalue : value < 2 ^ count) :
    Reads (u count) (.u count value) tail value := by
  refine ⟨Code.valid_u hcount hvalue, fun r _ hrest => ?_⟩
  rw [Code.bits_u] at hrest ⊢
  have hlength := congrArg List.length hrest
  rw [Reader.length_rest, List.length_append, Bits.length_ofNat] at hlength
  have hbits := Reader.bitsAt_of_rest hrest
  rw [Bits.length_ofNat] at hbits
  have hmoves := Reader.moves_advance hrest (r.trace.add (.bits r.pos count value))
  rw [Bits.length_ofNat] at hmoves
  refine ⟨_, (u_eq_ok hcount).mpr ⟨by omega, ?_, rfl⟩, hmoves⟩
  rw [hbits, Bits.toNat_ofNat_of_lt hvalue]

theorem accepts_u {count : Nat} (hcount : count ≤ 64) :
    Accepts (u count) fun value c => value < 2 ^ count ∧ c = .u count value := by
  intro r value s _ h
  obtain ⟨hroom, rfl, rfl⟩ := (u_eq_ok hcount).mp h
  have hlt := Bits.toNat_lt (bitsAt r.data r.pos count)
  rw [length_bitsAt] at hlt
  have hbits : Bits.ofNat count (bitsAt r.data r.pos count).toNat = bitsAt r.data r.pos count :=
    (Bits.eq_ofNat (length_bitsAt _ _ _) rfl).symm
  refine ⟨.u count _, Code.valid_u hcount hlt, ?_, hlt, rfl⟩
  rw [Code.bits_u, hbits]
  exact Reader.moves_of_room hroom (r.trace.add (.bits r.pos count _))

theorem reads_flag (b : Bool) : Reads flag (.flag b) tail b := by
  refine Reads.bind_pure (reads_u (by decide) b.toNat_lt) ?_
  cases b <;> rfl

theorem accepts_flag : Accepts flag fun b c => c = .flag b := by
  refine (accepts_u (by decide)).bind ?_
  rintro value _ ⟨hlt, rfl⟩
  apply Accepts.pure
  have hvalue : value = 0 ∨ value = 1 := by omega
  rcases hvalue with rfl | rfl <;> rfl

theorem reads_octet {count : Nat} {value : UInt8} (hcount : count ≤ 64)
    (hvalue : value.toNat < 2 ^ count) :
    Reads (octet count) (.u count value.toNat) tail value := by
  have h : Reads (octet count) (.u count value.toNat) tail value.toNat.toUInt8 :=
    (reads_u hcount hvalue).map
  simpa using h

theorem accepts_octet {count : Nat} (hcount : count ≤ 8) :
    Accepts (octet count) fun value c => value.toNat < 2 ^ count ∧ c = .u count value.toNat := by
  refine Accepts.map ((accepts_u (by omega)).mono ?_)
  rintro value _ ⟨hvalue, rfl⟩
  have hbyte : value < 256 := hvalue.trans_le (Nat.pow_le_pow_right (by decide) hcount)
  have hnat : value.toUInt8.toNat = value := by simpa using hbyte
  rw [hnat]
  exact ⟨hvalue, rfl⟩

theorem reads_inRange {quantity : String} {low high value : Int} (hlow : low ≤ value)
    (hhigh : value ≤ high) : Reads (inRange quantity low high value) .empty tail () := by
  have hcheck : inRange quantity low high value = Pure.pure () := by
    rw [inRange, rangeFault?, if_neg (by omega)]
  rw [hcheck]
  exact Reads.pure ()

theorem accepts_inRange {quantity : String} {low high value : Int} :
    Accepts (inRange quantity low high value) fun _ c =>
      (low ≤ value ∧ value ≤ high) ∧ c = .empty := by
  rw [inRange, rangeFault?]
  by_cases h : value < low ∨ high < value
  · rw [if_pos h]
    exact Accepts.throw _
  · rw [if_neg h]
    exact Accepts.pure ⟨⟨by omega, by omega⟩, rfl⟩

theorem reads_skip (bs : Bits) : Reads (skip bs.length) (.ofBits bs) tail () := by
  refine ⟨Code.valid_ofBits bs, fun r _ hrest => ?_⟩
  rw [Code.bits_ofBits] at hrest ⊢
  have hlength := congrArg List.length hrest
  rw [Reader.length_rest, List.length_append] at hlength
  refine ⟨_, ?_, Reader.moves_advance hrest r.trace⟩
  rw [skip, if_neg (by omega)]
  rfl

theorem accepts_skip (count : Nat) : Accepts (skip count) fun _ _ => True := by
  intro r _ s hr h
  unfold skip at h
  split at h
  · cases h
  · rename_i hroom
    cases h
    refine ⟨.ofBits (bitsAt r.data r.pos count), Code.valid_ofBits _, ?_, trivial⟩
    rw [Code.bits_ofBits]
    exact Reader.moves_of_room (Nat.not_lt.mp hroom) r.trace

theorem reads_octets (bs : List UInt8) : Reads (octets bs.length) (.bytes bs) tail bs := by
  have hreads : Reads (octets bs.length) (.concat (bs.map fun b => .u 8 b.toNat)) tail bs := by
    induction bs with
    | nil => exact Reads.pure _
    | cons b bs ih =>
      refine (reads_u (by decide) b.toNat_lt).bind (ih.bind_pure ?_)
      simp
  apply hreads.of_bits (Code.valid_bytes bs)
  rw [Code.bits_bytes]
  clear hreads
  induction bs with
  | nil => rfl
  | cons b bs ih =>
    rw [Bits.ofBytes_cons, ih, List.map_cons, Code.concat,
      (Code.valid_u (by decide) b.toNat_lt).bits_append, Code.bits_u, Bits.ofByte]

theorem accepts_octets (count : Nat) : Accepts (octets count) fun bs _ => bs.length = count := by
  induction count with
  | zero => exact Accepts.pure rfl
  | succ n ih =>
    refine (accepts_u (by decide)).bind fun value _ _ => ih.bind fun bs _ hbs => ?_
    exact Accepts.pure (by rw [List.length_cons, hbs])

def copied (count : Nat) (r : Reader) : List UInt8 :=
  (r.data.extract (r.pos / 8) (r.pos / 8 + count)).toList

theorem someBytes_eq (count : Nat) (r : Reader) :
    someBytes count r =
      if count = 0 then .ok [] r
      else if r.atEnd then .ok [] { r with overrun := true }
      else if r.isAligned then
        .ok (copied count r) ((r.note (.bytes r.pos (copied count r).length)).advance
          (8 * (copied count r).length))
      else octets (min count (r.remaining / 8)) r := by
  rw [someBytes, get_bind]
  by_cases hcount : count = 0
  · rw [if_pos hcount, if_pos hcount]
    rfl
  rw [if_neg hcount, if_neg hcount]
  by_cases hend : r.atEnd
  · rw [if_pos hend, if_pos hend]
    rfl
  rw [if_neg hend, if_neg hend]
  by_cases haligned : r.isAligned
  · rw [if_pos haligned, if_pos haligned]
    rfl
  · rw [if_neg haligned, if_neg haligned]

/-- What is left begins with as many bytes as fit, wherever the reader stands. -/
theorem exists_rest_bytes {r : Reader} {count : Nat} (h : 8 * count ≤ r.remaining) :
    ∃ bs tail, bs.length = count ∧ r.rest = Bits.ofBytes bs ++ tail := by
  obtain ⟨bs, hlength, hbits⟩ := Bits.exists_ofBytes (length_bitsAt r.data r.pos (8 * count))
  have hrest := Reader.rest_eq_bitsAt_append h
  rw [← hbits] at hrest
  exact ⟨bs, _, hlength, hrest⟩

/-- The whole bytes in front of a reader, copied or put together bit by bit. -/
theorem someBytes_of_rest {r : Reader} (hr : r.InBounds) {bs : List UInt8}
    (h : r.rest = Bits.ofBytes bs ++ tail) :
    ∃ s, someBytes bs.length r = .ok bs s ∧ r.Moves (Bits.ofBytes bs) s := by
  have hroom := Reader.length_le_remaining h
  rw [Bits.length_ofBytes, Reader.remaining, Reader.size] at hroom
  by_cases hempty : bs.length = 0
  · obtain rfl := List.length_eq_zero_iff.mp hempty
    exact ⟨r, rfl, .refl r⟩
  have hend : ¬r.atEnd := by
    rw [Reader.atEnd_iff, Reader.size]
    omega
  rw [someBytes_eq, if_neg hempty, if_neg hend]
  by_cases haligned : r.isAligned
  · have hpos : 8 * (r.pos / 8) = r.pos := by
      rw [Reader.isAligned_iff] at haligned
      omega
    have hcopied : copied bs.length r = bs := by
      apply Bits.ofBytes_injective
      have hbits := Reader.bitsAt_of_rest h
      rw [Bits.length_ofBytes] at hbits
      rw [copied, ← bitsAt_bytes _ _ _ (by omega), hpos, hbits]
    have hmoves := Reader.moves_advance h (r.trace.add (.bytes r.pos bs.length))
    rw [Bits.length_ofBytes] at hmoves
    rw [if_pos haligned, hcopied]
    exact ⟨_, rfl, hmoves⟩
  · rw [if_neg haligned, Reader.remaining, Reader.size, Nat.min_eq_left (by omega)]
    have hreads := (reads_octets bs).run r hr (by rw [Code.bits_bytes]; exact h)
    rwa [Code.bits_bytes] at hreads

theorem bytes_of_rest {r : Reader} (hr : r.InBounds) {bs : List UInt8}
    (h : r.rest = Bits.ofBytes bs ++ tail) :
    ∃ s, bytes bs.length r = .ok bs s ∧ r.Moves (Bits.ofBytes bs) s := by
  obtain ⟨s, hs, hmoves⟩ := someBytes_of_rest hr h
  refine ⟨s, ?_, hmoves⟩
  rw [bytes, bind_of_ok hs, if_pos rfl]
  rfl

theorem reads_bytes (bs : List UInt8) : Reads (bytes bs.length) (.bytes bs) tail bs := by
  refine ⟨Code.valid_bytes bs, fun r hr hrest => ?_⟩
  rw [Code.bits_bytes] at hrest ⊢
  exact bytes_of_rest hr hrest

theorem length_someBytes_le {count : Nat} {r s : Reader} {found : List UInt8}
    (hr : r.InBounds) (h : someBytes count r = .ok found s) : 8 * found.length ≤ r.remaining := by
  rw [someBytes_eq] at h
  split at h
  · cases h
    exact Nat.zero_le _
  split at h
  · cases h
    exact Nat.zero_le _
  split at h
  · rename_i haligned
    cases h
    rw [Reader.isAligned_iff] at haligned
    simp only [copied, Reader.remaining, Reader.size, Array.length_toList, Array.size_extract]
    omega
  · obtain ⟨_, _, _, hlength⟩ := accepts_octets _ r found s hr h
    omega

theorem accepts_bytes (count : Nat) :
    Accepts (bytes count) fun bs c => bs.length = count ∧ c = .bytes bs := by
  intro r found s hr h
  have hroom : 8 * count ≤ r.remaining := by
    obtain ⟨bs, t, ht, hrest⟩ := bind_eq_ok.mp h
    have hle := length_someBytes_le hr ht
    split at hrest
    · omega
    · obtain ⟨_, _, _, hthrow⟩ := bind_eq_ok.mp hrest
      cases hthrow
  obtain ⟨bs, tail, hlength, hrest⟩ := exists_rest_bytes hroom
  obtain ⟨t, ht, hmoves⟩ := bytes_of_rest hr hrest
  rw [hlength, h] at ht
  obtain ⟨rfl, rfl⟩ : found = bs ∧ s = t := by simpa using ht
  exact ⟨.bytes found, Code.valid_bytes found, Code.bits_bytes found ▸ hmoves, hlength, rfl⟩

theorem reads_word {count value : Nat} (h : value < 256 ^ count) :
    Reads (word count) (.word count value) tail value := by
  have hbytes : Reads (word (bytesOfNat count value).length) (.word count value) tail
      (bytesToNat (bytesOfNat count value)) := (reads_bytes _).map
  rwa [bytesToNat_bytesOfNat, Nat.mod_eq_of_lt h, length_bytesOfNat] at hbytes

theorem accepts_word (count : Nat) :
    Accepts (word count) fun value c => value < 256 ^ count ∧ c = .word count value := by
  refine Accepts.map ((accepts_bytes count).mono ?_)
  rintro bs _ ⟨rfl, rfl⟩
  exact ⟨bytesToNat_lt bs, by rw [Code.word, bytesOfNat_bytesToNat]⟩

theorem reads_optional {p : Parse α} {code : α → Code} {o : Option α}
    (h : ∀ a ∈ o, Reads p (code a) tail a) : Reads (optional p) (.optional code o) tail o := by
  cases o with
  | none => exact (reads_flag false).last rfl
  | some a => exact (reads_flag true).bind ((h a rfl).bind_pure rfl)

theorem accepts_optional_of {p : Parse α} {P : α → Code → Prop} (h : Accepts p P) :
    Accepts (optional p) fun o c =>
      match o with
      | none => c = .flag false
      | some a => ∃ d, P a d ∧ c = .flag true ++ d := by
  refine accepts_flag.bind ?_
  rintro (_ | _) _ rfl
  · exact Accepts.pure (Code.append_empty _)
  · refine h.bind fun a d hd => Accepts.pure ⟨d, hd, ?_⟩
    rw [Code.append_empty]

theorem accepts_optional {p : Parse α} {P : α → Prop} {code : α → Code}
    (h : Accepts p fun a c => P a ∧ c = code a) :
    Accepts (optional p) fun o c => (∀ a ∈ o, P a) ∧ c = .optional code o := by
  apply (accepts_optional_of h).mono
  rintro (_ | a) c hc
  · exact ⟨by simp, hc⟩
  · obtain ⟨_, ⟨ha, rfl⟩, rfl⟩ := hc
    exact ⟨by simpa using ha, rfl⟩

theorem accepts_optional_mem {p : Parse α} {P : α → Prop} (h : Accepts p fun a _ => P a) :
    Accepts (optional p) fun o _ => ∀ a ∈ o, P a := by
  apply (accepts_optional_of h).mono
  rintro (_ | a) c hc
  · simp
  · obtain ⟨_, ha, _⟩ := hc
    simpa using ha

private theorem reads_timesAfter {p : Parse α} {code : α → Code} (as found : List α)
    (h : ∀ a ∈ as, ∀ tail, Reads p (code a) tail a) :
    Reads (timesAfter p as.length found) (.concat (as.map code)) tail (found.reverse ++ as) := by
  induction as generalizing found with
  | nil =>
    rw [List.append_nil]
    exact Reads.pure found.reverse
  | cons a as ih =>
    refine (h a (List.mem_cons_self ..) _).bind ?_
    have has := ih (a :: found) fun b hb => h b (List.mem_cons_of_mem _ hb)
    simpa using has

theorem reads_times {p : Parse α} {code : α → Code} {as : List α}
    (h : ∀ a ∈ as, ∀ tail, Reads p (code a) tail a) :
    Reads (times as.length p) (.concat (as.map code)) tail as := reads_timesAfter as [] h

private theorem accepts_timesAfter {p : Parse α} {P : α → Code → Prop} (h : Accepts p P)
    (count : Nat) (found : List α) :
    Accepts (timesAfter p count found) fun all c => ∃ as cs, all = found.reverse ++ as ∧
      as.length = count ∧ List.Forall₂ P as cs ∧ c = .concat cs := by
  induction count generalizing found with
  | zero => exact Accepts.pure ⟨[], [], by simp, rfl, .nil, rfl⟩
  | succ n ih =>
    refine h.bind fun a c ha => (ih (a :: found)).mono ?_
    rintro _ _ ⟨as, cs, rfl, rfl, has, rfl⟩
    exact ⟨a :: as, c :: cs, by simp, rfl, .cons ha has, rfl⟩

theorem accepts_times_of {p : Parse α} {P : α → Code → Prop} (h : Accepts p P) (count : Nat) :
    Accepts (times count p) fun as c => as.length = count ∧
      ∃ cs, List.Forall₂ P as cs ∧ c = .concat cs := by
  apply (accepts_timesAfter h count []).mono
  rintro _ _ ⟨as, cs, rfl, hlength, has, rfl⟩
  exact ⟨hlength, cs, has, rfl⟩

theorem accepts_times {p : Parse α} {P : α → Prop} {code : α → Code}
    (h : Accepts p fun a c => P a ∧ c = code a) (count : Nat) :
    Accepts (times count p) fun as c => as.length = count ∧
      (∀ a ∈ as, P a) ∧ c = .concat (as.map code) := by
  apply (accepts_times_of h count).mono
  rintro as _ ⟨hlength, cs, has, rfl⟩
  refine ⟨hlength, ?_⟩
  clear hlength
  induction has with
  | nil => exact ⟨by simp, rfl⟩
  | cons ha _ ih =>
    obtain ⟨ha, rfl⟩ := ha
    refine ⟨by simpa [ha] using ih.1, ?_⟩
    rw [Code.concat, ih.2, List.map_cons, Code.concat]

theorem accepts_times_mem {p : Parse α} {P : α → Prop} (h : Accepts p fun a _ => P a)
    (count : Nat) : Accepts (times count p) fun as _ => as.length = count ∧ ∀ a ∈ as, P a := by
  apply (accepts_times_of h count).mono
  rintro as _ ⟨hlength, cs, has, -⟩
  refine ⟨hlength, ?_⟩
  clear hlength
  induction has with
  | nil => simp
  | cons ha _ ih => exact List.forall_mem_cons.mpr ⟨ha, ih⟩

theorem reads_mapFault {p : Parse α} {f : Fault → Fault} {c : Code} {a : α}
    (h : Reads p c tail a) : Reads (mapFault f p) c tail a := by
  refine ⟨h.valid, fun r hr hrest => ?_⟩
  obtain ⟨s, hs, hmoves⟩ := h.run r hr hrest
  exact ⟨s, by rw [mapFault, hs], hmoves⟩

theorem accepts_mapFault {p : Parse α} {f : Fault → Fault} {P : α → Code → Prop}
    (h : Accepts p P) : Accepts (mapFault f p) P := by
  intro r a s hr hs
  apply h r a s hr
  unfold mapFault at hs
  split at hs
  · rename_i heq
    exact heq.trans hs
  · cases hs

end Parse

section Presence

variable {ε α : Type} {p : EStateM ε Reader α} {code : α → Code} {tail : Bits}

/-- A part whose presence the context tells. -/
theorem Reads.presence {C : Prop} [Decidable C] {o : Option α} (hC : C ↔ o.isSome = true)
    (h : ∀ a ∈ o, Reads p (code a) tail a) (d : α) :
    Reads (if C then some <$> p else Pure.pure none) (.onlyIf C (code (o.getD d))) tail o := by
  refine Reads.onlyIf (fun hset => ?_) fun hset => ?_
  · obtain ⟨a, rfl⟩ := Option.isSome_iff_exists.mp (hC.mp hset)
    exact (h a rfl).map
  · rwa [hC, Option.not_isSome_iff_eq_none] at hset

/-- A part whose presence the context tells. Whatever is known of its code is known of the whole
as soon as it is known of the part that is there. -/
theorem Accepts.presence_of {P Q : α → Prop} {C : Prop} [Decidable C]
    (hp : C → Accepts p fun a c => P a ∧ (Q a → c = code a)) (d : α) :
    Accepts (if C then some <$> p else Pure.pure none) fun o c =>
      (C ↔ o.isSome = true) ∧ (∀ a ∈ o, P a) ∧
        ((∀ a ∈ o, Q a) → c = .onlyIf C (code (o.getD d))) := by
  refine Accepts.ite (fun hset => Accepts.map ((hp hset).mono ?_)) fun hset => Accepts.pure ?_
  · rintro a c ⟨ha, hc⟩
    refine ⟨by simpa using hset, by simpa using ha, fun hQ => ?_⟩
    rw [Code.onlyIf_true hset]
    exact hc (hQ a rfl)
  · exact ⟨by simpa using hset, by simp, fun _ => by rw [Code.onlyIf_false hset]⟩

theorem Accepts.presence {P : α → Prop} {C : Prop} [Decidable C]
    (hp : C → Accepts p fun a c => P a ∧ c = code a) (d : α) :
    Accepts (if C then some <$> p else Pure.pure none) fun o c =>
      (C ↔ o.isSome = true) ∧ (∀ a ∈ o, P a) ∧ c = .onlyIf C (code (o.getD d)) := by
  have hp' (h : C) : Accepts p fun a c => P a ∧ (True → c = code a) :=
    (hp h).mono fun _ _ ha => ⟨ha.1, fun _ => ha.2⟩
  apply (Accepts.presence_of hp' d).mono
  rintro o c ⟨hC, hP, hc⟩
  exact ⟨hC, hP, hc fun _ _ => trivial⟩

end Presence

section Lifting

variable {α : Type} {tail : Bits}

/-- Reporting faults for a whole unit changes nothing about what is read. -/
theorem Reads.report {p : Parse α} {c : Code} {a : α} (h : Reads p c tail a) :
    Reads (reportFaults p) c tail a := by
  refine ⟨h.valid, fun r hr hrest => ?_⟩
  obtain ⟨s, hs, hmoves⟩ := h.run r hr hrest
  exact ⟨s, reportFaults_eq_ok.mpr hs, hmoves⟩

theorem Accepts.report {p : Parse α} {P : α → Code → Prop} (h : Accepts p P) :
    Accepts (reportFaults p) P :=
  fun r a s hr hs => h r a s hr (reportFaults_eq_ok.mp hs)

theorem Reads.ofExcept {ε : Type} {x : Except ε α} {a : α} (h : x = .ok a) :
    Reads (liftM x : EStateM ε Reader α) .empty tail a := by
  subst h
  exact ⟨Code.valid_empty, fun r _ _ => ⟨r, rfl, .refl r⟩⟩

theorem Accepts.ofExcept {ε : Type} (x : Except ε α) :
    Accepts (liftM x : EStateM ε Reader α) fun a c => x = .ok a ∧ c = .empty := by
  intro r a s _ h
  cases x with
  | error e => cases h
  | ok b =>
    cases h
    exact ⟨.empty, Code.valid_empty, .refl r, rfl, rfl⟩

end Lifting

end AvcSyntax

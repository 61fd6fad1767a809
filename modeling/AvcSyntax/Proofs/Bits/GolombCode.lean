import AvcSyntax.Proofs.Bits.Numbers
import AvcSyntax.Proofs.Retracing

/-!
# Exp-Golomb codes stand for numbers one to one

A number that has a code is written in as many bits as its size says, and it is read back from them
wherever they stand and whatever follows. The other way round, whatever is read as a number is the
code of that number and of no other. A number that has no code is refused before anything is
written, and finding the place of a signed number takes no more than 64 bits.
-/
namespace AvcSyntax

section Bijection

variable {α : Type}

/-- Wherever there are `size` bits of room the builder writes so many and leaves all others alone,
and from these bits, wherever they stand and whatever follows, the parser reads `a` and stops
behind them. -/
def Transfers (build : Build Unit) (p : Parse α) (size : Nat) (a : α) : Prop :=
  ∀ w : Writer, size ≤ w.remaining →
    ∃ v, build w = .ok () v ∧ v.pos = w.pos + size ∧ v.overrun = w.overrun ∧
      v.data.size = w.data.size ∧ (∀ i, i < w.pos ∨ v.pos ≤ i → bitAt v.data i = bitAt w.data i) ∧
      ∀ r : Reader, bitsAt v.data w.pos size <+: r.rest →
        ∃ s, p r = .ok a s ∧ s.pos = r.pos + size ∧ s.overrun = r.overrun

/-- The buffer that was written is read. -/
theorem Transfers.read_back {build : Build Unit} {p : Parse α} {size : Nat} {a : α}
    (h : Transfers build p size a) {w : Writer} (hroom : size ≤ w.remaining) :
    ∃ v s, build w = .ok () v ∧ v.pos = w.pos + size ∧
      p { data := v.data, pos := w.pos } = .ok a s ∧ s.pos = w.pos + size := by
  obtain ⟨v, hv, hend, -, hsize, -, hread⟩ := h w hroom
  have hleft : size ≤ ({ data := v.data, pos := w.pos } : Reader).remaining := by
    rwa [Reader.remaining, Reader.size, hsize]
  obtain ⟨s, hs, hpos, -⟩ := hread _ ⟨_, (Reader.rest_eq_bitsAt_append hleft).symm⟩
  exact ⟨v, s, hv, hend, hs, hpos⟩

theorem Reads.transfers {c : Code} {p : Parse α} {a : α} (hp : ∀ tail, Reads p c tail a)
    (hne : c.bits ≠ []) : Transfers c.write p c.bits.length a := by
  intro w hroom
  obtain ⟨v, hv, hmoves⟩ := (hp []).valid.appends w hroom
  have hfills : w.Fills c.bits v := ⟨hmoves, hroom⟩
  refine ⟨v, hv, hmoves.pos, hmoves.overrun, hmoves.size, fun _ => hfills.bitAt_eq, ?_⟩
  intro r hahead
  rw [hfills.bitsAt_eq hne] at hahead
  obtain ⟨tail, htail⟩ := hahead
  have hr : r.InBounds := by
    have hlength := congrArg List.length htail
    have hpos := List.length_pos_iff.mpr hne
    rw [Reader.length_rest, List.length_append] at hlength
    exact Reader.inBounds_of_remaining (by omega)
  obtain ⟨s, hs, hpassed⟩ := (hp tail).run r hr htail.symm
  exact ⟨s, hs, hpassed.pos, hpassed.overrun⟩

/-- The codes of some values and the values read from codes correspond one to one. -/
structure BijectiveCode (codable : α → Prop) (size : α → Nat) (code : α → Code) (p : Parse α) :
    Prop where
  transfers : ∀ a, codable a → Transfers (code a).write p (size a) a
  /-- What was read is what writing its result writes. -/
  retraces : ∀ r s a, p r = .ok a s → codable a ∧ Retraces (code a).write r s

/-- A parser that reads every code back and accepts nothing else. -/
theorem BijectiveCode.of_reads {codable : α → Prop} {size : α → Nat} {code : α → Code}
    {p : Parse α} (hreads : ∀ a, codable a → ∀ tail, Reads p (code a) tail a)
    (haccepts : Accepts p fun a c => codable a ∧ c = code a)
    (hbounds : ∀ r s a, p r = .ok a s → r.InBounds)
    (hlength : ∀ a, codable a → (code a).bits.length = size a) (hpos : ∀ a, 0 < size a) :
    BijectiveCode codable size code p := by
  constructor
  case transfers =>
    intro a ha
    have hne : (code a).bits ≠ [] := by
      rw [← List.length_pos_iff, hlength a ha]
      exact hpos a
    rw [← hlength a ha]
    exact Reads.transfers (hreads a ha) hne
  case retraces =>
    intro r s a h
    obtain ⟨c, ⟨ha, rfl⟩, hretraces⟩ := haccepts.retraces (hbounds r s a h) h
    exact ⟨ha, hretraces⟩

end Bijection

namespace ExpGolomb

theorem maxValue_eq : maxValue = 2 ^ 33 - 2 := by decide

theorem size_pos (n : Nat) : 0 < size n := Nat.succ_pos _

theorem size_eq {n : Nat} (h : n ≤ maxValue) : size n = 2 * Nat.log2 (n + 1) + 1 := by
  rw [size, zeros_eq h]

theorem bijectiveCode_ue : BijectiveCode (· ≤ maxValue) size Code.ue Parse.ue :=
  .of_reads (fun _ hn _ => Parse.reads_ue hn) Parse.accepts_ue
    (fun _ _ _ h => Parse.inBounds_of_ue h) (fun _ hn => length_bits_code hn) size_pos

theorem bijectiveCode_se :
    BijectiveCode (fun n => -(2 ^ 32 - 1) ≤ n ∧ n ≤ 2 ^ 32 - 1) signedSize Code.se Parse.se :=
  .of_reads (fun _ hn _ => Parse.reads_se hn.1 hn.2) Parse.accepts_se
    (fun _ _ _ h => Parse.inBounds_of_se h)
    (fun _ hn => length_bits_code (index_le_maxValue hn.1 hn.2)) (fun _ => size_pos _)

/-- A number without a code is refused before anything is written. -/
theorem write_of_maxValue_lt {n : Nat} (h : maxValue < n) (w : Writer) :
    (code n).write w = .error .golombValueTooLarge w := by
  rw [code, if_pos h]
  rfl

/-- The signed numbers of more than 32 bits have no code. -/
theorem maxValue_lt_index {n : Int} (h : n < -(2 ^ 32 - 1) ∨ 2 ^ 32 - 1 < n) :
    maxValue < index n := by
  rw [maxValue_eq, index]
  split
  · rw [saturate]
    omega
  · omega

/-- A result of unsigned 64-bit arithmetic, which is lost if it does not fit. -/
def word? (n : Int) : Option Nat := if 0 ≤ n ∧ n < 2 ^ 64 then some n.toNat else none

theorem word?_natCast {n : Nat} (h : n < 2 ^ 64) : word? n = some n := by
  rw [word?, if_pos (by omega), Int.toNat_natCast]

/-- The place of a signed number by 64-bit arithmetic. Only the doubling of what is not positive
may saturate; no other step may leave the range. -/
def index? (n : Int) : Option Nat :=
  if n ≤ 0 then do
    let magnitude ← word? (-n)
    return saturate (2 * magnitude)
  else do
    let number ← word? n
    let double ← word? (2 * number)
    word? (double - 1)

theorem index?_eq {n : Int} (hlow : -2 ^ 63 ≤ n) (hhigh : n < 2 ^ 63) :
    index? n = some (index n) := by
  unfold index? index
  by_cases hn : n ≤ 0
  · obtain ⟨m, rfl⟩ : ∃ m : Nat, n = -m := ⟨n.natAbs, by omega⟩
    rw [if_pos hn, if_pos hn, neg_neg, word?_natCast (by omega), Int.natAbs_neg, Int.natAbs_natCast]
    rfl
  · obtain ⟨m, rfl⟩ : ∃ m : Nat, n = m := ⟨n.toNat, by omega⟩
    have hdouble : 2 * (m : Int) = (2 * m : Nat) := by omega
    have hplace : ((2 * m : Nat) : Int) - 1 = (2 * m - 1 : Nat) := by omega
    rw [if_neg hn, if_neg hn, word?_natCast (by omega), Option.bind_eq_bind, Option.bind_some,
      hdouble, word?_natCast (by omega), Option.bind_some, hplace, word?_natCast (by omega),
      Int.toNat_natCast]

/-- Both codes are one to one between the numbers that have a code, in as many bits as their sizes
say, and what is read as a number. All others are refused before anything is written, the least
and the largest word among them, whose places are found without leaving 64 bits. -/
theorem codes_bijective :
    (BijectiveCode (· ≤ 2 ^ 33 - 2) size Code.ue Parse.ue ∧
      (∀ n ≤ 2 ^ 33 - 2, size n = 2 * Nat.log2 (n + 1) + 1) ∧
      ∀ n, 2 ^ 33 - 2 < n → ∀ w, (Code.ue n).write w = .error .golombValueTooLarge w) ∧
    (BijectiveCode (fun n => -(2 ^ 32 - 1) ≤ n ∧ n ≤ 2 ^ 32 - 1) signedSize Code.se Parse.se ∧
      (∀ n, -(2 ^ 32 - 1) ≤ n → n ≤ 2 ^ 32 - 1 →
        signedSize n = 2 * Nat.log2 (index n + 1) + 1) ∧
      (∀ n, n < -(2 ^ 32 - 1) ∨ 2 ^ 32 - 1 < n →
        ∀ w, (Code.se n).write w = .error .golombValueTooLarge w) ∧
      ∀ n : Int64, index? n.toInt = some (index n.toInt)) := by
  rw [← maxValue_eq]
  refine ⟨⟨bijectiveCode_ue, fun _ hn => size_eq hn, fun _ hn w => write_of_maxValue_lt hn w⟩,
    bijectiveCode_se, ?_, ?_, ?_⟩
  · intro n hlow hhigh
    exact size_eq (index_le_maxValue hlow hhigh)
  · intro n hn w
    exact write_of_maxValue_lt (maxValue_lt_index hn) w
  · intro n
    exact index?_eq n.le_toInt n.toInt_lt

/-- The longest codes over a buffer of ones, off a byte boundary, a code in front of other bits, and
the first numbers of either sign that have no code. -/
theorem codes_bijective_longest :
    let w : Writer := { data := Array.replicate 10 0xff, pos := 5 }
    let r : Reader := { data := #[0x89, 0xff], pos := 1 }
    (∃ v s, (Code.ue (2 ^ 33 - 2)).write w = .ok () v ∧ v.pos = 70 ∧
      Parse.ue { data := v.data, pos := 5 } = .ok (2 ^ 33 - 2) s ∧ s.pos = 70) ∧
    Retraces (Code.ue 8).write r { r with pos := 8 } ∧
    (Code.ue (2 ^ 33 - 1)).write w = .error .golombValueTooLarge w ∧
    (∃ v s, (Code.se (-(2 ^ 32 - 1))).write w = .ok () v ∧ v.pos = 70 ∧
      Parse.se { data := v.data, pos := 5 } = .ok (-(2 ^ 32 - 1)) s ∧ s.pos = 70) ∧
    (Code.se (2 ^ 32)).write w = .error .golombValueTooLarge w ∧
    (Code.se Int64.minValue.toInt).write w = .error .golombValueTooLarge w ∧
    index? Int64.minValue.toInt = some (2 ^ 64 - 1) := by
  intro w r
  obtain ⟨⟨hue, -, hlarge⟩, hse, -, houtside, hplace⟩ := codes_bijective
  have hread : Parse.ue r = .ok 8 { r with pos := 8 } := by cbv
  refine ⟨(hue.transfers _ (Nat.le_refl _)).read_back (by decide), (hue.retraces r _ 8 hread).2,
    hlarge _ (by decide) w, (hse.transfers _ (by decide)).read_back (by decide),
    houtside _ (by decide) w, houtside _ (by decide) w, ?_⟩
  rw [hplace]
  decide

end ExpGolomb

end AvcSyntax

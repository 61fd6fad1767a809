import AvcSyntax.Bits.ExpGolomb
import AvcSyntax.Proofs.Bits.Windows

/-!
# The algebra of codes

Codes form a monoid under being put one behind the other, in which a fault absorbs whatever
follows. A code is valid if writing it can fail only for lack of room. The bits of a valid code
are those of its parts, and the length of any code is at most the sum of the lengths of its
parts, whether or not it is valid.
-/
namespace AvcSyntax

section Ranges

variable {quantity : String} {low high value : Int}

theorem rangeFault?_eq_none :
    rangeFault? quantity low high value = none ↔ low ≤ value ∧ value ≤ high := by
  rw [rangeFault?]
  split <;> simp <;> omega

theorem kind_of_rangeFault? {fault : Fault}
    (h : rangeFault? quantity low high value = some fault) : fault.kind = .invalidValue := by
  rw [rangeFault?] at h
  split at h
  · cases h
    rfl
  · cases h

end Ranges

namespace Field

/-- Whether a number fits the width of its field. -/
def Fits : Field → Prop
  | number width value => width ≤ 64 ∧ value < 2 ^ width
  | bytes _ => True

end Field

namespace Code

theorem append_eq (c d : Code) :
    c ++ d = if c.fault.isSome then c else ⟨c.fields ++ d.fields, d.fault⟩ := rfl

theorem append_of_fault {c : Code} (h : c.fault.isSome) (d : Code) : c ++ d = c := by
  rw [append_eq, if_pos h]

theorem append_of_no_fault {c : Code} (h : c.fault = none) (d : Code) :
    c ++ d = ⟨c.fields ++ d.fields, d.fault⟩ := by
  rw [append_eq, if_neg (by simp [h])]

@[simp] theorem empty_append (c : Code) : empty ++ c = c := rfl

@[simp] theorem append_empty (c : Code) : c ++ empty = c := by
  obtain ⟨fields, fault⟩ := c
  cases fault with
  | none => rw [append_of_no_fault rfl, empty, List.append_nil]
  | some e => rw [append_of_fault rfl]

theorem append_assoc (c d e : Code) : c ++ d ++ e = c ++ (d ++ e) := by
  rcases hc : c.fault with _ | fault
  · rw [append_of_no_fault hc, append_of_no_fault hc]
    rcases hd : d.fault with _ | fault
    · rw [append_of_no_fault rfl, append_of_no_fault hd, List.append_assoc]
    · rw [append_of_fault rfl, append_of_fault (by rw [hd]; rfl), hd]
  · have h : c.fault.isSome := by rw [hc]; rfl
    rw [append_of_fault h, append_of_fault h, append_of_fault h]

theorem fault_append {c d : Code} :
    (c ++ d).fault = none ↔ c.fault = none ∧ d.fault = none := by
  rcases hc : c.fault with _ | fault
  · rw [append_of_no_fault hc]
    simp
  · rw [append_of_fault (by rw [hc]; rfl), hc]
    simp

theorem bits_append {c : Code} (h : c.fault = none) (d : Code) :
    (c ++ d).bits = c.bits ++ d.bits := by
  rw [append_of_no_fault h, bits, bits, bits, List.flatMap_append]

theorem checked_eq {α : Type} {x : Except Fault α} {a : α} (h : x = .ok a) (code : α → Code) :
    checked x code = code a := by rw [h, checked]

@[simp] theorem bits_empty : empty.bits = [] := rfl

theorem bits_u (width value : Nat) : (u width value).bits = Bits.ofNat width value :=
  List.append_nil _

theorem bits_flag (b : Bool) : (flag b).bits = [b] := by rw [flag, bits_u, Bits.ofNat_one]

theorem bits_bytes (bs : List UInt8) : (bytes bs).bits = Bits.ofBytes bs := List.append_nil _

/-- Whether writing the code can fail only for lack of room. -/
def Valid (c : Code) : Prop := c.fault = none ∧ ∀ f ∈ c.fields, f.Fits

theorem valid_empty : empty.Valid := ⟨rfl, by simp [empty]⟩

theorem valid_u {width value : Nat} (hwidth : width ≤ 64) (hvalue : value < 2 ^ width) :
    (u width value).Valid := ⟨rfl, by simpa [u, Field.Fits] using ⟨hwidth, hvalue⟩⟩

theorem valid_flag (b : Bool) : (flag b).Valid := valid_u (by decide) b.toNat_lt

theorem valid_bytes (bs : List UInt8) : (bytes bs).Valid := ⟨rfl, by simp [bytes, Field.Fits]⟩

theorem valid_append {c d : Code} : (c ++ d).Valid ↔ c.Valid ∧ d.Valid := by
  by_cases hc : c.fault = none
  · rw [append_of_no_fault hc]
    simp only [Valid, List.forall_mem_append, hc, true_and]
    tauto
  · rw [append_of_fault (Option.isSome_iff_ne_none.mpr hc)]
    simp only [Valid, hc, false_and]

theorem Valid.append {c d : Code} (hc : c.Valid) (hd : d.Valid) : (c ++ d).Valid :=
  valid_append.mpr ⟨hc, hd⟩

theorem Valid.bits_append {c : Code} (hc : c.Valid) (d : Code) :
    (c ++ d).bits = c.bits ++ d.bits := Code.bits_append hc.1 d

theorem inRange_eq_empty {quantity : String} {low high value : Int} (hlow : low ≤ value)
    (hhigh : value ≤ high) : inRange quantity low high value = empty := by
  rw [inRange, rangeFault?, if_neg (by omega), empty]

theorem fault_inRange {quantity : String} {low high value : Int} :
    (inRange quantity low high value).fault = none ↔ low ≤ value ∧ value ≤ high :=
  rangeFault?_eq_none

@[simp] theorem onlyIf_true {p : Prop} [Decidable p] (h : p) (c : Code) : onlyIf p c = c :=
  if_pos h

@[simp] theorem onlyIf_false {p : Prop} [Decidable p] (h : ¬p) (c : Code) :
    onlyIf p c = empty := if_neg h

/-- A part that a flag inside a conditional code announces. -/
theorem onlyIf_append_onlyIf {p : Prop} [Decidable p] {set : Bool} (h : ¬p → set = false)
    (c d : Code) : onlyIf p (c ++ onlyIf set d) = onlyIf p c ++ onlyIf set d := by
  by_cases hp : p
  · rw [onlyIf_true hp, onlyIf_true hp]
  · rw [onlyIf_false hp, onlyIf_false hp, h hp]
    rfl

theorem append_congr {c c' d d' : Code} (hc : c = c') (hd : d = d') : c ++ d = c' ++ d' := by
  rw [hc, hd]

/-- A conditional code matters only under its condition. -/
theorem onlyIf_congr {p : Prop} [Decidable p] {c d : Code} (h : p → c = d) :
    onlyIf p c = onlyIf p d := by
  by_cases hp : p
  · rw [h hp]
  · rw [onlyIf_false hp, onlyIf_false hp]

/-- A value that is kept only where it is coded. -/
theorem onlyIf_kept {α : Type} {p : Prop} [Decidable p] (code : α → Code) (a d : α) :
    onlyIf p (code (if p then a else d)) = onlyIf p (code a) :=
  onlyIf_congr fun hp => by rw [if_pos hp]

theorem onlyIf_decide_flag (p : Prop) [Decidable p] (b : Bool) :
    onlyIf p (flag (p && b)) = onlyIf p (flag b) :=
  onlyIf_congr fun hp => by rw [decide_eq_true hp, Bool.true_and]

theorem onlyIf_flag (set b : Bool) : onlyIf set (flag (set && b)) = onlyIf set (flag b) :=
  onlyIf_congr fun hset => by rw [hset, Bool.true_and]

/-- A part of a record that is there where it is coded, in a form with the same code. -/
theorem onlyIf_presence {α : Type} {p : Prop} [Decidable p] (code : α → Code) {a b : α}
    (h : p → code a = code b) (o : Option α) (d : α) :
    onlyIf p (code ((if p then some a else o).getD d)) = onlyIf p (code b) :=
  onlyIf_congr fun hp => by rw [if_pos hp, Option.getD_some, h hp]

/-- A part of a record that may be absent, in a form with the same code. -/
theorem optional_map {α : Type} {code : α → Code} {f : α → α} (h : ∀ a, code (f a) = code a)
    (o : Option α) : optional code (o.map f) = optional code o := by
  cases o with
  | none => rfl
  | some a => rw [Option.map_some, optional, optional, h]

theorem concat_u {α : Type} (as : List α) (width : Nat) (value : α → Nat) :
    concat (as.map fun a => u width (value a)) =
      ⟨as.map fun a => .number width (value a), none⟩ := by
  induction as with
  | nil => rfl
  | cons a as ih =>
    rw [List.map_cons, concat, ih, append_of_no_fault rfl]
    rfl

/-- The code of some bits, each a field of its own. -/
def ofBits (bs : Bits) : Code := ⟨bs.map fun b => .number 1 b.toNat, none⟩

@[simp] theorem bits_ofBits (bs : Bits) : (ofBits bs).bits = bs := by
  induction bs with
  | nil => rfl
  | cons b bs ih =>
    have hcons : (ofBits (b :: bs)).bits = Bits.ofNat 1 b.toNat ++ (ofBits bs).bits := rfl
    rw [hcons, Bits.ofNat_one, ih, List.singleton_append]

theorem valid_ofBits (bs : Bits) : (ofBits bs).Valid := by
  refine ⟨rfl, fun f hf => ?_⟩
  obtain ⟨b, _, rfl⟩ := List.mem_map.mp hf
  exact ⟨by decide, b.toNat_lt⟩

section Length

/-- The code takes at most `n` bits. -/
def AtMost (c : Code) (n : Nat) : Prop := c.bits.length ≤ n

theorem AtMost.mono {c : Code} {m n : Nat} (h : c.AtMost m) (hle : m ≤ n) : c.AtMost n :=
  Nat.le_trans h hle

/-- Nothing behind a fault is written, so the bound needs no rule to hold. -/
theorem AtMost.append {c d : Code} {m n : Nat} (hc : c.AtMost m) (hd : d.AtMost n) :
    (c ++ d).AtMost (m + n) := by
  rcases hfault : c.fault with _ | fault
  · rw [AtMost, bits_append hfault, List.length_append]
    exact Nat.add_le_add hc hd
  · rw [append_of_fault (by rw [hfault]; rfl)]
    exact hc.mono (Nat.le_add_right m n)

/-- What follows counts only if nothing stops the writing before. -/
theorem AtMost.append_of {c d : Code} {m n : Nat} (hc : c.AtMost m)
    (hd : c.fault = none → d.AtMost n) : (c ++ d).AtMost (m + n) := by
  by_cases h : c.fault = none
  · exact hc.append (hd h)
  · rw [append_of_fault (Option.isSome_iff_ne_none.mpr h)]
    exact hc.mono (Nat.le_add_right m n)

/-- A first code and what is left of the bound for the codes behind it. -/
theorem AtMost.next_of {c d : Code} {m n : Nat} (hc : c.AtMost m) (hle : m ≤ n)
    (hd : c.fault = none → d.AtMost (n - m)) : (c ++ d).AtMost n := by
  have happend := hc.append_of hd
  rwa [Nat.add_sub_cancel' hle] at happend

theorem AtMost.next {c d : Code} {m n : Nat} (hc : c.AtMost m) (hle : m ≤ n)
    (hd : d.AtMost (n - m)) : (c ++ d).AtMost n := hc.next_of hle fun _ => hd

theorem atMost_empty : empty.AtMost 0 := Nat.le_refl 0

theorem atMost_fail (fault : Fault) : (fail fault).AtMost 0 := Nat.le_refl 0

theorem atMost_u (width value : Nat) : (u width value).AtMost width := by
  rw [AtMost, bits_u, Bits.length_ofNat]

theorem atMost_flag (b : Bool) : (flag b).AtMost 1 := atMost_u 1 _

theorem atMost_bytes (bs : List UInt8) : (bytes bs).AtMost (8 * bs.length) := by
  rw [AtMost, bits_bytes, Bits.length_ofBytes]

theorem atMost_word (count value : Nat) : (word count value).AtMost (8 * count) := by
  have h := atMost_bytes (bytesOfNat count value)
  rwa [length_bytesOfNat] at h

theorem atMost_inRange (quantity : String) (low high value : Int) :
    (inRange quantity low high value).AtMost 0 := Nat.le_refl 0

/-- A code that follows a check is there only if the check holds. -/
theorem AtMost.guard {quantity : String} {low high value : Int} {c : Code} {n : Nat}
    (h : low ≤ value → value ≤ high → c.AtMost n) :
    (inRange quantity low high value ++ c).AtMost n := by
  have happend := (atMost_inRange quantity low high value).append_of fun hfault =>
    h (fault_inRange.mp hfault).1 (fault_inRange.mp hfault).2
  rwa [Nat.zero_add] at happend

theorem AtMost.onlyIf {p : Prop} [Decidable p] {c : Code} {n : Nat} (h : p → c.AtMost n) :
    (onlyIf p c).AtMost n := by
  unfold Code.onlyIf
  split
  · exact h ‹_›
  · exact Nat.zero_le n

theorem AtMost.checked {α : Type} {x : Except Fault α} {code : α → Code} {n : Nat}
    (h : ∀ a, x = .ok a → (code a).AtMost n) : (checked x code).AtMost n := by
  cases x with
  | ok a => exact h a rfl
  | error fault => exact Nat.zero_le _

theorem AtMost.optional {α : Type} {code : α → Code} {n : Nat} {o : Option α}
    (h : ∀ a ∈ o, (code a).AtMost n) : (optional code o).AtMost (1 + n) := by
  cases o with
  | none => exact (atMost_flag false).mono (Nat.le_add_right 1 n)
  | some a => exact (atMost_flag true).append (h a rfl)

theorem AtMost.concat_sum {α : Type} {code : α → Code} {bound : α → Nat} {as : List α}
    (h : ∀ a ∈ as, (code a).AtMost (bound a)) :
    (concat (as.map code)).AtMost (as.map bound).sum := by
  induction as with
  | nil => exact Nat.zero_le _
  | cons a as ih =>
    exact (h a (List.mem_cons_self ..)).append (ih fun b hb => h b (List.mem_cons_of_mem _ hb))

theorem AtMost.concat {α : Type} {code : α → Code} {n : Nat} {as : List α}
    (h : ∀ a ∈ as, (code a).AtMost n) : (concat (as.map code)).AtMost (as.length * n) := by
  have hsum : (Code.concat (as.map code)).AtMost (as.map fun _ => n).sum := AtMost.concat_sum h
  rwa [List.map_const', List.sum_replicate_nat] at hsum

end Length

end Code

end AvcSyntax

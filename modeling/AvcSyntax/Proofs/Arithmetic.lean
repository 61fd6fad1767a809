import AvcSyntax.Arithmetic
import Mathlib

/-!
# When arithmetic stays in its word

The checked operations yield the number itself as long as it fits its word, and overflow otherwise.
-/
namespace AvcSyntax

section Checks

variable {ε α β : Type}

theorem ok_bind (a : α) (f : α → Except ε β) : (Except.ok a >>= f) = f a := rfl

theorem error_bind (e : ε) (f : α → Except ε β) :
    ((Except.error e : Except ε α) >>= f) = .error e := rfl

end Checks

variable {bits n m count : Nat}

theorem natWord_eq (h : n < 2 ^ bits) : natWord bits n = .ok n := by
  rw [natWord, Nat.one_shiftLeft, if_pos h]

theorem natWord_eq_error (h : 2 ^ bits ≤ n) : natWord bits n = .error .overflow := by
  rw [natWord, Nat.one_shiftLeft, if_neg (Nat.not_lt.mpr h)]

theorem intWord_eq {n : Int} (hlow : -2 ^ (bits - 1) ≤ n) (hhigh : n < 2 ^ (bits - 1)) :
    intWord bits n = .ok n := by
  rw [intWord, Nat.one_shiftLeft, Nat.cast_pow, Nat.cast_ofNat, if_pos ⟨hlow, hhigh⟩]

theorem difference_eq (h : m ≤ n) : difference n m = .ok (n - m) := if_pos h

theorem difference_eq_error (h : n < m) : difference n m = .error .overflow :=
  if_neg (Nat.not_le.mpr h)

theorem shiftLeft_eq (hcount : count < bits) (h : n <<< count < 2 ^ bits) :
    shiftLeft bits n count = .ok (n <<< count) := by
  rw [shiftLeft, if_pos hcount, natWord_eq h]

/-- How far a one is moved bounds what it comes to. -/
theorem one_shiftLeft_le (h : count ≤ bits) : 1 <<< count ≤ 2 ^ bits := by
  rw [Nat.one_shiftLeft]
  exact Nat.pow_le_pow_right (by decide) h

theorem one_le_one_shiftLeft (count : Nat) : 1 ≤ 1 <<< count := by
  rw [Nat.one_shiftLeft]
  exact Nat.one_le_two_pow

end AvcSyntax

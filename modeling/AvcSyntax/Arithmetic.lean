import AvcSyntax.Fault

/-!
# Arithmetic in words

Most numbers of a stream are far from the end of the word that holds them. Where one is computed
from fields that may hold anything, the result is checked: one that does not fit its word is not
cut to it, but a fault.
-/
namespace AvcSyntax

/-- A number in an unsigned word of `bits` bits. -/
def natWord (bits n : Nat) : Except Fault Nat :=
  if n < 1 <<< bits then .ok n else .error .overflow

/-- A number in a signed word of `bits` bits. -/
def intWord (bits : Nat) (n : Int) : Except Fault Int :=
  if -(1 <<< (bits - 1) : Nat) ≤ n ∧ n < (1 <<< (bits - 1) : Nat) then .ok n
  else .error .overflow

/-- A difference of unsigned words. -/
def difference (n m : Nat) : Except Fault Nat :=
  if m ≤ n then .ok (n - m) else .error .overflow

/-- A word of `bits` bits moved to the left. Neither it nor any of its bits is moved out. -/
def shiftLeft (bits n count : Nat) : Except Fault Nat :=
  if count < bits then natWord bits (n <<< count) else .error .overflow

end AvcSyntax

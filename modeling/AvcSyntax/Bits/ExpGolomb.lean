import AvcSyntax.Arithmetic
import AvcSyntax.Bits.Code
import AvcSyntax.Bits.Reader

/-!
# Exp-Golomb codes

The code of a number `n` is `n + 1` in binary behind as many zero bits as that has bits less
one. Signed numbers are numbered 0, 1, -1, 2, -2 and so on. At most 32 zero bits are allowed in
front, so `ExpGolomb.maxValue` is the largest number that has a code.
-/
namespace AvcSyntax

namespace ExpGolomb

/-- The largest number of zero bits in front of a code. -/
def maxZeros : Nat := 32

/-- The largest number that has a code. -/
def maxValue : Nat := 1 <<< (maxZeros + 1) - 2

/-- The number of zero bits in front of the code of a 64-bit word. -/
def zeros (n : Nat) : Nat := Nat.log2 (saturate (n + 1))

/-- The place of a signed number in the order 0, 1, -1, 2, -2 and so on, kept to 64 bits. -/
def index (n : Int) : Nat := if n ≤ 0 then saturate (2 * n.natAbs) else 2 * n.toNat - 1

/-- The signed number at a place of that order. -/
def ofIndex (k : Nat) : Int := if k % 2 = 0 then -((k / 2 : Nat) : Int) else (k / 2 : Nat) + 1

def size (n : Nat) : Nat := 2 * zeros n + 1

def signedSize (n : Int) : Nat := size (index n)

def code (n : Nat) : Code :=
  if maxValue < n then .fail .golombValueTooLarge
  else
    .u (zeros n) 0 ++
    .checked (natWord 64 (n + 1)) fun next =>
      .checked (natWord 8 (zeros n + 1)) fun width => .u width next

/-- Reads zero bits up to a one bit and counts them; `more` is how many are still allowed. -/
def readZeros : (more : Nat) → Parse Nat
  | 0 => do
    if ← Parse.flag then return 0 else throw .golombPrefixTooLong
  | more + 1 => do
    if ← Parse.flag then return 0 else return (← readZeros more) + 1

def read : Parse Nat := do
  let zeros ← natWord 32 (← readZeros maxZeros)
  let low ← Parse.u zeros
  let least ← difference (← shiftLeft 64 1 zeros) 1
  natWord 64 (least + low)

end ExpGolomb

def Parse.ue : Parse Nat := ExpGolomb.read

def Parse.se : Parse Int := do intWord 64 (ExpGolomb.ofIndex (← ExpGolomb.read))

/-- Reads an unsigned code whose number has to lie in the interval from 0 to `high`. -/
def Parse.ueUpTo (quantity : String) (high : Nat) : Parse Nat := do
  let n ← Parse.ue
  Parse.inRange quantity 0 high n
  return n

/-- Reads a signed code whose number has to lie in the interval from `low` to `high`. -/
def Parse.seWithin (quantity : String) (low high : Int) : Parse Int := do
  let n ← Parse.se
  Parse.inRange quantity low high n
  return n

def Code.ue (n : Nat) : Code := ExpGolomb.code n

def Code.se (n : Int) : Code := ExpGolomb.code (ExpGolomb.index n)

end AvcSyntax

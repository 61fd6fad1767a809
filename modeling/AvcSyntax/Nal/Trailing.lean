import AvcSyntax.Bits.Code
import AvcSyntax.Bits.Reader

/-!
# Ends of payloads

The payload of a NAL unit ends with a one bit, the stop bit, and zero bits up to the next byte
boundary. In front of the stop bit nothing says whether more data follows: `moreData` finds out
by looking for a later one bit.

Lengths and types inside payloads are coded as a sum of bytes, all but the last of them 255.
-/
namespace AvcSyntax

/-- Whether there is a one bit among the next `count` bits. -/
def Parse.oneBitWithin : (count : Nat) → Parse Bool
  | 0 => return false
  | count + 1 => do
    if ← Parse.flag then return true else Parse.oneBitWithin count

/-- Whether there is more data in front of the stop bit. The reader stays where it is. -/
def Parse.moreData : Parse Bool := do
  let r ← get
  if r.atEnd then return false
  else if !r.peekBit then return true
  else Parse.lookahead do
    Parse.skip 1
    Parse.oneBitWithin (r.remaining - 1)

/-- Reads the stop bit and the bits up to the next byte boundary. Only a strict reader minds if
the stop bit is zero. -/
def Parse.trailingBits (strict : Bool) : Parse Unit := do
  let stop ← Parse.flag
  if strict && !stop then throw .stopBitMissing
  Parse.align

/-- Reads the words of sixteen bits at the end of a slice, `count` at most. -/
def Parse.trailingWords (strict : Bool) : (count : Nat) → Parse Unit
  | 0 => return ()
  | count + 1 => do
    let word ← Parse.u 16
    if strict && word != 0 then throw .trailingWordNotZero
    Parse.trailingWords strict count

/-- Reads the end of a slice. Arithmetic coding may put zero words behind the stop bit. -/
def Parse.sliceTrailingBits (arithmetic strict : Bool) : Parse Unit := do
  Parse.trailingBits strict
  if arithmetic then Parse.trailingWords strict ((← get).remaining / 16)

/-- Writes the stop bit and zero bits up to the next byte boundary. -/
def Build.trailingBits : Build Unit := do
  Build.flag true
  Build.align

/-- Reads bytes up to one that is not 255 and adds them up; `count` bounds their number. -/
def Parse.byteSumFrom (sum : Nat) : (count : Nat) → Parse Nat
  | 0 => throw .bitsExhausted
  | count + 1 => do
    let b ← Parse.u 8
    let sum := sum + b
    if 0x100000000 ≤ sum then throw .byteSumTooLarge
    if b = 255 then Parse.byteSumFrom sum count else return sum

/-- Reads a number coded as a sum of bytes. No reader holds more bytes than the bound. -/
def Parse.byteSum : Parse Nat := do Parse.byteSumFrom 0 ((← get).remaining / 8 + 1)

/-- The code of a number as a sum of bytes. -/
def Code.byteSum (n : Nat) : Code :=
  ⟨List.replicate (n / 255) (.number 8 255) ++ [.number 8 (n % 255)], none⟩

end AvcSyntax

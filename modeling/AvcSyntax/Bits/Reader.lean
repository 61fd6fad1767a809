import AvcSyntax.Bits.Basic
import AvcSyntax.Fault
import AvcSyntax.Bits.Trace

/-!
# Reading bits from a buffer

A `Reader` stands at a bit position of a buffer. Its view is `Reader.rest`, the bits not yet
read. Asking for more bits than are left moves the reader to the end and sets its `overrun`
mark, which nothing takes back.

A parser is a `Parse` action. It keeps the reader that it reached also when it fails, so that
the caller sees how far it came.
-/
namespace AvcSyntax

structure Reader where
  data : Array UInt8
  /-- The number of bits read so far. -/
  pos : Nat := 0
  /-- Whether a read has asked for more than was left. -/
  overrun : Bool := false
  trace : Trace := none
  deriving DecidableEq, Repr

namespace Reader

def size (r : Reader) : Nat := 8 * r.data.size

def remaining (r : Reader) : Nat := r.size - r.pos

/-- The bits that can still be read. -/
def rest (r : Reader) : Bits := bitsAt r.data r.pos r.remaining

def isAligned (r : Reader) : Bool := r.pos % 8 == 0

/-- Whether every byte of the buffer has been read. -/
def atEnd (r : Reader) : Bool := r.size ≤ r.pos

/-- The number of bits from the position to the end of its byte, eight at a byte boundary. -/
def bitsLeftInByte (r : Reader) : Nat := 8 - r.pos % 8

/-- The next `count` bits as a number, at most 64; bits behind the end are zero. -/
def peekBits (r : Reader) (count : Nat) : Nat := (bitsAt r.data r.pos (min count 64)).toNat

/-- The next bit, zero at the end. -/
def peekBit (r : Reader) : Bool := r.peekBits 1 == 1

/-- The bytes from the next byte boundary to the end. -/
def alignedBytes (r : Reader) : List UInt8 := r.data.toList.drop ((r.pos + 7) / 8)

def advance (r : Reader) (count : Nat) : Reader := { r with pos := r.pos + count }

/-- The reader after it was asked for more bits than were left. -/
def exhausted (r : Reader) : Reader := { r with pos := r.size, overrun := true }

def note (r : Reader) (a : Access) : Reader := { r with trace := r.trace.add a }

end Reader

/-- An action that reads from a bit reader and may fail. -/
abbrev Parse := EStateM Fault Reader

namespace Parse

/-- Reads a number of `count` bits, at most 64. -/
def u (count : Nat) : Parse Nat := fun r =>
  let width := min count 64
  if r.remaining < width then .error .bitsExhausted r.exhausted
  else
    let value := (bitsAt r.data r.pos width).toNat
    .ok value ((r.note (.bits r.pos width value)).advance width)

def flag : Parse Bool := do return (← u 1) == 1

def skip (count : Nat) : Parse Unit := fun r =>
  if r.remaining < count then .error .bitsExhausted r.exhausted else .ok () (r.advance count)

/-- Moves to the next byte boundary. -/
def align : Parse Unit := do
  let r ← get
  unless r.isAligned do skip r.bitsLeftInByte

def octets : (count : Nat) → Parse (List UInt8)
  | 0 => return []
  | count + 1 => do
    let b ← u 8
    return b.toUInt8 :: (← octets count)

/-- Reads as many as possible of `count` whole bytes. Between byte boundaries the bits behind
the last whole byte stay unread. Only a reader that is at the end already counts an empty
result as an overrun. -/
def someBytes (count : Nat) : Parse (List UInt8) := do
  let r ← get
  if count = 0 then return []
  else if r.atEnd then
    set { r with overrun := true }
    return []
  else if r.isAligned then
    let found := (r.data.extract (r.pos / 8) (r.pos / 8 + count)).toList
    set ((r.note (.bytes r.pos found.length)).advance (8 * found.length))
    return found
  else octets (min count (r.remaining / 8))

/-- Reads exactly `count` whole bytes. After a short read the next one comes back empty, and
that is where reading stops. -/
def bytes (count : Nat) : Parse (List UInt8) := do
  let found ← someBytes count
  if found.length = count then return found
  let _ ← someBytes (count - found.length)
  throw .bytesExhausted

def word (count : Nat) : Parse Nat := bytesToNat <$> bytes count

/-- Fails if a quantity lies outside the closed interval from `low` to `high`. -/
def inRange (quantity : String) (low high value : Int) : Parse Unit :=
  match rangeFault? quantity low high value with
  | some fault => throw fault
  | none => return ()

/-- Reads a number of `count` bits, at most eight. -/
def octet (count : Nat) : Parse UInt8 := Nat.toUInt8 <$> u count

/-- Runs an action on a copy of the reader. Of the copy only the recorded accesses remain. -/
def lookahead {α : Type} (p : Parse α) : Parse α := fun r =>
  match p r with
  | .ok a s => .ok a { r with trace := s.trace }
  | .error e s => .error e { r with trace := s.trace }

def mapFault {α : Type} (f : Fault → Fault) (p : Parse α) : Parse α := fun r =>
  match p r with
  | .ok a s => .ok a s
  | .error e s => .error (f e) s

/-- Reads a flag and, if it is set, a value. -/
def optional {α : Type} (p : Parse α) : Parse (Option α) := do
  if ← flag then return some (← p) else return none

/-- Runs an action `count` times and puts the results behind those already held, which are in
reverse order. -/
def timesAfter {α : Type} (p : Parse α) : (count : Nat) → List α → Parse (List α)
  | 0, found => return found.reverse
  | count + 1, found => do
    let a ← p
    timesAfter p count (a :: found)

def times {α : Type} (count : Nat) (p : Parse α) : Parse (List α) := timesAfter p count []

end Parse

end AvcSyntax

import AvcSyntax.Bits.Basic
import AvcSyntax.Fault
import AvcSyntax.Bits.Trace

/-!
# Writing bits into a buffer

A `Writer` stands at a bit position of a buffer of fixed size and overwrites it from there on.
A number that is too wide for its field, or that finds no room, leaves buffer and position
alone; only the lack of room sets the `overrun` mark.

A builder is a `Build` action. It keeps what it wrote also when it fails.
-/
namespace AvcSyntax

structure Writer where
  data : Array UInt8
  /-- The number of bits written so far. -/
  pos : Nat := 0
  /-- Whether a write has found no room. -/
  overrun : Bool := false
  trace : Trace := none
  deriving DecidableEq, Repr

namespace Writer

/-- A writer at the start of a buffer of zero bytes. -/
def zeroed (size : Nat) : Writer := { data := Array.replicate size 0 }

def remaining (w : Writer) : Nat := 8 * w.data.size - w.pos

def isAligned (w : Writer) : Bool := w.pos % 8 == 0

def atEnd (w : Writer) : Bool := 8 * w.data.size ≤ w.pos

/-- The bytes up to the position, which is at a byte boundary once a writer is finished. -/
def written (w : Writer) : List UInt8 := (w.data.extract 0 (w.pos / 8)).toList

def append (w : Writer) (bs : Bits) : Writer :=
  { w with data := putBits w.data w.pos bs, pos := w.pos + bs.length }

def appendBytes (w : Writer) (bs : List UInt8) : Writer :=
  { w with data := putBytes w.data (w.pos / 8) bs, pos := w.pos + 8 * bs.length }

def note (w : Writer) (a : Access) : Writer := { w with trace := w.trace.add a }

end Writer

/-- An action that writes to a bit writer and may fail. -/
abbrev Build := EStateM Fault Writer

namespace Build

/-- Writes a number of `count` bits, at most 64. -/
def u (count value : Nat) : Build Unit := fun w =>
  let width := min count 64
  if 1 <<< width ≤ value then .error .valueTooWide w
  else if w.remaining < width then .error .noRoomForBits { w with overrun := true }
  else .ok () ((w.note (.bits w.pos width value)).append (.ofNat width value))

def flag (b : Bool) : Build Unit := u 1 b.toNat

/-- Writes zero bits up to the next byte boundary. -/
def align : Build Unit := do
  let w ← get
  unless w.isAligned do u (8 - w.pos % 8) 0

def octets : List UInt8 → Build Unit
  | [] => return ()
  | b :: bs => do
    u 8 b.toNat
    octets bs

/-- Writes as many whole bytes as there is room for and gives their number. -/
def someBytes (bs : List UInt8) : Build Nat := do
  let w ← get
  if bs.isEmpty then return 0
  let count := min bs.length (w.remaining / 8)
  if count = 0 then
    modify fun w => { w with overrun := true }
  else if w.isAligned then
    modify fun w => (w.note (.bytes w.pos count)).appendBytes (bs.take count)
  else octets (bs.take count)
  return count

/-- Writes all of some bytes. After a short write the next one writes nothing, and that is where
writing stops. -/
def bytes (bs : List UInt8) : Build Unit := do
  let count ← someBytes bs
  if count = bs.length then return ()
  let _ ← someBytes (bs.drop count)
  throw .noRoomForBytes

/-- Fills the last byte with zero bits and gives the number of bytes written. -/
def finish : Build Nat := do
  align
  return (← get).pos / 8

end Build

end AvcSyntax

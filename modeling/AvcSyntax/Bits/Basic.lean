/-!
# Numbers as bits

A bit string is a `List Bool` in transmission order: the first bit of a number is its most
significant one. A byte buffer is read as the bit string of its bytes one after the other.

`Bits.ofNat` and `Bits.toNat` convert between numbers and bit strings of a given width,
`bitsAt` is the window of a buffer that starts at a bit position, and `putBits` overwrites such
a window. A position behind the end of a buffer holds a zero bit, and writing there changes
nothing.
-/
namespace AvcSyntax

/-- Bits in transmission order, the most significant bit of a number first. -/
abbrev Bits := List Bool

namespace Bits

/-- The number that a bit string stands for. -/
def toNat (bs : Bits) : Nat := bs.foldl (fun n b => 2 * n + b.toNat) 0

/-- The lowest `width` bits of a number. -/
def ofNat : (width value : Nat) → Bits
  | 0, _ => []
  | width + 1, value => value.testBit width :: ofNat width value

def ofByte (b : UInt8) : Bits := ofNat 8 b.toNat

def ofBytes (bs : List UInt8) : Bits := bs.flatMap ofByte

@[simp] theorem length_ofNat (width value : Nat) : (ofNat width value).length = width := by
  induction width with
  | zero => rfl
  | succ n ih => simp [ofNat, ih]

end Bits

/-- The bit of a buffer at a position, zero behind the end. -/
def bitAt (data : Array UInt8) (pos : Nat) : Bool :=
  (data.getD (pos / 8) 0).toNat.testBit (7 - pos % 8)

/-- The `count` bits of a buffer from a position on. -/
def bitsAt (data : Array UInt8) (pos : Nat) : (count : Nat) → Bits
  | 0 => []
  | count + 1 => bitAt data pos :: bitsAt data (pos + 1) count

@[simp] theorem length_bitsAt (data : Array UInt8) (pos count : Nat) :
    (bitsAt data pos count).length = count := by
  induction count generalizing pos with
  | zero => rfl
  | succ n ih => simp [bitsAt, ih]

/-- A byte with one of its bits replaced; position 0 is the most significant bit. -/
def setByteBit (x : UInt8) (pos : Nat) (b : Bool) : UInt8 :=
  let mask : UInt8 := 1 <<< (7 - pos % 8).toUInt8
  if b then x ||| mask else x &&& ~~~mask

/-- A buffer with the bit at a position replaced. -/
def putBit (data : Array UInt8) (pos : Nat) (b : Bool) : Array UInt8 :=
  data.modify (pos / 8) fun x => setByteBit x pos b

/-- A buffer with the bits from a position on replaced. -/
def putBits (data : Array UInt8) (pos : Nat) : Bits → Array UInt8
  | [] => data
  | b :: bs => putBits (putBit data pos b) (pos + 1) bs

@[simp] theorem size_putBit (data : Array UInt8) (pos : Nat) (b : Bool) :
    (putBit data pos b).size = data.size := by simp [putBit]

@[simp] theorem size_putBits (data : Array UInt8) (pos : Nat) (bs : Bits) :
    (putBits data pos bs).size = data.size := by
  induction bs generalizing data pos with
  | nil => rfl
  | cons b bs ih => simp [putBits, ih]

/-- A buffer with the bytes from an index on replaced. -/
def putBytes (data : Array UInt8) (index : Nat) : List UInt8 → Array UInt8
  | [] => data
  | b :: bs => putBytes (data.setIfInBounds index b) (index + 1) bs

@[simp] theorem size_putBytes (data : Array UInt8) (index : Nat) (bs : List UInt8) :
    (putBytes data index bs).size = data.size := by
  induction bs generalizing data index with
  | nil => rfl
  | cons b bs ih => simp [putBytes, ih]

/-- A number kept to 64 bits: a larger one becomes the largest word. -/
def saturate (n : Nat) : Nat := min n 0xffffffffffffffff

/-- The number whose bytes these are, the most significant byte first. -/
def bytesToNat (bs : List UInt8) : Nat := bs.foldl (fun n b => 256 * n + b.toNat) 0

/-- The lowest `count` bytes of a number, the most significant byte first. -/
def bytesOfNat : (count value : Nat) → List UInt8
  | 0, _ => []
  | count + 1, value => (value >>> (8 * count)).toUInt8 :: bytesOfNat count value

end AvcSyntax

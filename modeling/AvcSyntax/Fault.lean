/-!
# Why a field cannot be read or written

A `Fault` is the reason why reading or writing a field of a syntax structure failed. It belongs
to one of four classes: the data ended, the buffer was full, a value is not allowed where it stands,
or a number that is computed on the way does not fit its word. For a whole NAL unit the first two
classes are one and the same complaint. The last one is not a complaint about the stream at all.
-/
namespace AvcSyntax

inductive FaultClass where
  | endOfData
  | bufferFull
  | invalidValue
  | overflow
  deriving DecidableEq, Repr

inductive Fault where
  /-- More bits were asked for than are left. -/
  | bitsExhausted
  /-- The data ended inside a run of whole bytes. -/
  | bytesExhausted
  /-- More bits were written than the buffer has room for. -/
  | noRoomForBits
  /-- The buffer was full before a run of whole bytes was written. -/
  | noRoomForBytes
  /-- A number does not fit the width of its field. -/
  | valueTooWide
  /-- An Exp-Golomb code starts with more than 32 zero bits. -/
  | golombPrefixTooLong
  /-- A number has no Exp-Golomb code of the permitted length. -/
  | golombValueTooLarge
  /-- A quantity lies outside its closed interval. -/
  | outOfRange (quantity : String) (low high value : Int)
  /-- A list of operations has no end mark. -/
  | unterminated (list : String)
  /-- A list of operations is longer than any decoder has to hold. -/
  | tooManyOperations (list : String) (limit : Nat)
  /-- The payload of a NAL unit does not end with its stop bit. -/
  | stopBitMissing
  /-- The words behind the stop bit of an entropy coded slice are not zero. -/
  | trailingWordNotZero
  /-- A number coded as a sum of bytes is too large for 32 bits. -/
  | byteSumTooLarge
  /-- A scaling list holds a zero. -/
  | scalingValueZero
  /-- A payload is too long for its length field. -/
  | payloadTooLarge (size : Nat)
  /-- The reference picture marking is one for the other kind of picture. -/
  | markingMismatch (idr : Bool)
  /-- A number that is computed does not fit its word. -/
  | overflow
  deriving DecidableEq, Repr

namespace Fault

def kind : Fault → FaultClass
  | bitsExhausted | bytesExhausted => .endOfData
  | noRoomForBits | noRoomForBytes => .bufferFull
  | overflow => .overflow
  | _ => .invalidValue

def message : Fault → String
  | bitsExhausted => "bit reader overrun"
  | bytesExhausted => "failed to fill whole buffer"
  | noRoomForBits => "bit writer overrun"
  | noRoomForBytes => "failed to write whole buffer"
  | valueTooWide => "bits too large to write"
  | golombPrefixTooLong => "exp-golomb prefix longer than 32 bits"
  | golombValueTooLarge => "exp-golomb value too large to write"
  | outOfRange quantity low high value =>
      s!"{quantity} is out of range [{low}, {high}]: {value}"
  | unterminated list => s!"{list} is not terminated"
  | tooManyOperations list limit => s!"{list} has more than {limit} operations"
  | stopBitMissing => "rbsp_stop_one_bit must be 1"
  | trailingWordNotZero => "cabac_zero_word must be 0x0000"
  | byteSumTooLarge => "ff coded number overflows u32"
  | scalingValueZero => "scaling list values must be nonzero"
  | payloadTooLarge size => s!"SEI payload of {size} bytes is too large"
  | markingMismatch idr => s!"dec_ref_pic_marking does not match the slice (idr: {idr})"
  | overflow => "arithmetic overflow"

end Fault

/-- The fault of a quantity outside the closed interval from `low` to `high`, if it is one. -/
def rangeFault? (quantity : String) (low high value : Int) : Option Fault :=
  if value < low ∨ high < value then some (.outOfRange quantity low high value) else none

/-- A check that needs no cursor may stand where a cursor action is expected. -/
instance monadLiftExcept {ε σ : Type} : MonadLift (Except ε) (EStateM ε σ) where
  monadLift x := fun s =>
    match x with
    | .ok a => .ok a s
    | .error e => .error e s

end AvcSyntax

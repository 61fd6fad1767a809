import AvcSyntax.Nal.Error

/-!
# Emulation prevention

Inside a NAL unit two zero bytes are never followed by a byte below 3, so that start codes stand
out. To that end the payload is written with a byte 3 between two zero bytes and a byte up to 3,
and with a last byte 3 if it ends in two zero bytes.

`escapeInto` and `unescapeInto` fill an output of fixed size from left to right; `escape` and
`unescape` bring an output of their own that is large enough.
-/
namespace AvcSyntax

/-- An output of fixed size of which the first `filled` bytes have been written. -/
structure Output where
  data : Array UInt8
  filled : Nat := 0
  deriving DecidableEq, Repr

namespace Output

def zeroed (size : Nat) : Output := { data := Array.replicate size 0 }

def written (o : Output) : List UInt8 := (o.data.extract 0 o.filled).toList

def push (o : Output) (b : UInt8) : Except NalError Output :=
  if o.filled < o.data.size then
    .ok { data := o.data.setIfInBounds o.filled b, filled := o.filled + 1 }
  else .error (.bufferTooSmall o.data.size)

end Output

/-- A size that the escaped form of `size` bytes never exceeds. -/
def maxEscapedSize (size : Nat) : Nat := size + (size + 1) / 2 + 1

/-- Writes the escaped form of bytes that follow `zeros` zero bytes. -/
def escapeFrom : (zeros : Nat) → List UInt8 → Output → Except NalError Output
  | zeros, [], o => if 2 ≤ zeros then o.push 3 else .ok o
  | zeros, b :: bs, o =>
    if zeros = 2 ∧ b ≤ 3 then do
      let o ← o.push 3
      let o ← o.push b
      escapeFrom (if b = 0 then 1 else 0) bs o
    else do
      let o ← o.push b
      escapeFrom (if b = 0 then zeros + 1 else 0) bs o

/-- Writes what the escaped bytes from `offset` on stand for, given that they follow `zeros` zero
bytes. -/
def unescapeFrom : (zeros offset : Nat) → List UInt8 → Output → Except NalError Output
  | _, _, [], o => .ok o
  | zeros, offset, b :: bs, o =>
    if zeros = 2 ∧ b < 3 then .error (.illegalEscape offset)
    else if zeros = 2 ∧ b = 3 then
      match bs.head? with
      | none => .ok o
      | some next =>
        if 3 < next then .error (.illegalEscape (offset + 1))
        else unescapeFrom 0 (offset + 1) bs o
    else do
      let o ← o.push b
      unescapeFrom (if b = 0 then zeros + 1 else 0) (offset + 1) bs o

def escapeInto (payload : List UInt8) (o : Output) : Except NalError Output :=
  escapeFrom 0 payload o

def unescapeInto (unit : List UInt8) (o : Output) : Except NalError Output :=
  unescapeFrom 0 0 unit o

/-- The escaped form of a payload. -/
def escape (payload : List UInt8) : Except NalError (List UInt8) :=
  (escapeInto payload (.zeroed (maxEscapedSize payload.length))).map Output.written

/-- The payload of a NAL unit. -/
def unescape (unit : List UInt8) : Except NalError (List UInt8) :=
  (unescapeInto unit (.zeroed unit.length)).map Output.written

end AvcSyntax

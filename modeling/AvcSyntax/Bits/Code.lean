import AvcSyntax.Bits.Writer

/-!
# What a record is written as

A `Code` is the list of fields that a record is written as. It does not depend on where the
record is written. A rule that the record breaks ends the code with a fault: the fields before
it are written, then writing fails.

`Code.bits` is the bit string that a code stands for, and `Code.write` writes it field by field.
-/
namespace AvcSyntax

inductive Field where
  /-- A number in a field of `width` bits. -/
  | number (width value : Nat)
  /-- A run of whole bytes. -/
  | bytes (bs : List UInt8)
  deriving DecidableEq, Repr

namespace Field

def bits : Field → Bits
  | number width value => .ofNat width value
  | bytes bs => .ofBytes bs

def write : Field → Build Unit
  | number width value => Build.u width value
  | bytes bs => Build.bytes bs

def writeAll : List Field → Build Unit
  | [] => return ()
  | f :: fs => do
    f.write
    writeAll fs

end Field

/-- The fields that a record is written as, and the rule that ends them early if there is one. -/
structure Code where
  fields : List Field
  fault : Option Fault := none
  deriving DecidableEq, Repr

namespace Code

def empty : Code := ⟨[], none⟩

/-- One code behind another; a fault in the first is never passed. -/
def append (c d : Code) : Code :=
  if c.fault.isSome then c else ⟨c.fields ++ d.fields, d.fault⟩

instance : Append Code := ⟨append⟩

def bits (c : Code) : Bits := c.fields.flatMap Field.bits

/-- Writes the fields in order and then fails if the code ends with a fault. -/
def write (c : Code) : Build Unit := do
  Field.writeAll c.fields
  match c.fault with
  | some fault => throw fault
  | none => return ()

/-- A number in a field of `width` bits. -/
def u (width value : Nat) : Code := ⟨[.number width value], none⟩

def flag (b : Bool) : Code := u 1 b.toNat

def bytes (bs : List UInt8) : Code := ⟨[.bytes bs], none⟩

/-- A number of `count` whole bytes. -/
def word (count value : Nat) : Code := bytes (bytesOfNat count value)

/-- Writing stops here. -/
def fail (fault : Fault) : Code := ⟨[], some fault⟩

/-- Writing stops here if a quantity lies outside the closed interval from `low` to `high`. -/
def inRange (quantity : String) (low high value : Int) : Code :=
  ⟨[], rangeFault? quantity low high value⟩

/-- A code that depends on a computation. Writing stops here if that fails. -/
def checked {α : Type} (x : Except Fault α) (code : α → Code) : Code :=
  match x with
  | .ok a => code a
  | .error fault => fail fault

/-- A code that is there only under a condition. -/
def onlyIf (c : Prop) [Decidable c] (code : Code) : Code := if c then code else empty

/-- A flag and, if it is set, a value. -/
def optional {α : Type} (code : α → Code) : Option α → Code
  | none => flag false
  | some a => flag true ++ code a

def concat : List Code → Code
  | [] => empty
  | c :: cs => c ++ concat cs

end Code

end AvcSyntax

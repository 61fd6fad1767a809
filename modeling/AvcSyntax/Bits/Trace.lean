/-!
# Records of primitive accesses

A cursor that is asked to trace itself records every primitive access: where it began and what
was moved. Whole bytes that are copied at a byte boundary make one record.
-/
namespace AvcSyntax

inductive Access where
  /-- A number of `width` bits at a bit position. -/
  | bits (offset width value : Nat)
  /-- A run of whole bytes copied at a byte boundary. -/
  | bytes (offset count : Nat)
  deriving DecidableEq, Repr

/-- The accesses recorded so far; without a list, none are being recorded. -/
abbrev Trace := Option (Array Access)

def Trace.add (t : Trace) (a : Access) : Trace := t.map (·.push a)

end AvcSyntax

import AvcSyntax.Bits.ExpGolomb

/-!
# Scaling lists and matrices

A scaling list is coded as the differences of its values, the first of them from 8 and all of
them modulo 256. A difference that leads to zero ends the list, which then repeats its last
value; at the very start it stands for the default list of the standard.

The code of a list stops as early as it can. A scaling matrix has room for six lists of 16 values
and six of 64, of which the first `count` are coded.
-/
namespace AvcSyntax

/-- A list of `n` scaling values. With `useDefault` the values are those of a standard list, and
the ones given here are not coded. -/
structure ScalingList (n : Nat) where
  values : List UInt8
  length_values : values.length = n
  useDefault : Bool := false
  deriving DecidableEq, Repr

namespace ScalingList

/-- The list in which every value is the same. -/
def flat (n : Nat) (value : UInt8) (useDefault : Bool) : ScalingList n :=
  { values := List.replicate n value, length_values := by simp, useDefault }

/-- The list of equal weights. -/
def default (n : Nat) : ScalingList n := flat n 16 false

instance (n : Nat) : Inhabited (ScalingList n) := ⟨default n⟩

/-- The difference between two values modulo 256, as a number from -128 to 127. -/
def wrappedDelta (old new : UInt8) : Int := Int.bmod ((new.toNat : Int) - old.toNat) 256

/-- Reads the difference to the next value and gives that value. -/
def parseNext (last : UInt8) : Parse UInt8 := do
  let delta ← Parse.seWithin "delta_scale" (-128) 127
  return (((last.toNat : Int) + delta) % 256).toNat.toUInt8

/-- Reads `n` values that follow a value that is not zero. -/
def parseAfter : (n : Nat) → (last : UInt8) → Parse { vs : List UInt8 // vs.length = n }
  | 0, _ => return ⟨[], rfl⟩
  | n + 1, last => do
    let next ← parseNext last
    if next = 0 then return ⟨List.replicate (n + 1) last, by simp⟩
    else
      let ⟨vs, h⟩ ← parseAfter n next
      return ⟨next :: vs, by simp [h]⟩

def parse : (n : Nat) → Parse (ScalingList n)
  | 0 => return flat 0 8 false
  | n + 1 => do
    let first ← parseNext 8
    if first = 0 then return flat (n + 1) 8 true
    else
      let ⟨vs, h⟩ ← parseAfter n first
      return { values := first :: vs, length_values := by simp [h] }

/-- Values without the repetitions of the last one at the end. -/
def withoutRepeats (vs : List UInt8) : List UInt8 :=
  match vs.getLast? with
  | none => []
  | some v => (vs.reverse.dropWhile (· == v)).reverse ++ [v]

/-- The differences of values from `last` on, with a difference to zero at the end if the list
stops early. -/
def deltas (stops : Bool) : (last : UInt8) → List UInt8 → List Int
  | last, [] => if stops then [wrappedDelta last 0] else []
  | last, v :: vs => wrappedDelta last v :: deltas stops v vs

def code {n : Nat} (l : ScalingList n) : Code :=
  if l.useDefault then .se (-8)
  else if l.values.contains 0 then .fail .scalingValueZero
  else
    let coded := withoutRepeats l.values
    .concat ((deltas (coded.length < l.values.length) 8 coded).map Code.se)

end ScalingList

/-- Six scaling lists of `n` values, each of which may be absent. -/
abbrev ScalingSlots (n : Nat) := Vector (Option (ScalingList n)) 6

/-- The slots filled from the front; those without a list stay empty. -/
def ScalingSlots.ofList {n : Nat} (lists : List (Option (ScalingList n))) : ScalingSlots n :=
  Vector.ofFn fun i => (lists[i.val]?).join

structure ScalingMatrix where
  lists4x4 : ScalingSlots 16 := Vector.replicate 6 none
  lists8x8 : ScalingSlots 64 := Vector.replicate 6 none
  deriving DecidableEq, Repr

namespace ScalingMatrix

/-- Reads the first `count` lists. -/
def parse (count : Nat) : Parse ScalingMatrix := do
  Parse.inRange "count" 0 12 count
  let small ← Parse.times (min count 6) (Parse.optional (ScalingList.parse 16))
  let large ← Parse.times (count - 6) (Parse.optional (ScalingList.parse 64))
  return { lists4x4 := .ofList small, lists8x8 := .ofList large }

def code (m : ScalingMatrix) (count : Nat) : Code :=
  .inRange "count" 0 12 count ++
  .concat ((m.lists4x4.toList.take count).map (Code.optional ScalingList.code)) ++
  .concat ((m.lists8x8.toList.take (count - 6)).map (Code.optional ScalingList.code))

end ScalingMatrix

end AvcSyntax

import AvcSyntax.Bits.ExpGolomb

/-!
# Slice groups

A picture can be divided into slice groups. The map says which group a map unit belongs to; the
count of groups less one, which is coded in front of the map, is at most 7 in a picture
parameter set.
-/
namespace AvcSyntax

inductive SliceGroupMap where
  | interleaved (runLengthsMinus1 : List UInt32)
  | dispersed
  | foreground (topLeft bottomRight : List UInt32)
  /-- Maps of the types 3 to 5 change from picture to picture. -/
  | changing (type : UInt8) (direction : Bool) (rateMinus1 : UInt32)
  | explicit (ids : List UInt8)
  deriving DecidableEq, Repr

def SliceGroupMap.type : SliceGroupMap → UInt8
  | interleaved _ => 0
  | dispersed => 1
  | foreground _ _ => 2
  | changing type _ _ => type
  | explicit _ => 6

/-- The number of slice groups less one, and their map. -/
structure SliceGroups where
  countMinus1 : UInt8 := 1
  map : SliceGroupMap := .dispersed
  deriving DecidableEq, Repr

namespace SliceGroups

/-- The largest number of map units of a picture. -/
def maxMapUnits : Nat := 139264

/-- The number of map units by which a changing map grows per cycle. -/
def changeRate? (g : SliceGroups) : Option UInt32 :=
  match g.map with
  | .changing _ _ rateMinus1 => some (min (rateMinus1.toNat + 1) 0xffffffff).toUInt32
  | _ => none

def idBits (countMinus1 : UInt8) : Nat :=
  if countMinus1 = 0 then 0 else countMinus1.toNat.log2 + 1

/-- The number of bytes that the numbers of an explicit map fill. -/
def explicitMapSize (g : SliceGroups) : Nat :=
  match g.map with
  | .explicit ids => (ids.length * idBits g.countMinus1 + 7) / 8
  | _ => 0

def parseUInt32 : Parse UInt32 := do return (← Parse.ueUpTo "value" 0xffffffff).toUInt32

/-- Reads the map for a count of groups less one. -/
def parse (countMinus1 : UInt8) : Parse SliceGroups := do
  let type ← Parse.ueUpTo "slice_group_map_type" 6
  let map ← match type with
    | 0 => do
      let runs ← Parse.times (countMinus1.toNat + 1) parseUInt32
      pure (SliceGroupMap.interleaved runs)
    | 1 => pure .dispersed
    | 2 => do
      let corners ← Parse.times countMinus1.toNat do
        let topLeft ← parseUInt32
        let bottomRight ← parseUInt32
        return (topLeft, bottomRight)
      pure (.foreground (corners.map Prod.fst) (corners.map Prod.snd))
    | 6 => do
      let sizeMinus1 ← Parse.ueUpTo "pic_size_in_map_units_minus1" (maxMapUnits - 1)
      let ids ← Parse.times (sizeMinus1 + 1) (Parse.octet (idBits countMinus1))
      pure (.explicit ids)
    | _ => do
      let direction ← Parse.flag
      let rateMinus1 ← parseUInt32
      pure (.changing type.toUInt8 direction rateMinus1)
  return { countMinus1, map }

/-- The code of the map behind its type. -/
def mapCode (groups : Nat) : SliceGroupMap → Code
  | .interleaved runs =>
    .inRange "run_length_minus1.len()" (groups + 1) (groups + 1) runs.length ++
    .concat (runs.map fun run => .ue run.toNat)
  | .dispersed => .empty
  | .foreground topLeft bottomRight =>
    .inRange "top_left.len()" groups groups topLeft.length ++
    .inRange "bottom_right.len()" groups groups bottomRight.length ++
    .concat ((topLeft.zip bottomRight).map fun c => .ue c.1.toNat ++ .ue c.2.toNat)
  | .changing type direction rateMinus1 =>
    .inRange "*slice_group_map_type" 3 5 type.toNat ++
    .flag direction ++
    .ue rateMinus1.toNat
  | .explicit ids =>
    .inRange "slice_group_id.len() as u64" 1 maxMapUnits ids.length ++
    .ue (ids.length - 1) ++
    ⟨ids.map fun id => .number (idBits groups.toUInt8) id.toNat, none⟩

def code (g : SliceGroups) : Code :=
  .ue g.map.type.toNat ++ mapCode g.countMinus1.toNat g.map

end SliceGroups

end AvcSyntax

import AvcSyntax.Bits.ExpGolomb

/-!
# Weights of weighted prediction

For each reference picture of a list a slice may give a weight and an offset for luma and two for
chroma. Pictures whose chroma array type is 0 have no chroma weights. A table with fewer entries
than active reference pictures is written with empty entries behind them.
-/
namespace AvcSyntax

structure WeightOffset where
  weight : Int32 := 0
  offset : Int32 := 0
  deriving DecidableEq, Repr

namespace WeightOffset

def parse : Parse WeightOffset := do
  let weight ← Parse.seWithin "weight" (-128) 127
  let offset ← Parse.seWithin "offset" (-8192) 8191
  return { weight := .ofInt weight, offset := .ofInt offset }

def code (w : WeightOffset) : Code := .se w.weight.toInt ++ .se w.offset.toInt

end WeightOffset

structure PredWeight where
  luma : Option WeightOffset := none
  chroma : Option (WeightOffset × WeightOffset) := none
  deriving DecidableEq, Repr

namespace PredWeight

/-- Reads the weights for one reference picture, with those for chroma if there is chroma. -/
def parse (hasChroma : Bool) : Parse PredWeight := do
  let luma ← Parse.optional WeightOffset.parse
  let chroma ←
    if hasChroma then
      Parse.optional do
        let cb ← WeightOffset.parse
        let cr ← WeightOffset.parse
        return (cb, cr)
    else pure none
  return { luma, chroma }

def code (hasChroma : Bool) (w : PredWeight) : Code :=
  .optional WeightOffset.code w.luma ++
  .onlyIf hasChroma (.optional (fun c => c.1.code ++ c.2.code) w.chroma)

end PredWeight

/-- The weights of a slice, in units of the two denominators. -/
structure PredWeightTable where
  lumaLog2WeightDenom : UInt8 := 0
  chromaLog2WeightDenom : UInt8 := 0
  l0 : List PredWeight := []
  l1 : List PredWeight := []
  deriving DecidableEq, Repr

namespace PredWeightTable

/-- The number of entries of a list, given the number of its active pictures less one. -/
def entryCount : Option UInt8 → Nat
  | none => 0
  | some countMinus1 => countMinus1.toNat + 1

/-- The number of entries of a list that is written. -/
def checkedCount (countMinus1 : Option UInt8) : Except Fault Nat :=
  natWord 64 (entryCount countMinus1)

/-- Reads a table for active reference pictures, counted less one; the second list is there only
if it has a count. -/
def parse (chromaArrayType l0Minus1 : UInt8) (l1Minus1 : Option UInt8) :
    Parse PredWeightTable := do
  let hasChroma := chromaArrayType != 0
  let luma ← Parse.ueUpTo "luma_log2_weight_denom" 7
  let chroma ← if hasChroma then Parse.ueUpTo "denom" 7 else pure 0
  let l0 ← Parse.times (l0Minus1.toNat + 1) (PredWeight.parse hasChroma)
  let l1 ← Parse.times (entryCount l1Minus1) (PredWeight.parse hasChroma)
  return {
    lumaLog2WeightDenom := luma.toUInt8, chromaLog2WeightDenom := chroma.toUInt8, l0, l1 }

/-- A list of `count` entries that begins with the given ones and goes on with empty ones. -/
def padded (count : Nat) (ws : List PredWeight) : List PredWeight :=
  ws.take count ++ List.replicate (count - ws.length) ({} : PredWeight)

def code (t : PredWeightTable) (chromaArrayType l0Minus1 : UInt8) (l1Minus1 : Option UInt8) :
    Code :=
  let hasChroma := chromaArrayType != 0
  .checked (checkedCount (some l0Minus1)) (fun count =>
    .inRange "l0_entries" 0 count t.l0.length) ++
  .checked (checkedCount l1Minus1) (fun count =>
    .inRange "l1_entries" 0 count t.l1.length) ++
  .ue t.lumaLog2WeightDenom.toNat ++
  .onlyIf hasChroma (.ue t.chromaLog2WeightDenom.toNat) ++
  .concat ((padded (l0Minus1.toNat + 1) t.l0).map (PredWeight.code hasChroma)) ++
  .concat ((padded (entryCount l1Minus1) t.l1).map (PredWeight.code hasChroma))

end PredWeightTable

end AvcSyntax

/-!
# Types of NAL units

A NAL unit header gives the type of its unit in five bits. Types that the standard leaves open
keep their number.
-/
namespace AvcSyntax

inductive UnitType where
  | unspecified (code : UInt8)
  | nonIdrSlice
  | sliceDataPartitionA
  | sliceDataPartitionB
  | sliceDataPartitionC
  | idrSlice
  | sei
  | sps
  | pps
  | accessUnitDelimiter
  | endOfSequence
  | endOfStream
  | fillerData
  | spsExtension
  | prefixUnit
  | subsetSps
  | auxiliarySlice
  | sliceExtension
  | reserved (code : UInt8)
  deriving DecidableEq, Repr

namespace UnitType

/-- The type with a number, of which only the lowest five bits count. -/
def ofCode (code : UInt8) : UnitType :=
  match code.toNat % 32 with
  | 1 => nonIdrSlice
  | 2 => sliceDataPartitionA
  | 3 => sliceDataPartitionB
  | 4 => sliceDataPartitionC
  | 5 => idrSlice
  | 6 => sei
  | 7 => sps
  | 8 => pps
  | 9 => accessUnitDelimiter
  | 10 => endOfSequence
  | 11 => endOfStream
  | 12 => fillerData
  | 13 => spsExtension
  | 14 => prefixUnit
  | 15 => subsetSps
  | 19 => auxiliarySlice
  | 20 => sliceExtension
  | n => if 16 ≤ n ∧ n ≤ 23 then reserved n.toUInt8 else unspecified n.toUInt8

def code : UnitType → UInt8
  | unspecified c | reserved c => c
  | nonIdrSlice => 1
  | sliceDataPartitionA => 2
  | sliceDataPartitionB => 3
  | sliceDataPartitionC => 4
  | idrSlice => 5
  | sei => 6
  | sps => 7
  | pps => 8
  | accessUnitDelimiter => 9
  | endOfSequence => 10
  | endOfStream => 11
  | fillerData => 12
  | spsExtension => 13
  | prefixUnit => 14
  | subsetSps => 15
  | auxiliarySlice => 19
  | sliceExtension => 20

/-- The name that messages call a type by. -/
def name : UnitType → String
  | unspecified c => s!"Unspecified({c})"
  | nonIdrSlice => "NonIdrSlice"
  | sliceDataPartitionA => "SliceDataPartitionA"
  | sliceDataPartitionB => "SliceDataPartitionB"
  | sliceDataPartitionC => "SliceDataPartitionC"
  | idrSlice => "IdrSlice"
  | sei => "Sei"
  | sps => "Sps"
  | pps => "Pps"
  | accessUnitDelimiter => "AccessUnitDelimiter"
  | endOfSequence => "EndOfSequence"
  | endOfStream => "EndOfStream"
  | fillerData => "FillerData"
  | spsExtension => "SpsExtension"
  | prefixUnit => "PrefixNalUnit"
  | subsetSps => "SubsetSps"
  | auxiliarySlice => "AuxiliarySlice"
  | sliceExtension => "SliceExtension"
  | reserved c => s!"Reserved({c})"

/-- Whether units of the type hold a whole slice. -/
def isSlice (t : UnitType) : Bool := t == nonIdrSlice || t == idrSlice || t == auxiliarySlice

/-- Whether units of the type hold a slice of an instantaneous decoding refresh picture. -/
def isIdr (t : UnitType) : Bool := t == idrSlice

/-- Whether units of the type are never used for reference. -/
def requiresZeroRefIdc (t : UnitType) : Bool :=
  t == sei || t == accessUnitDelimiter || t == endOfSequence || t == endOfStream || t == fillerData

end UnitType

end AvcSyntax

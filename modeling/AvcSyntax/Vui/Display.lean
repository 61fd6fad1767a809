import AvcSyntax.Bits.Code
import AvcSyntax.Bits.ExpGolomb

/-!
# How decoded pictures are meant to be shown

The shape of a sample, the meaning of its values, and the place of the chroma samples between
the luma samples.
-/
namespace AvcSyntax

/-- The shape of a sample. Width and height count only if `idc` is `AspectRatio.extended`. -/
structure AspectRatio where
  idc : UInt8 := 0
  width : UInt16 := 0
  height : UInt16 := 0
  deriving DecidableEq, Repr

namespace AspectRatio

/-- The number that announces an explicit width and height. -/
def extended : UInt8 := 255

/-- The numbers of the standard with their names. -/
def namedIdcs : List (String × UInt8) :=
  [("UNSPECIFIED", 0), ("SQUARE", 1), ("ASPECT_12_11", 2), ("ASPECT_10_11", 3),
   ("ASPECT_16_11", 4), ("ASPECT_40_33", 5), ("ASPECT_24_11", 6), ("ASPECT_20_11", 7),
   ("ASPECT_32_11", 8), ("ASPECT_80_33", 9), ("ASPECT_18_11", 10), ("ASPECT_15_11", 11),
   ("ASPECT_64_33", 12), ("ASPECT_160_99", 13), ("ASPECT_4_3", 14), ("ASPECT_3_2", 15),
   ("ASPECT_2_1", 16), ("EXTENDED_SAR", extended)]

/-- The ratios of the numbers 1, 2, 3 and so on. -/
def standardRatios : List (UInt16 × UInt16) :=
  [(1, 1), (12, 11), (10, 11), (16, 11), (40, 33), (24, 11), (20, 11), (32, 11), (80, 33),
   (18, 11), (15, 11), (64, 33), (160, 99), (4, 3), (3, 2), (2, 1)]

/-- The ratio that the standard gives to a number. -/
def standardRatio? (idc : UInt8) : Option (UInt16 × UInt16) :=
  if idc = 0 then none else standardRatios[idc.toNat - 1]?

/-- The ratio of width to height, if it is known. -/
def ratio? (a : AspectRatio) : Option (UInt16 × UInt16) :=
  if a.idc = extended then
    if a.width ≠ 0 ∧ a.height ≠ 0 then some (a.width, a.height) else none
  else standardRatio? a.idc

def parse : Parse AspectRatio := do
  let idc := (← Parse.word 1).toUInt8
  if idc = extended then
    let width ← Parse.word 2
    let height ← Parse.word 2
    return { idc, width := width.toUInt16, height := height.toUInt16 }
  else return { idc }

def code (a : AspectRatio) : Code :=
  .word 1 a.idc.toNat ++
  .onlyIf (a.idc = extended) (.word 2 a.width.toNat ++ .word 2 a.height.toNat)

end AspectRatio

inductive VideoFormat where
  | component
  | pal
  | ntsc
  | secam
  | mac
  | unspecified
  | reserved1
  | reserved2
  deriving DecidableEq, Repr

namespace VideoFormat

/-- The format with a number, of which only the lowest three bits count. -/
def ofCode (code : Nat) : VideoFormat :=
  match code % 8 with
  | 0 => component
  | 1 => pal
  | 2 => ntsc
  | 3 => secam
  | 4 => mac
  | 5 => unspecified
  | 6 => reserved1
  | _ => reserved2

def code : VideoFormat → Nat
  | component => 0
  | pal => 1
  | ntsc => 2
  | secam => 3
  | mac => 4
  | unspecified => 5
  | reserved1 => 6
  | reserved2 => 7

def name : VideoFormat → String
  | component => "Component"
  | pal => "PAL"
  | ntsc => "NTSC"
  | secam => "SECAM"
  | mac => "MAC"
  | unspecified => "Unspecified"
  | reserved1 => "Reserved1"
  | reserved2 => "Reserved2"

end VideoFormat

/-- The meaning of sample values as colours; 2 stands for unspecified. -/
structure ColourDescription where
  primaries : UInt8 := 2
  transfer : UInt8 := 2
  matrix : UInt8 := 2
  deriving DecidableEq, Repr

namespace ColourDescription

def parse : Parse ColourDescription := do
  let primaries ← Parse.word 1
  let transfer ← Parse.word 1
  let matrix ← Parse.word 1
  return {
    primaries := primaries.toUInt8, transfer := transfer.toUInt8, matrix := matrix.toUInt8 }

def code (c : ColourDescription) : Code :=
  .word 1 c.primaries.toNat ++ .word 1 c.transfer.toNat ++ .word 1 c.matrix.toNat

end ColourDescription

structure VideoSignal where
  format : VideoFormat := .unspecified
  fullRange : Bool := false
  colour : Option ColourDescription := none
  deriving DecidableEq, Repr

namespace VideoSignal

def parse : Parse VideoSignal := do
  let format ← Parse.u 3
  let fullRange ← Parse.flag
  let colour ← Parse.optional ColourDescription.parse
  return { format := .ofCode format, fullRange, colour }

def code (s : VideoSignal) : Code :=
  .u 3 s.format.code ++ .flag s.fullRange ++ .optional ColourDescription.code s.colour

/-- The colour description, unspecified if there is none. -/
def colourOrDefault (s : VideoSignal) : ColourDescription := s.colour.getD {}

end VideoSignal

structure ChromaLocation where
  topField : UInt8 := 0
  bottomField : UInt8 := 0
  deriving DecidableEq, Repr

namespace ChromaLocation

def parse : Parse ChromaLocation := do
  let top ← Parse.ueUpTo "chroma_sample_loc_type_top_field" 5
  let bottom ← Parse.ueUpTo "chroma_sample_loc_type_bottom_field" 5
  return { topField := top.toUInt8, bottomField := bottom.toUInt8 }

def code (l : ChromaLocation) : Code := .ue l.topField.toNat ++ .ue l.bottomField.toNat

end ChromaLocation

end AvcSyntax

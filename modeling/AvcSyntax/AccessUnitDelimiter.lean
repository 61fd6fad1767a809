import AvcSyntax.Bits.Code
import AvcSyntax.Bits.Reader

/-!
# Access unit delimiters

The first unit of a picture may say which types of slices the picture has.
-/
namespace AvcSyntax

inductive PrimaryPicType where
  | i
  | iP
  | iPB
  | si
  | siSP
  | iSI
  | iSIPSP
  | iSIPSPB
  deriving DecidableEq, Repr

namespace PrimaryPicType

/-- The type with a number, of which only the lowest three bits count. -/
def ofCode (code : Nat) : PrimaryPicType :=
  match code % 8 with
  | 0 => i
  | 1 => iP
  | 2 => iPB
  | 3 => si
  | 4 => siSP
  | 5 => iSI
  | 6 => iSIPSP
  | _ => iSIPSPB

def code : PrimaryPicType → Nat
  | i => 0
  | iP => 1
  | iPB => 2
  | si => 3
  | siSP => 4
  | iSI => 5
  | iSIPSP => 6
  | iSIPSPB => 7

def name : PrimaryPicType → String
  | i => "I"
  | iP => "IP"
  | iPB => "IPB"
  | si => "SI"
  | siSP => "SISP"
  | iSI => "ISI"
  | iSIPSP => "ISIPSP"
  | iSIPSPB => "ISIPSPB"

end PrimaryPicType

structure AccessUnitDelimiter where
  primaryPicType : PrimaryPicType := .i
  deriving DecidableEq, Repr

namespace AccessUnitDelimiter

def parse : Parse AccessUnitDelimiter := do return ⟨.ofCode (← Parse.u 3)⟩

def code (d : AccessUnitDelimiter) : Code := .u 3 d.primaryPicType.code

end AccessUnitDelimiter

end AvcSyntax

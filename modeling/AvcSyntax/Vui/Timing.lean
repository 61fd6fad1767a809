import AvcSyntax.Bits.Code
import AvcSyntax.Bits.ExpGolomb

/-!
# Timing of a stream

The clock of a stream, and the parameters of the hypothetical reference decoder: for each of its
delivery schedules a bit rate and the size of the coded picture buffer.
-/
namespace AvcSyntax

/-- The clock of a stream: a tick lasts `unitsInTick / timeScale` seconds. -/
structure TimingInfo where
  unitsInTick : UInt32 := 0
  timeScale : UInt32 := 0
  fixedFrameRate : Bool := false
  deriving DecidableEq, Repr

namespace TimingInfo

def parse : Parse TimingInfo := do
  let unitsInTick ← Parse.word 4
  let timeScale ← Parse.word 4
  let fixedFrameRate ← Parse.flag
  return {
    unitsInTick := unitsInTick.toUInt32, timeScale := timeScale.toUInt32, fixedFrameRate }

def code (t : TimingInfo) : Code :=
  .word 4 t.unitsInTick.toNat ++ .word 4 t.timeScale.toNat ++ .flag t.fixedFrameRate

/-- The number of bits that timing information is written in. -/
def bitSize : Nat := 65

/-- Frames per second; a frame lasts two ticks. -/
def frameRate? (t : TimingInfo) : Option Float :=
  if t.unitsInTick = 0 ∨ t.timeScale = 0 then none
  else some (t.timeScale.toFloat / (2.0 * t.unitsInTick.toFloat))

end TimingInfo

structure DeliverySchedule where
  bitRateValueMinus1 : UInt32 := 0
  cpbSizeValueMinus1 : UInt32 := 0
  constantBitRate : Bool := false
  deriving DecidableEq, Repr

namespace DeliverySchedule

def parse : Parse DeliverySchedule := do
  let bitRate ← Parse.ueUpTo "bit_rate_value_minus1" 0xfffffffe
  let cpbSize ← Parse.ueUpTo "cpb_size_value_minus1" 0xfffffffe
  let constantBitRate ← Parse.flag
  return {
    bitRateValueMinus1 := bitRate.toUInt32
    cpbSizeValueMinus1 := cpbSize.toUInt32
    constantBitRate }

def code (s : DeliverySchedule) : Code :=
  .ue s.bitRateValueMinus1.toNat ++ .ue s.cpbSizeValueMinus1.toNat ++ .flag s.constantBitRate

end DeliverySchedule

structure HrdParameters where
  bitRateScale : UInt8 := 0
  cpbSizeScale : UInt8 := 0
  schedules : List DeliverySchedule := [{}]
  initialCpbRemovalDelayLengthMinus1 : UInt8 := 23
  cpbRemovalDelayLengthMinus1 : UInt8 := 23
  dpbOutputDelayLengthMinus1 : UInt8 := 23
  timeOffsetLength : UInt8 := 24
  deriving DecidableEq, Repr

namespace HrdParameters

def parse : Parse HrdParameters := do
  let countMinus1 ← Parse.ueUpTo "cpb_cnt_minus1" 31
  let bitRateScale ← Parse.octet 4
  let cpbSizeScale ← Parse.octet 4
  let schedules ← Parse.times (countMinus1 + 1) DeliverySchedule.parse
  let initialCpbRemovalDelayLengthMinus1 ← Parse.octet 5
  let cpbRemovalDelayLengthMinus1 ← Parse.octet 5
  let dpbOutputDelayLengthMinus1 ← Parse.octet 5
  let timeOffsetLength ← Parse.octet 5
  return {
    bitRateScale, cpbSizeScale, schedules, initialCpbRemovalDelayLengthMinus1,
    cpbRemovalDelayLengthMinus1, dpbOutputDelayLengthMinus1, timeOffsetLength }

def code (h : HrdParameters) : Code :=
  .inRange "self.schedules.len()" 1 32 h.schedules.length ++
  .ue (h.schedules.length - 1) ++
  .u 4 h.bitRateScale.toNat ++
  .u 4 h.cpbSizeScale.toNat ++
  .concat (h.schedules.map DeliverySchedule.code) ++
  .u 5 h.initialCpbRemovalDelayLengthMinus1.toNat ++
  .u 5 h.cpbRemovalDelayLengthMinus1.toNat ++
  .u 5 h.dpbOutputDelayLengthMinus1.toNat ++
  .u 5 h.timeOffsetLength.toNat

/-- A value of a schedule in its unit, if the scale fits its field. -/
def scaled? (valueMinus1 : UInt32) (base : Nat) (scale : UInt8) : Option Nat :=
  if 15 < scale then none else some ((valueMinus1.toNat + 1) <<< (base + scale.toNat))

/-- The bit rate of a schedule in bits per second. -/
def bitRate? (h : HrdParameters) (schedule : Nat) : Option Nat :=
  h.schedules[schedule]?.bind fun s => scaled? s.bitRateValueMinus1 6 h.bitRateScale

/-- The size of the coded picture buffer of a schedule in bits. -/
def cpbSize? (h : HrdParameters) (schedule : Nat) : Option Nat :=
  h.schedules[schedule]?.bind fun s => scaled? s.cpbSizeValueMinus1 4 h.cpbSizeScale

end HrdParameters

end AvcSyntax

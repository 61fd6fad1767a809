import AvcSyntax.Nal.Error
import AvcSyntax.Nal.Trailing

/-!
# Supplemental enhancement information

A unit of supplemental information holds messages one behind the other. Each has a type, a
length and that many bytes of payload; what the payload means is left to the reader.
-/
namespace AvcSyntax

structure SeiMessage where
  payloadType : UInt32 := 0
  payload : List UInt8 := []
  deriving DecidableEq, Repr

namespace SeiMessage

def namedTypes : List (String × UInt32) :=
  [("BUFFERING_PERIOD", 0), ("PIC_TIMING", 1), ("PAN_SCAN_RECT", 2), ("FILLER_PAYLOAD", 3),
   ("USER_DATA_REGISTERED_ITU_T_T35", 4), ("USER_DATA_UNREGISTERED", 5), ("RECOVERY_POINT", 6),
   ("DEC_REF_PIC_MARKING_REPETITION", 7), ("SPARE_PIC", 8), ("SCENE_INFO", 9),
   ("SUB_SEQ_INFO", 10), ("SUB_SEQ_LAYER_CHARACTERISTICS", 11), ("SUB_SEQ_CHARACTERISTICS", 12),
   ("FULL_FRAME_FREEZE", 13), ("FULL_FRAME_FREEZE_RELEASE", 14), ("FULL_FRAME_SNAPSHOT", 15),
   ("PROGRESSIVE_REFINEMENT_SEGMENT_START", 16), ("PROGRESSIVE_REFINEMENT_SEGMENT_END", 17),
   ("MOTION_CONSTRAINED_SLICE_GROUP_SET", 18), ("FILM_GRAIN_CHARACTERISTICS", 19),
   ("DEBLOCKING_FILTER_DISPLAY_PREFERENCE", 20), ("STEREO_VIDEO_INFO", 21)]

/-- Reads one message. A payload that runs over the end is refused before any of it is read. -/
def parse : Decode SeiMessage := do
  let payloadType ← Parse.byteSum
  let size ← Parse.byteSum
  if (← get).remaining / 8 < size then throw .overrun
  let payload ← Parse.bytes size
  return { payloadType := payloadType.toUInt32, payload }

/-- Reads messages up to the stop bit, at most `count`. -/
def parseUpTo : (count : Nat) → Decode (List SeiMessage)
  | 0 => return []
  | count + 1 => do
    if ← Parse.moreData then
      let message ← parse
      return message :: (← parseUpTo count)
    else return []

/-- Reads messages up to the stop bit. Each of them takes two bytes at least. -/
def parseAll : Decode (List SeiMessage) := do parseUpTo ((← get).remaining / 16 + 1)

def code (m : SeiMessage) : Code :=
  (if m.payload.length < 0x100000000 then .empty else .fail (.payloadTooLarge m.payload.length)) ++
  .byteSum m.payloadType.toNat ++
  .byteSum m.payload.length ++
  .bytes m.payload

/-- The number of bytes that a message is written in. -/
def size (m : SeiMessage) : Nat :=
  (m.payloadType.toNat / 255 + 1) + (m.payload.length / 255 + 1) + m.payload.length

end SeiMessage

end AvcSyntax

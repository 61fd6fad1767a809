import AvcSyntax.Proofs.Bits.Truncation
import AvcSyntax.Sps.Basic

/-!
# Sequence parameter sets that are cut short

No part of a sequence parameter set looks ahead, and none has a default for what is missing. So the
bits that it passes are all that it depends on, and a cut at any of them shows.
-/
namespace AvcSyntax

open Parse

section ScalingLists

theorem ScalingList.sequential_parseNext (last : UInt8) :
    Sequential (·.kind = .endOfData) (parseNext last) :=
  (sequential_seWithin _ _ _).bind fun _ => .pure _

theorem ScalingList.sequential_parseAfter (n : Nat) (last : UInt8) :
    Sequential (·.kind = .endOfData) (parseAfter n last) := by
  induction n generalizing last with
  | zero => exact .pure _
  | succ n ih =>
    refine (sequential_parseNext last).bind fun next => .ite (fun _ => .pure _) fun _ => ?_
    exact (ih next).bind fun _ => .pure _

theorem ScalingList.sequential_parse (n : Nat) : Sequential (·.kind = .endOfData) (parse n) := by
  cases n with
  | zero => exact .pure _
  | succ n =>
    refine (sequential_parseNext 8).bind fun first => .ite (fun _ => .pure _) fun _ => ?_
    exact (sequential_parseAfter n first).bind fun _ => .pure _

theorem ScalingMatrix.sequential_parse (count : Nat) :
    Sequential (·.kind = .endOfData) (parse count) := by
  refine (sequential_inRange _ _ _ _).bind fun _ => ?_
  refine ((ScalingList.sequential_parse 16).optional.times _).bind fun small => ?_
  exact ((ScalingList.sequential_parse 64).optional.times _).bind fun _ => .pure _

end ScalingLists

theorem SampleFormat.sequential_parse : Sequential (·.kind = .endOfData) parse := by
  simp only [parse, ite_bind]
  refine (sequential_ueUpTo _ _).bind fun chroma => ?_
  refine Sequential.bind (.ite (fun _ => sequential_flag) fun _ => .pure false) fun planes => ?_
  refine (sequential_ueUpTo _ _).bind fun luma => (sequential_ueUpTo _ _).bind fun depth => ?_
  refine sequential_flag.bind fun lossless => ?_
  exact (ScalingMatrix.sequential_parse _).optional.bind fun matrix => .pure _

section PicOrder

theorem OrderCycle.sequential_parse : Sequential (·.kind = .endOfData) parse := by
  refine sequential_flag.bind fun deltaAlwaysZero => sequential_se.bind fun nonRef => ?_
  refine sequential_se.bind fun topToBottom => (sequential_ueUpTo _ _).bind fun count => ?_
  exact ((sequential_se.map _).times count).bind fun offsets => .pure _

theorem PicOrderCount.sequential_parse : Sequential (·.kind = .endOfData) parse := by
  refine (sequential_ueUpTo _ _).bind fun type => ?_
  match type with
  | 0 => exact (sequential_ueUpTo _ _).bind fun log2 => .pure _
  | 1 => exact OrderCycle.sequential_parse.bind fun cycle => .pure _
  | _ + 2 => exact .pure _

end PicOrder

theorem FrameCropping.sequential_parse : Sequential (·.kind = .endOfData) parse := by
  refine sequential_ue.bind fun left => sequential_ue.bind fun right => ?_
  exact sequential_ue.bind fun top => sequential_ue.bind fun bottom => .pure _

section Vui

theorem AspectRatio.sequential_parse : Sequential (·.kind = .endOfData) parse := by
  refine (sequential_word 1).bind fun idc => .ite (fun _ => ?_) fun _ => .pure _
  exact (sequential_word 2).bind fun width => (sequential_word 2).bind fun height => .pure _

theorem ColourDescription.sequential_parse : Sequential (·.kind = .endOfData) parse := by
  refine (sequential_word 1).bind fun primaries => (sequential_word 1).bind fun transfer => ?_
  exact (sequential_word 1).bind fun matrix => .pure _

theorem VideoSignal.sequential_parse : Sequential (·.kind = .endOfData) parse := by
  refine (sequential_u 3).bind fun format => sequential_flag.bind fun fullRange => ?_
  exact ColourDescription.sequential_parse.optional.bind fun colour => .pure _

theorem ChromaLocation.sequential_parse : Sequential (·.kind = .endOfData) parse :=
  (sequential_ueUpTo _ _).bind fun _ => (sequential_ueUpTo _ _).bind fun _ => .pure _

theorem TimingInfo.sequential_parse : Sequential (·.kind = .endOfData) parse := by
  refine (sequential_word 4).bind fun unitsInTick => (sequential_word 4).bind fun timeScale => ?_
  exact sequential_flag.bind fun fixedFrameRate => .pure _

theorem DeliverySchedule.sequential_parse : Sequential (·.kind = .endOfData) parse := by
  refine (sequential_ueUpTo _ _).bind fun bitRate => (sequential_ueUpTo _ _).bind fun cpbSize => ?_
  exact sequential_flag.bind fun constantBitRate => .pure _

theorem HrdParameters.sequential_parse : Sequential (·.kind = .endOfData) parse := by
  refine (sequential_ueUpTo _ _).bind fun countMinus1 => ?_
  refine (sequential_octet 4).bind fun bitRateScale => (sequential_octet 4).bind fun cpbScale => ?_
  refine (DeliverySchedule.sequential_parse.times _).bind fun schedules => ?_
  refine (sequential_octet 5).bind fun initialDelay => (sequential_octet 5).bind fun delay => ?_
  exact (sequential_octet 5).bind fun dpbDelay => (sequential_octet 5).bind fun offset => .pure _

theorem BitstreamRestriction.sequential_parse : Sequential (·.kind = .endOfData) parse := by
  refine sequential_flag.bind fun overBoundaries => ?_
  refine (sequential_ueUpTo _ _).bind fun bytesDenom => ?_
  refine (sequential_ueUpTo _ _).bind fun bitsDenom => ?_
  refine (sequential_ueUpTo _ _).bind fun horizontal => ?_
  refine (sequential_ueUpTo _ _).bind fun vertical => ?_
  refine (sequential_ueUpTo _ _).bind fun reorder => ?_
  exact (sequential_ueUpTo _ _).bind fun buffering => .pure _

theorem VuiParameters.sequential_parse : Sequential (·.kind = .endOfData) parse := by
  simp only [parse, ite_bind]
  refine AspectRatio.sequential_parse.optional.bind fun aspectRatio => ?_
  refine sequential_flag.optional.bind fun overscan => ?_
  refine VideoSignal.sequential_parse.optional.bind fun videoSignal => ?_
  refine ChromaLocation.sequential_parse.optional.bind fun chromaLocation => ?_
  refine TimingInfo.sequential_parse.optional.bind fun timing => ?_
  refine HrdParameters.sequential_parse.optional.bind fun nalHrd => ?_
  refine HrdParameters.sequential_parse.optional.bind fun vclHrd => ?_
  refine Sequential.bind (.ite (fun _ => sequential_flag) fun _ => .pure false) fun lowDelay => ?_
  refine sequential_flag.bind fun picStruct => ?_
  exact BitstreamRestriction.sequential_parse.optional.bind fun restriction => .pure _

end Vui

theorem Sps.sequential_parse : Sequential (·.kind = .endOfData) parse := by
  simp only [parse, ite_bind]
  refine (sequential_octet 8).bind fun profileIdc => ?_
  refine sequential_flag.bind fun set0 => sequential_flag.bind fun set1 => ?_
  refine sequential_flag.bind fun set2 => sequential_flag.bind fun set3 => ?_
  refine sequential_flag.bind fun set4 => sequential_flag.bind fun set5 => ?_
  refine (sequential_octet 2).bind fun reserved => (sequential_octet 8).bind fun levelIdc => ?_
  refine (sequential_ueUpTo _ _).bind fun number => ?_
  refine Sequential.bind (.ite (fun _ => SampleFormat.sequential_parse.map some) fun _ =>
    .pure none) fun sampleFormat => ?_
  refine (sequential_ueUpTo _ _).bind fun log2MaxFrameNum => ?_
  refine PicOrderCount.sequential_parse.bind fun picOrderCount => ?_
  refine (sequential_ueUpTo _ _).bind fun maxNumRefFrames => sequential_flag.bind fun gaps => ?_
  refine sequential_ue.bind fun width => sequential_ue.bind fun height => ?_
  refine sequential_flag.bind fun frameMbsOnly => ?_
  refine Sequential.bind (.ite (fun _ => .pure false) fun _ => sequential_flag) fun adaptive => ?_
  refine sequential_flag.bind fun direct8x8 => ?_
  refine FrameCropping.sequential_parse.optional.bind fun cropping => ?_
  exact VuiParameters.sequential_parse.optional.bind fun vui => .pure _

end AvcSyntax

import AvcSyntax.Nal.Error

/-!
# NAL units in a byte stream

In a byte stream each NAL unit follows the three bytes 0 0 1, in front of which there may be any
number of zero bytes. A unit ends before the next two zero bytes that are followed by a 0 or a 1.

`scanUnit` finds the first unit of a stream, `unitsOf` lists them all, and `joinUnits` writes a
stream with four byte start codes.
-/
namespace AvcSyntax

/-- The bytes in front of each unit that is written. -/
def startCode : List UInt8 := [0, 0, 0, 1]

/-- The place of a unit in its stream: from `start` up to but not including `stop`. -/
structure UnitSpan where
  start : Nat
  stop : Nat
  deriving DecidableEq, Repr

namespace UnitSpan

def length (s : UnitSpan) : Nat := s.stop - s.start

def isEmpty (s : UnitSpan) : Bool := s.stop == s.start

def slice (s : UnitSpan) (stream : List UInt8) : List UInt8 := (stream.drop s.start).take s.length

end UnitSpan

/-- The position behind the first start code of bytes that stand at `pos`. -/
def afterStartCode? : (pos : Nat) → List UInt8 → Option Nat
  | _, [] => none
  | pos, b :: bs =>
    if b = 0 ∧ bs.take 2 = [0, 1] then some (pos + 3) else afterStartCode? (pos + 1) bs

/-- The position of the first two zero bytes that are followed by a 0 or a 1, among bytes that
stand at `pos`. Two zero bytes that are not are passed together. -/
def unitStop? : (pos : Nat) → List UInt8 → Option Nat
  | pos, a :: b :: bs =>
    if a = 0 ∧ b = 0 then
      if bs.head?.any (· ≤ 1) then some pos else unitStop? (pos + 2) bs
    else unitStop? (pos + 1) (b :: bs)
  | _, _ => none

inductive UnitScan where
  /-- No start code, or none with a byte behind it. -/
  | nothing
  /-- A unit that ends before the end of the stream. -/
  | unit (span : UnitSpan)
  /-- A unit that nothing ends. -/
  | unended (start : Nat)
  deriving DecidableEq, Repr

def scanUnit (stream : List UInt8) : UnitScan :=
  match afterStartCode? 0 stream with
  | none => .nothing
  | some start =>
    let rest := stream.drop start
    if rest.isEmpty then .nothing
    else match unitStop? start rest with
      | some stop => .unit ⟨start, stop⟩
      | none => .unended start

/-- The first unit of a stream, which has to be followed by the mark of its end. -/
def findUnit (stream : List UInt8) : Except NalError (Option UnitSpan) :=
  match scanUnit stream with
  | .nothing => .ok none
  | .unit span => .ok (some span)
  | .unended start => .error (.notTerminated start)

/-- Bytes without the zero bytes at their end. -/
def dropTrailingZeros (bs : List UInt8) : List UInt8 := (bs.reverse.dropWhile (· == 0)).reverse

theorem pos_lt_of_afterStartCode? {pos start : Nat} {bs : List UInt8}
    (h : afterStartCode? pos bs = some start) : pos < start := by
  induction bs generalizing pos with
  | nil => simp [afterStartCode?] at h
  | cons b bs ih =>
    simp only [afterStartCode?] at h
    split at h
    · simp only [Option.some.injEq] at h; omega
    · have := ih h; omega

theorem pos_le_of_unitStop? {pos stop : Nat} {bs : List UInt8}
    (h : unitStop? pos bs = some stop) : pos ≤ stop := by
  fun_induction unitStop? pos bs with
  | case1 => simp only [Option.some.injEq] at h; omega
  | case2 _ _ _ _ _ _ ih => have := ih h; omega
  | case3 _ _ _ _ _ ih => have := ih h; omega
  | case4 => simp at h

theorem scanUnit_unit_bounds {stream : List UInt8} {span : UnitSpan}
    (h : scanUnit stream = .unit span) : 0 < span.stop ∧ stream ≠ [] := by
  simp only [scanUnit] at h
  split at h
  · simp at h
  · rename_i start hs
    have hpos := pos_lt_of_afterStartCode? hs
    split at h
    · simp at h
    · split at h
      · rename_i stop he
        have hstop := pos_le_of_unitStop? he
        simp only [UnitScan.unit.injEq] at h
        subst h
        refine ⟨by simp only; omega, ?_⟩
        rintro rfl
        simp [afterStartCode?] at hs
      · simp at h

/-- The units of a stream. Empty ones are left out, and one that runs to the end of the stream
loses its trailing zero bytes. -/
def unitsOf (stream : List UInt8) : List (List UInt8) :=
  match _h : scanUnit stream with
  | .nothing => []
  | .unit span =>
    let later := unitsOf (stream.drop span.stop)
    if span.isEmpty then later else span.slice stream :: later
  | .unended start =>
    let last := dropTrailingZeros (stream.drop start)
    if last.isEmpty then [] else [last]
termination_by stream.length
decreasing_by
  obtain ⟨hstop, hne⟩ := scanUnit_unit_bounds _h
  have := List.length_pos_iff.mpr hne
  simp only [List.length_drop]
  omega

/-- The stream of some units, each behind a start code. -/
def joinUnits (units : List (List UInt8)) : List UInt8 := units.flatMap (startCode ++ ·)

end AvcSyntax

import AvcSyntax.Fixup.Basic
import AvcSyntax.Stream.Basic

/-!
# Patching a stream unit by unit

A patcher passes units through and changes the sequence parameter sets among them by a fixup.

Some decoders have to be started with the Baseline profile. With replay enabled the parameter
sets at the start of the stream go out as Baseline, and the unit behind the first picture
parameter set is preceded by the last of them once more, in the High profile.
-/
namespace AvcSyntax

structure SpsUnit where
  header : NalHeader
  sps : Sps
  deriving DecidableEq, Repr

def SpsUnit.toNalUnit (u : SpsUnit) : NalUnit := { header := u.header, payload := .sps u.sps }

/-- The sequence parameter set that a unit has to be. -/
def NalUnit.expectSps (u : NalUnit) : Except NalError SpsUnit :=
  match u.payload with
  | .sps sps => .ok { header := u.header, sps }
  | _ => .error (.spsExpected u.header.unitType)

namespace Stream

/-- Stores a sequence parameter set in place of the one read and gives its bytes. -/
def replaceSps (u : SpsUnit) : Session (List UInt8) := do
  storeSps u.sps
  (← get).writeUnit u.toNalUnit

/-- Reads a sequence parameter set, changes it, stores it and gives its bytes. -/
def patchSps (fixup : SpsFixup) (bytes : List UInt8) : Session (List UInt8) := do
  let u ← (← readUnit bytes).expectSps
  replaceSps { u with sps := fixup.apply u.sps }

end Stream

inductive Replay where
  /-- Parameter sets go out as Baseline; `high` is the last of them in the High profile. -/
  | waiting (high : Option SpsUnit)
  /-- The next unit is preceded by `high`. -/
  | armed (high : SpsUnit)
  | done
  deriving DecidableEq, Repr

structure SpsPatcher where
  stream : Stream := {}
  fixup : SpsFixup := {}
  replayEnabled : Bool := false
  replay : Replay := .waiting none

def Sps.toBaseline (s : Sps) : Sps := { s with profileIdc := 66, sampleFormat := none }

def Sps.toHigh (s : Sps) : Sps :=
  { s with profileIdc := 100, sampleFormat := some (s.sampleFormat.getD {}) }

namespace SpsPatcher

/-- An action on a patcher that may fail. -/
abbrev Action := EStateM NalError SpsPatcher

def onStream {α : Type} (p : Session α) : Action α := fun r =>
  match p r.stream with
  | .ok a stream => .ok a { r with stream }
  | .error e stream => .error e { r with stream }

/-- Sends the parameter set that is to be replayed, if it is time. The replay happens once,
whatever becomes of it. -/
def emitReplay : Action (List (List UInt8)) := do
  match (← get).replay with
  | .armed high => do
    modify fun r => { r with replay := .done }
    return [← onStream (Stream.replaceSps high)]
  | _ => return []

/-- Sends a sequence parameter set as Baseline and keeps it for the replay. -/
def sendAsBaseline (bytes : List UInt8) : Action (List UInt8) := do
  let u ← (← onStream (Stream.readUnit bytes)).expectSps
  let sps := (← get).fixup.apply u.sps
  modify fun r => { r with replay := .waiting (some { u with sps := sps.toHigh }) }
  onStream (Stream.replaceSps { u with sps := sps.toBaseline })

def sendSps (bytes : List UInt8) : Action (List UInt8) := do
  let r ← get
  match r.replayEnabled, r.replay with
  | true, .waiting _ => sendAsBaseline bytes
  | _, _ => onStream (Stream.patchSps r.fixup bytes)

/-- Notes that a picture parameter set has been seen: a replay that waits is next. -/
def notePps : Action Unit := do
  match (← get).replay with
  | .waiting (some high) => modify fun r => { r with replay := .armed high }
  | _ => return ()

/-- Passes one unit through and gives the units to send in its place. -/
def process (bytes : List UInt8) : Action (List (List UInt8)) := do
  let replayed ← emitReplay
  let header ← NalHeader.peek bytes
  match header.unitType with
  | .sps => return replayed ++ [← sendSps bytes]
  | .pps => do
    notePps
    return replayed ++ [bytes]
  | _ => return replayed ++ [bytes]

end SpsPatcher

end AvcSyntax

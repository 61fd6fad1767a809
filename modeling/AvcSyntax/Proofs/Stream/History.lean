import AvcSyntax.Proofs.Stream.Basic

/-!
# What a history of calls leaves in a stream

A stream is handed units one after the other and answers each with the unit that it read or with
an error. Its parameter sets tell no more than these answers do: under each number stands the set
with that number that was given last. A call that fails leaves no trace, so neither does where in
the reading of a unit it failed.

A whole byte stream is read by the same calls on its units, up to the first that fails. What the
calls before that one have stored stays.
-/
namespace AvcSyntax

namespace NalUnit

/-- The sequence parameter set in a unit, if it has some number. -/
def spsWithId? (id : UInt8) (u : NalUnit) : Option Sps :=
  match u.payload with
  | .sps s => if id = s.id then some s else none
  | _ => none

def ppsWithId? (id : UInt8) (u : NalUnit) : Option Pps :=
  match u.payload with
  | .pps p => if id = p.id then some p else none
  | _ => none

theorem id_of_spsWithId? {id : UInt8} {u : NalUnit} {s : Sps} (h : u.spsWithId? id = some s) :
    s.id = id := by
  unfold spsWithId? at h
  split at h
  · split at h
    · rename_i hid
      exact (Option.some.inj h) ▸ hid.symm
    · cases h
  · cases h

end NalUnit

namespace ParameterSets

variable {sets later : ParameterSets} {u : NalUnit}

/-- A unit that was read decides what stands under the number of its sequence parameter set. -/
theorem sps_of_keep (h : sets.keep u.payload = .ok later) (id : UInt8) :
    later.sps id = (u.spsWithId? id).or (sets.sps id) := by
  obtain ⟨header, payload⟩ := u
  cases payload with
  | sps s =>
    obtain ⟨-, rfl⟩ := insertSps_eq_ok.mp h
    by_cases hid : id = s.id
    · simp only [NalUnit.spsWithId?, if_pos hid, Option.some_or]
    · simp only [NalUnit.spsWithId?, if_neg hid, Option.none_or]
  | _ =>
    obtain rfl := Except.ok.inj h
    rfl

theorem pps_of_keep (h : sets.keep u.payload = .ok later) (id : UInt8) :
    later.pps id = (u.ppsWithId? id).or (sets.pps id) := by
  obtain ⟨header, payload⟩ := u
  cases payload with
  | sps s =>
    obtain ⟨-, rfl⟩ := insertSps_eq_ok.mp h
    rfl
  | pps p =>
    obtain rfl := Except.ok.inj h
    by_cases hid : id = p.id
    · simp only [insertPps, NalUnit.ppsWithId?, if_pos hid, Option.some_or]
    · simp only [insertPps, NalUnit.ppsWithId?, if_neg hid, Option.none_or]
  | _ =>
    obtain rfl := Except.ok.inj h
    rfl

end ParameterSets

namespace Stream

/-- What a stream answers to each of some units that it is handed in order. -/
def answers : List (List UInt8) → Stream → List (Except NalError NalUnit)
  | [], _ => []
  | bytes :: rest, s =>
    match readUnit bytes s with
    | .ok u t => .ok u :: answers rest t
    | .error e t => .error e :: answers rest t

/-- What was picked last from the units among some answers. -/
def lastGiven {α : Type} (pick : NalUnit → Option α) (given : List (Except NalError NalUnit)) :
    Option α :=
  given.reverse.findSome? fun answer => answer.toOption.bind pick

variable {s t : Stream} {bytes : List UInt8} {units : List (List UInt8)} {us : List NalUnit}
  {u : NalUnit} {e : NalError}

section Calls

theorem answers_cons_ok (h : readUnit bytes s = .ok u t) :
    answers (bytes :: units) s = .ok u :: answers units t := by simp only [answers, h]

theorem answers_cons_error (h : readUnit bytes s = .error e t) :
    answers (bytes :: units) s = .error e :: answers units t := by simp only [answers, h]

theorem after_cons_ok (h : readUnit bytes s = .ok u t) :
    after (bytes :: units) s = after units t := by simp only [after, h]

theorem after_cons_error (h : readUnit bytes s = .error e t) :
    after (bytes :: units) s = after units t := by simp only [after, h]

/-- A unit changes the parameter sets of its own kind only. -/
theorem parameterSets_of_readUnit (h : readUnit bytes s = .ok u t) :
    ((∀ sps, u.payload ≠ .sps sps) → t.parameterSets.sps = s.parameterSets.sps) ∧
      ((∀ pps, u.payload ≠ .pps pps) → t.parameterSets.pps = s.parameterSets.pps) := by
  obtain ⟨-, later, hkeep, rfl⟩ := readUnit_eq_ok.mp h
  obtain ⟨header, payload⟩ := u
  cases payload with
  | sps sps =>
    obtain ⟨-, rfl⟩ := ParameterSets.insertSps_eq_ok.mp hkeep
    exact ⟨fun hother => absurd rfl (hother sps), fun _ => rfl⟩
  | pps pps =>
    obtain rfl := Except.ok.inj hkeep
    exact ⟨fun _ => rfl, fun hother => absurd rfl (hother pps)⟩
  | _ =>
    obtain rfl := Except.ok.inj hkeep
    exact ⟨fun _ => rfl, fun _ => rfl⟩

end Calls

section Histories

variable {α : Type} (pick : NalUnit → Option α)

theorem lastGiven_append (first later : List (Except NalError NalUnit)) :
    lastGiven pick (first ++ later) = (lastGiven pick later).or (lastGiven pick first) := by
  rw [lastGiven, List.reverse_append, List.findSome?_append, lastGiven, lastGiven]

theorem lastGiven_ok (u : NalUnit) : lastGiven pick [.ok u] = pick u := by
  simp [lastGiven, Except.toOption]

theorem lastGiven_error (e : NalError) : lastGiven pick [.error e] = none := rfl

theorem exists_of_lastGiven {given : List (Except NalError NalUnit)} {a : α}
    (h : lastGiven pick given = some a) : ∃ u, .ok u ∈ given ∧ pick u = some a := by
  obtain ⟨answer, hmem, hanswer⟩ := List.exists_of_findSome?_eq_some h
  cases answer with
  | error e => cases hanswer
  | ok u => exact ⟨u, List.mem_reverse.mp hmem, hanswer⟩

/-- What is looked up in the parameter sets was given last, or was there at the start, if every
unit that is read decides it by what is picked from the unit. -/
theorem lookup_after {lookup : ParameterSets → Option α}
    (hlookup : ∀ {sets later : ParameterSets} {u : NalUnit}, sets.keep u.payload = .ok later →
      lookup later = (pick u).or (lookup sets))
    (history : List (List UInt8)) (s : Stream) :
    lookup (after history s).parameterSets =
      (lastGiven pick (answers history s)).or (lookup s.parameterSets) := by
  induction history generalizing s with
  | nil => rfl
  | cons bytes history ih =>
    cases hread : readUnit bytes s with
    | ok u t =>
      obtain ⟨-, later, hkeep, rfl⟩ := readUnit_eq_ok.mp hread
      rw [after_cons_ok hread, ih, hlookup hkeep, answers_cons_ok hread,
        ← List.singleton_append, lastGiven_append, lastGiven_ok, Option.or_assoc]
    | error e t =>
      obtain rfl := readUnit_error hread
      rw [after_cons_error hread, ih, answers_cons_error hread, ← List.singleton_append,
        lastGiven_append, lastGiven_error, Option.or_none]

theorem sps_after (config : StreamConfig) (history : List (List UInt8)) (id : UInt8) :
    (after history { config }).parameterSets.sps id =
      lastGiven (NalUnit.spsWithId? id) (answers history { config }) := by
  rw [lookup_after (NalUnit.spsWithId? id) fun h => ParameterSets.sps_of_keep h id]
  exact Option.or_none ..

theorem pps_after (config : StreamConfig) (history : List (List UInt8)) (id : UInt8) :
    (after history { config }).parameterSets.pps id =
      lastGiven (NalUnit.ppsWithId? id) (answers history { config }) := by
  rw [lookup_after (NalUnit.ppsWithId? id) fun h => ParameterSets.pps_of_keep h id]
  exact Option.or_none ..

/-- A set stands under its own number, and that passed the check when it was stored. -/
theorem le_of_sps_after {config : StreamConfig} {history : List (List UInt8)} {id : UInt8}
    {sps : Sps} (h : (after history { config }).parameterSets.sps id = some sps) :
    id.toNat ≤ 31 := by
  have hwf : sps.WellFormed :=
    (wellFormed_after history ParameterSets.wellFormed_empty).sps id sps h
  rw [sps_after] at h
  obtain ⟨u, -, hu⟩ := exists_of_lastGiven _ h
  exact NalUnit.id_of_spsWithId? hu ▸ hwf.id

end Histories

section ByteStreams

/-- Reading units in order answers the calls up to the first that fails. -/
theorem readUnits_answers (units : List (List UInt8)) (s : Stream) :
    (∃ us : List NalUnit, answers units s = us.map .ok ∧
        readUnits units s = .ok us (after units s)) ∨
      ∃ (front : List (List UInt8)) (n : List UInt8) (back : List (List UInt8))
        (us : List NalUnit) (e : NalError), units = front ++ n :: back ∧
        answers (front ++ [n]) s = us.map .ok ++ [.error e] ∧
        readUnits units s = .error e (after (front ++ [n]) s) := by
  induction units generalizing s with
  | nil => exact .inl ⟨[], rfl, rfl⟩
  | cons bytes units ih =>
    cases hread : readUnit bytes s with
    | error e t =>
      refine .inr ⟨[], bytes, units, [], e, rfl, ?_, ?_⟩
      · exact answers_cons_error hread
      · rw [readUnits, bind_of_error hread, List.nil_append, after_cons_error hread]
        rfl
    | ok u t =>
      rcases ih t with ⟨us, hanswers, hrest⟩ | ⟨front, n, back, us, e, rfl, hanswers, hrest⟩
      · refine .inl ⟨u :: us, ?_, ?_⟩
        · rw [answers_cons_ok hread, hanswers, List.map_cons]
        · rw [readUnits, bind_of_ok hread, bind_of_ok hrest, after_cons_ok hread]
          rfl
      · refine .inr ⟨bytes :: front, n, back, u :: us, e, rfl, ?_, ?_⟩
        · rw [List.cons_append, answers_cons_ok hread, hanswers, List.map_cons, List.cons_append]
        · rw [readUnits, bind_of_ok hread, bind_of_error hrest, List.cons_append,
            after_cons_ok hread]

end ByteStreams

/-- Whatever a new stream was handed, under each number stands the parameter set with that number
that it answered last, if there was one, and numbers above 31 have no sequence parameter set. Calls
that fail and calls that answer another kind of unit change nothing. A byte stream is read by the
calls on its units, up to the first that fails. -/
theorem parameterSets_after (config : StreamConfig) (history : List (List UInt8)) :
    (∀ id, (after history { config }).parameterSets.sps id =
        lastGiven (NalUnit.spsWithId? id) (answers history { config })) ∧
      (∀ id, (after history { config }).parameterSets.pps id =
        lastGiven (NalUnit.ppsWithId? id) (answers history { config })) ∧
      (∀ id, 31 < id.toNat → (after history { config }).parameterSets.sps id = none) ∧
      ∀ (s : Stream) (bytes : List UInt8),
        (∀ e t, readUnit bytes s = .error e t → t = s) ∧
        (∀ u t, readUnit bytes s = .ok u t →
          ((∀ sps, u.payload ≠ .sps sps) → t.parameterSets.sps = s.parameterSets.sps) ∧
          ((∀ pps, u.payload ≠ .pps pps) → t.parameterSets.pps = s.parameterSets.pps)) ∧
        ((∃ us : List NalUnit, answers (unitsOf bytes) s = us.map .ok ∧
            readByteStream bytes s = .ok us (after (unitsOf bytes) s)) ∨
          ∃ (front : List (List UInt8)) (n : List UInt8) (back : List (List UInt8))
            (us : List NalUnit) (e : NalError), unitsOf bytes = front ++ n :: back ∧
            answers (front ++ [n]) s = us.map .ok ++ [.error e] ∧
            readByteStream bytes s = .error e (after (front ++ [n]) s)) := by
  refine ⟨sps_after config history, pps_after config history, ?_, ?_⟩
  · intro id hid
    rw [Option.eq_none_iff_forall_ne_some]
    intro sps hsps
    have hle := le_of_sps_after hsps
    omega
  · intro s bytes
    exact ⟨fun _ _ => readUnit_error, fun _ _ => parameterSets_of_readUnit,
      readUnits_answers (unitsOf bytes) s⟩

/-- A set of each kind, a unit that is refused between them, and a second sequence parameter set
with the same number. -/
theorem parameterSets_after_refused :
    let first : List UInt8 := [103, 66, 0, 10, 251, 136]
    let second : List UInt8 := [103, 66, 0, 11, 251, 136]
    let history : List (List UInt8) := [first, [128], [104, 206, 56, 128], second]
    answers history {} =
        [.ok ⟨⟨3, .sps⟩, .sps { profileIdc := 66, levelIdc := 10 }⟩,
          .error .forbiddenZeroBit,
          .ok ⟨⟨3, .pps⟩, .pps {}⟩,
          .ok ⟨⟨3, .sps⟩, .sps { profileIdc := 66, levelIdc := 11 }⟩] ∧
      (after history {}).parameterSets.sps 0 = some { profileIdc := 66, levelIdc := 11 } ∧
      (after history {}).parameterSets.pps 0 = some {} ∧
      (after history {}).parameterSets.sps 32 = none := by
  intro first second history
  have hanswers : answers history {} =
      [.ok ⟨⟨3, .sps⟩, .sps { profileIdc := 66, levelIdc := 10 }⟩,
        .error .forbiddenZeroBit,
        .ok ⟨⟨3, .pps⟩, .pps {}⟩,
        .ok ⟨⟨3, .sps⟩, .sps { profileIdc := 66, levelIdc := 11 }⟩] := by cbv
  obtain ⟨hsps, hpps, habove, -⟩ := parameterSets_after {} history
  refine ⟨hanswers, ?_, ?_, habove 32 (by decide)⟩
  · rw [hsps, hanswers]
    rfl
  · rw [hpps, hanswers]
    rfl

end Stream

end AvcSyntax

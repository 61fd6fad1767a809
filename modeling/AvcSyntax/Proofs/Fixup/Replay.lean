import AvcSyntax.Proofs.Fixup.SpsPatcher

/-!
# When the replay happens

How far the replay has come is a matter of the units that a patcher was handed, so what a whole
run sends can be told from the units. If no call fails, the replay is sent behind the first
picture parameter set that follows a sequence parameter set. If the call that should send it
fails, it is lost: later calls send their own unit alone.
-/
namespace AvcSyntax

namespace SpsPatcher

variable {fixup : SpsFixup} {enabled : Bool} {r t : SpsPatcher} {n : List UInt8}
  {units : List (List UInt8)} {outputs : List (List (List UInt8))}

section Runs

/-- The patcher after it was handed some units in order, whether or not it could send them. -/
def after : List (List UInt8) → SpsPatcher → SpsPatcher
  | [], r => r
  | n :: rest, r => after rest (stateOf (process n r))

def processAll : List (List UInt8) → Action (List (List (List UInt8)))
  | [] => return []
  | n :: rest => do
    let out ← process n
    return out :: (← processAll rest)

theorem processAll_cons_eq_ok :
    processAll (n :: units) r = .ok outputs t ↔ ∃ out v later, process n r = .ok out v ∧
      processAll units v = .ok later t ∧ outputs = out :: later := by
  rw [processAll]
  constructor
  · intro h
    obtain ⟨out, v, hout, h⟩ := bind_eq_ok.mp h
    obtain ⟨later, u, hlater, h⟩ := bind_eq_ok.mp h
    cases h
    exact ⟨out, v, later, hout, hlater, rfl⟩
  · intro h
    obtain ⟨out, v, later, hout, hlater, rfl⟩ := h
    rw [bind_of_ok hout]
    exact bind_of_ok hlater

/-- How far the replay has come after some units. -/
def replayAfter (fixup : SpsFixup) (enabled : Bool) : List (List UInt8) → Replay → Replay
  | [], replay => replay
  | n :: rest, replay => replayAfter fixup enabled rest (nextReplay fixup enabled n replay)

theorem setUp_after (hr : SetUp fixup enabled r) (units : List (List UInt8)) :
    SetUp fixup enabled (after units r) := by
  induction units generalizing r with
  | nil => exact hr
  | cons n units ih => exact ih (keeps_process n r hr)

theorem replay_after (hr : SetUp fixup enabled r) (units : List (List UInt8)) :
    (after units r).replay = replayAfter fixup enabled units r.replay := by
  induction units generalizing r with
  | nil => rfl
  | cons n units ih =>
    rw [after, ih (keeps_process n r hr), replay_process hr]
    rfl

/-- A run takes one call for each unit, made where the units before have led. -/
theorem process_of_processAll (h : processAll units r = .ok outputs t) :
    outputs.length = units.length ∧ ∀ i n out, units[i]? = some n → outputs[i]? = some out →
      ∃ v, process n (after (units.take i) r) = .ok out v := by
  induction units generalizing r outputs with
  | nil =>
    cases h
    exact ⟨rfl, fun i n out hn => by simp at hn⟩
  | cons first units ih =>
    obtain ⟨firstOut, u, later, hfirst, hlater, rfl⟩ := processAll_cons_eq_ok.mp h
    obtain ⟨hlength, hcalls⟩ := ih hlater
    refine ⟨congrArg (· + 1) hlength, fun i n out hn hout => ?_⟩
    cases i with
    | zero =>
      cases hn
      cases hout
      exact ⟨u, hfirst⟩
    | succ i =>
      have hstate : after ((first :: units).take (i + 1)) r = after (units.take i) u := by
        rw [List.take_succ_cons, after, hfirst]
        rfl
      rw [hstate]
      exact hcalls i n out hn hout

theorem replayAfter_append (units later : List (List UInt8)) (replay : Replay) :
    replayAfter fixup enabled (units ++ later) replay =
      replayAfter fixup enabled later (replayAfter fixup enabled units replay) := by
  induction units generalizing replay with
  | nil => rfl
  | cons n units ih => exact ih _

theorem replayAfter_done (units : List (List UInt8)) :
    replayAfter fixup enabled units .done = .done := by
  induction units with
  | nil => rfl
  | cons n units ih => exact ih

/-- An armed replay lasts for a single call. -/
theorem replayAfter_armed (h : units ≠ []) (high : SpsUnit) :
    replayAfter fixup enabled units (.armed high) = .done := by
  cases units with
  | nil => exact absurd rfl h
  | cons n units => exact replayAfter_done units

end Runs

section Histories

def lastSps? (units : List (List UInt8)) : Option (List UInt8) := units.reverse.find? isSps

/-- The last one that can be read. -/
def lastRead? (units : List (List UInt8)) : Option SpsUnit := units.reverse.findSome? readSps?

theorem readSps?_of_not_isSps (hn : isSps n = false) : readSps? n = none := by
  rw [readSps?, hn]
  rfl

theorem lastRead?_concat (units : List (List UInt8)) (n : List UInt8) :
    lastRead? (units ++ [n]) = (readSps? n).or (lastRead? units) := by
  rw [lastRead?, List.reverse_concat, List.findSome?_cons]
  cases readSps? n <;> rfl

theorem isSps_of_lastSps? {last : List UInt8} (h : lastSps? units = some last) :
    isSps last = true := List.find?_some h

/-- If each can be read, these are the same. -/
theorem lastRead?_eq (hread : ∀ n ∈ units, isSps n = true → ∃ v, readSps? n = some v) :
    lastRead? units = (lastSps? units).bind readSps? := by
  induction units using List.reverseRecOn with
  | nil => rfl
  | append_singleton units n ih =>
    have hunits := ih fun m hm => hread m (List.mem_append_left _ hm)
    rw [lastRead?_concat, lastSps?, List.reverse_concat, List.find?_cons]
    cases hn : isSps n with
    | true =>
      obtain ⟨v, hv⟩ := hread n (by simp) hn
      simp [hv]
    | false =>
      rw [readSps?_of_not_isSps hn]
      exact hunits

theorem lastRead?_eq_none (h : units.any isSps = false) : lastRead? units = none := by
  rw [lastRead?, List.findSome?_eq_none_iff]
  intro n hn
  apply readSps?_of_not_isSps
  exact Bool.eq_false_iff.mpr (List.any_eq_false.mp h n (List.mem_reverse.mp hn))

theorem exists_lastRead? (hread : ∀ n ∈ units, isSps n = true → ∃ v, readSps? n = some v)
    (h : units.any isSps = true) :
    ∃ last v, lastSps? units = some last ∧ readSps? last = some v ∧ lastRead? units = some v := by
  have hsome : (lastSps? units).isSome = true := by
    rw [lastSps?, List.find?_isSome]
    obtain ⟨n, hn, hsps⟩ := List.any_eq_true.mp h
    exact ⟨n, List.mem_reverse.mpr hn, hsps⟩
  obtain ⟨last, hlast⟩ := Option.isSome_iff_exists.mp hsome
  have hmem : last ∈ units := List.mem_reverse.mp (List.mem_of_find?_eq_some hlast)
  obtain ⟨v, hv⟩ := hread last hmem (isSps_of_lastSps? hlast)
  refine ⟨last, v, hlast, hv, ?_⟩
  rw [lastRead?_eq hread, hlast]
  exact hv

def kept : Replay → Option SpsUnit
  | .waiting high => high
  | .armed high => some high
  | .done => none

/-- Until the replay is over the last parameter set that could be read is kept. -/
theorem kept_replayAfter
    (h : replayAfter fixup true units (.waiting none) ≠ .done) :
    kept (replayAfter fixup true units (.waiting none)) =
      (lastRead? units).map (highOf fixup) := by
  induction units using List.reverseRecOn with
  | nil => rfl
  | append_singleton units n ih =>
    rw [replayAfter_append, replayAfter, replayAfter] at h ⊢
    rw [lastRead?_concat]
    cases hreplay : replayAfter fixup true units (.waiting none) with
    | waiting high =>
      have hkept : high = (lastRead? units).map (highOf fixup) := by
        have hbefore := ih (by rw [hreplay]; simp)
        rwa [hreplay] at hbefore
      cases hn : isSps n with
      | true =>
        rw [nextReplay_of_sps hn, hkept, if_pos rfl, ← Option.map_or]
        rfl
      | false =>
        rw [readSps?_of_not_isSps hn, Option.none_or, ← hkept]
        cases hpps : isPps n with
        | true =>
          rw [nextReplay_of_pps hn hpps]
          cases high <;> rfl
        | false =>
          rw [nextReplay_of_other hn hpps]
          rfl
    | armed high =>
      rw [hreplay] at h
      exact absurd rfl h
    | done =>
      rw [hreplay] at h
      exact absurd rfl h

end Histories

section Arming

/-- Whether the unit at an index is a picture parameter set behind a sequence parameter set. -/
def arms (units : List (List UInt8)) (i : Nat) : Bool :=
  units[i]?.any isPps && (units.take i).any isSps

/-- The first such index, or the number of units if there is none. -/
def armingIndex (units : List (List UInt8)) : Nat := (List.range units.length).findIdx (arms units)

theorem not_arms_of_lt {i : Nat} (h : i < armingIndex units) : arms units i = false := by
  have hfirst := List.not_of_lt_findIdx h
  simpa using hfirst

theorem armingIndex_le (units : List (List UInt8)) : armingIndex units ≤ units.length := by
  have hle : armingIndex units ≤ (List.range units.length).length := List.findIdx_le_length
  rwa [List.length_range] at hle

theorem arms_armingIndex (h : armingIndex units < units.length) :
    arms units (armingIndex units) = true := by
  have hlt : armingIndex units < (List.range units.length).length := by rwa [List.length_range]
  have hfound : arms units (List.range units.length)[armingIndex units] = true :=
    List.findIdx_getElem
  rwa [List.getElem_range] at hfound

theorem arms_eq {i : Nat} (hi : i < units.length) :
    arms units i = (isPps units[i] && (units.take i).any isSps) := by
  rw [arms, List.getElem?_eq_getElem hi]
  rfl

theorem replayAfter_take_succ {i : Nat} (hi : i < units.length) (replay : Replay) :
    replayAfter fixup enabled (units.take (i + 1)) replay =
      nextReplay fixup enabled units[i] (replayAfter fixup enabled (units.take i) replay) := by
  rw [List.take_succ_eq_append_getElem hi, replayAfter_append]
  rfl

/-- Up to that index parameter sets go out as Baseline. -/
theorem waiting_of_le_armingIndex {i : Nat} (hi : i ≤ armingIndex units) :
    replayAfter fixup true (units.take i) (.waiting none) =
      .waiting ((lastRead? (units.take i)).map (highOf fixup)) := by
  have hwaiting : ∃ high,
      replayAfter fixup true (units.take i) (.waiting none) = .waiting high := by
    induction i with
    | zero => exact ⟨none, rfl⟩
    | succ i ih =>
      have hlt : i < units.length := Nat.lt_of_lt_of_le hi (armingIndex_le units)
      obtain ⟨high, hhigh⟩ := ih (Nat.le_of_succ_le hi)
      rw [replayAfter_take_succ hlt, hhigh]
      cases hn : isSps units[i] with
      | true => exact ⟨_, nextReplay_of_sps hn high⟩
      | false =>
        cases hpps : isPps units[i] with
        | true =>
          -- No parameter set has been seen, so none is kept.
          have hnone := not_arms_of_lt hi
          rw [arms_eq hlt, hpps, Bool.true_and] at hnone
          have hkept := kept_replayAfter (by rw [hhigh]; simp)
          rw [hhigh, lastRead?_eq_none hnone] at hkept
          obtain rfl : high = none := hkept
          exact ⟨none, nextReplay_of_pps hn hpps none⟩
        | false => exact ⟨high, nextReplay_of_other hn hpps high⟩
  obtain ⟨high, hhigh⟩ := hwaiting
  have hkept := kept_replayAfter (by rw [hhigh]; simp)
  rw [hhigh] at hkept ⊢
  exact congrArg Replay.waiting hkept

/-- Behind it the last of them is next. -/
theorem armed_behind_armingIndex
    (hread : ∀ n ∈ units, isSps n = true → ∃ v, readSps? n = some v)
    (h : armingIndex units < units.length) :
    ∃ last v, lastSps? (units.take (armingIndex units)) = some last ∧ readSps? last = some v ∧
      replayAfter fixup true (units.take (armingIndex units + 1)) (.waiting none) =
        .armed (highOf fixup v) := by
  have harms := arms_armingIndex h
  rw [arms_eq h, Bool.and_eq_true] at harms
  obtain ⟨hpps, hsps⟩ := harms
  obtain ⟨last, v, hlast, hv, hfound⟩ :=
    exists_lastRead? (fun n hn => hread n (List.mem_of_mem_take hn)) hsps
  refine ⟨last, v, hlast, hv, ?_⟩
  rw [replayAfter_take_succ h, waiting_of_le_armingIndex (Nat.le_refl _), hfound,
    nextReplay_of_pps (not_isSps_of_isPps hpps) hpps]
  rfl

end Arming

section Outputs

/-- A sequence parameter set was read if something went out in its place. -/
theorem exists_readSps? {forced : Bool} {own : List UInt8} (h : Replaced fixup forced n own)
    (hn : isSps n = true) : ∃ v, readSps? n = some v := by
  cases h with
  | passed hother => rw [hn] at hother; cases hother
  | forced _ _ hw =>
    obtain ⟨v, hv, -⟩ := hw
    exact ⟨v, (readSps?_eq_some hn).mpr hv⟩
  | patched _ _ hw =>
    obtain ⟨v, hv, -⟩ := (Stream.exists_patchSps_iff fixup).mp (hw {} rfl)
    exact ⟨v, (readSps?_eq_some hn).mpr hv⟩

theorem setUp_start (fixup : SpsFixup) (enabled : Bool) :
    SetUp fixup enabled { fixup, replayEnabled := enabled } := ⟨rfl, rfl, rfl⟩

/-- Whether all units can be sent, each where the ones before it have left the replay. -/
def AllSendable (fixup : SpsFixup) (enabled : Bool) : List (List UInt8) → Replay → Prop
  | [], _ => True
  | n :: rest, replay =>
    Sendable fixup enabled n replay ∧
      AllSendable fixup enabled rest (nextReplay fixup enabled n replay)

/-- Which runs succeed is a matter of the units alone. -/
theorem exists_processAll_iff (hr : SetUp fixup enabled r) :
    (∃ outputs t, processAll units r = .ok outputs t) ↔
      AllSendable fixup enabled units r.replay := by
  induction units generalizing r with
  | nil => exact ⟨fun _ => trivial, fun _ => ⟨[], r, rfl⟩⟩
  | cons n units ih =>
    have hset := keeps_process n r hr
    have hreplay := replay_process (n := n) hr
    constructor
    · rintro ⟨outputs, t, h⟩
      obtain ⟨out, v, later, hout, hlater, -⟩ := processAll_cons_eq_ok.mp h
      rw [hout] at hset hreplay
      refine ⟨(exists_process_iff hr).mp ⟨out, v, hout⟩, ?_⟩
      rw [← hreplay]
      exact (ih hset).mp ⟨later, t, hlater⟩
    · rintro ⟨hn, hunits⟩
      obtain ⟨out, v, hout⟩ := (exists_process_iff hr).mpr hn
      rw [hout] at hset hreplay
      rw [← hreplay] at hunits
      obtain ⟨later, t, hlater⟩ := (ih hset).mpr hunits
      exact ⟨_, t, processAll_cons_eq_ok.mpr ⟨out, v, later, hout, hlater, rfl⟩⟩

/-- What each call of a run sends, by how far the replay has come. -/
theorem sent_of_processAll
    (h : processAll units { fixup, replayEnabled := enabled } = .ok outputs t) {i : Nat}
    {out : List (List UInt8)} (hn : units[i]? = some n) (hout : outputs[i]? = some out) :
    ∃ front own, out = front ++ [own] ∧
      InFront (replayAfter fixup enabled (units.take i) (.waiting none)) front ∧
      Replaced fixup
        (enabled && isWaiting (replayAfter fixup enabled (units.take i) (.waiting none)))
        n own := by
  obtain ⟨v, hcall⟩ := (process_of_processAll h).2 i n out hn hout
  have hset := setUp_after (setUp_start fixup enabled) (units.take i)
  have hsent := process_eq_ok hset hcall
  rwa [replay_after (setUp_start fixup enabled)] at hsent

theorem readable_of_processAll
    (h : processAll units { fixup, replayEnabled := enabled } = .ok outputs t) :
    ∀ n ∈ units, isSps n = true → ∃ v, readSps? n = some v := by
  intro n hn hsps
  obtain ⟨i, hi, rfl⟩ := List.getElem_of_mem hn
  have hlength := (process_of_processAll h).1
  obtain ⟨_, own, -, -, hown⟩ := sent_of_processAll h (List.getElem?_eq_getElem hi)
    (List.getElem?_eq_getElem (hlength.symm ▸ hi))
  exact exists_readSps? hown hsps

/-- What a call sends that follows an armed replay. Only the very next call sends the replay; if
that one fails, no later one does. -/
theorem sent_behind_armed (fixup : SpsFixup) (before later : List (List UInt8)) {high : SpsUnit}
    {out : List (List UInt8)}
    (harmed : (after before { fixup, replayEnabled := true }).replay = .armed high)
    (h : process n (after later (after before { fixup, replayEnabled := true })) = .ok out t) :
    ∃ last own, lastRead? before = some last ∧ high = highOf fixup last ∧
      Replaced fixup false n own ∧
      if later = [] then ∃ w, high.toNalUnit.encode {} {} = .ok w ∧ out = [w, own]
      else out = [own] := by
  have hbefore := setUp_after (setUp_start fixup true) before
  have hreplay := replay_after (setUp_start fixup true) before
  rw [harmed] at hreplay
  obtain ⟨last, hlast, hhigh⟩ :
      ∃ last, lastRead? before = some last ∧ highOf fixup last = high := by
    have hkept := kept_replayAfter (by rw [← hreplay]; simp)
    rw [← hreplay] at hkept
    exact Option.map_eq_some_iff.mp hkept.symm
  obtain ⟨front, own, rfl, hfront, hown⟩ := process_eq_ok (setUp_after hbefore later) h
  rw [replay_after hbefore, harmed] at hfront hown
  refine ⟨last, own, hlast, hhigh.symm, ?_⟩
  cases later with
  | nil =>
    obtain ⟨w, hw, rfl⟩ := hfront
    exact ⟨hown, w, hw, rfl⟩
  | cons m later =>
    rw [replayAfter_armed (List.cons_ne_nil m later)] at hfront hown
    obtain rfl : front = [] := hfront
    exact ⟨hown, rfl⟩

/-- A unit whose header is refused takes the replay with it. -/
theorem sent_behind_armed_refused :
    ∃ high, (after [[103, 66, 0, 10, 251, 136], [104, 206, 56, 128]]
        { replayEnabled := true }).replay = .armed high ∧
      (¬∃ out t, process [128, 0] (after [[103, 66, 0, 10, 251, 136], [104, 206, 56, 128]]
        { replayEnabled := true }) = .ok out t) ∧
      ∃ own t, process [9, 16] (after [[128, 0]]
        (after [[103, 66, 0, 10, 251, 136], [104, 206, 56, 128]] { replayEnabled := true })) =
          .ok [own] t := by
  have hbefore := setUp_after (setUp_start {} true)
    [[103, 66, 0, 10, 251, 136], [104, 206, 56, 128]]
  have harmed : (after [[103, 66, 0, 10, 251, 136], [104, 206, 56, 128]]
      { replayEnabled := true }).replay =
      .armed ⟨⟨3, .sps⟩, { profileIdc := 100, levelIdc := 10, sampleFormat := some {} }⟩ := by
    rw [replay_after (setUp_start {} true)]
    cbv
  refine ⟨_, harmed, ?_, ?_⟩
  · rw [exists_process_iff hbefore]
    rintro ⟨⟨header, hheader⟩, -, -⟩
    cases hheader
  · have hdone := replay_after hbefore [[128, 0]]
    rw [harmed, replayAfter_armed (List.cons_ne_nil _ _)] at hdone
    have hsendable : Sendable {} true [9, 16] .done := ⟨⟨_, rfl⟩, by simp, _, .passed rfl⟩
    rw [← hdone, ← exists_process_iff (setUp_after hbefore _)] at hsendable
    obtain ⟨out, t, h⟩ := hsendable
    obtain ⟨_, own, -, -, -, hown⟩ := sent_behind_armed {} _ [[128, 0]] harmed h
    rw [if_neg (List.cons_ne_nil _ _)] at hown
    exact ⟨own, t, hown ▸ h⟩

end Outputs

end SpsPatcher

end AvcSyntax

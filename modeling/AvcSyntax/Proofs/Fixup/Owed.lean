import AvcSyntax.Proofs.Fixup.Downstream

/-!
# Parameter sets that stay Baseline

Whoever was sent a sequence parameter set that was forced to Baseline is owed the one that it
stands for, under the same number. `ledger` tells of every unit that a run sends in which form it
goes out, and `Owed` tells which numbers are owed a parameter set.

Only the last parameter set is kept for the replay. The ones before it that have other numbers
stay owed until the stream itself repeats them.
-/
namespace AvcSyntax

namespace SpsPatcher

variable {fixup : SpsFixup} {enabled force : Bool} {r t : SpsPatcher} {n : List UInt8}
  {units : List (List UInt8)} {outputs : List (List (List UInt8))} {id : UInt8}

section Ledgers

inductive Sending where
  /-- A unit that is passed through as it is. -/
  | passed (n : List UInt8)
  /-- A parameter set that was forced to Baseline, or was not. -/
  | sps (forced : Bool) (u : SpsUnit)
  deriving DecidableEq, Repr

def Sending.bytes : Sending → Except NalError (List UInt8)
  | passed n => .ok n
  | sps _ u => u.toNalUnit.encode {} {}

def changed (fixup : SpsFixup) (force : Bool) (v : SpsUnit) : SpsUnit :=
  { v with sps :=
      if force then { fixup.apply v.sps with profileIdc := 66, sampleFormat := none }
      else fixup.apply v.sps }

theorem id_changed (v : SpsUnit) : (changed fixup force v).sps.id = v.sps.id := by
  cases force <;> rfl

def placed (fixup : SpsFixup) (force : Bool) (n : List UInt8) : Sending :=
  match readSps? n with
  | none => .passed n
  | some v => .sps force (changed fixup force v)

theorem placed_eq_sps {forced : Bool} {u : SpsUnit} :
    placed fixup force n = .sps forced u ↔
      force = forced ∧ ∃ v, readSps? n = some v ∧ changed fixup force v = u := by
  unfold placed
  cases readSps? n <;> simp

def replayed : Replay → List Sending
  | .armed high => [.sps false high]
  | _ => []

/-- All that goes out for some units in order, if each can be sent. -/
def ledger (fixup : SpsFixup) (enabled : Bool) : List (List UInt8) → Replay → List Sending
  | [], _ => []
  | n :: rest, replay =>
    replayed replay ++ placed fixup (enabled && isWaiting replay) n ::
      ledger fixup enabled rest (nextReplay fixup enabled n replay)

theorem bytes_placed {own : List UInt8} (h : Replaced fixup force n own) :
    (placed fixup force n).bytes = .ok own := by
  cases h with
  | passed hn =>
    rw [placed, readSps?_of_not_isSps hn]
    rfl
  | forced hn hforce hw =>
    obtain ⟨v, hv, hw⟩ := hw
    rw [placed, (readSps?_eq_some hn).mpr hv, hforce]
    exact hw
  | patched hn hforce hw =>
    obtain ⟨v, hv, hw⟩ := (Stream.exists_patchSps_iff fixup).mp (hw {} rfl)
    rw [placed, (readSps?_eq_some hn).mpr hv, hforce]
    exact hw

theorem bytes_replayed {replay : Replay} {front : List (List UInt8)} (h : InFront replay front) :
    List.Forall₂ (fun sending w => sending.bytes = .ok w) (replayed replay) front := by
  cases replay with
  | armed high =>
    obtain ⟨w, hw, rfl⟩ := h
    exact .cons hw .nil
  | waiting high =>
    obtain rfl : front = [] := h
    exact .nil
  | done =>
    obtain rfl : front = [] := h
    exact .nil

/-- A run in which no call fails sends what its ledger says. -/
theorem ledger_of_processAll (hr : SetUp fixup enabled r)
    (h : processAll units r = .ok outputs t) :
    List.Forall₂ (fun sending w => sending.bytes = .ok w)
      (ledger fixup enabled units r.replay) outputs.flatten := by
  induction units generalizing r outputs with
  | nil =>
    cases h
    exact .nil
  | cons n units ih =>
    have hset := keeps_process n r hr
    have hreplay := replay_process (n := n) hr
    obtain ⟨out, u, later, hout, hlater, rfl⟩ := processAll_cons_eq_ok.mp h
    rw [hout] at hset hreplay
    obtain ⟨front, own, rfl, hfront, hown⟩ := process_eq_ok hr hout
    have hrest := ih hset hlater
    rw [hreplay] at hrest
    rw [ledger, List.flatten_cons, List.append_assoc, List.singleton_append]
    exact List.rel_append (bytes_replayed hfront) (.cons (bytes_placed hown) hrest)

/-- Such a run ends where its units lead. -/
theorem after_of_processAll (h : processAll units r = .ok outputs t) : after units r = t := by
  induction units generalizing r outputs with
  | nil =>
    cases h
    rfl
  | cons n units ih =>
    obtain ⟨out, u, later, hout, hlater, rfl⟩ := processAll_cons_eq_ok.mp h
    rw [after, hout]
    exact ih hlater

end Ledgers

section Forms

theorem ledger_append (units later : List (List UInt8)) (replay : Replay) :
    ledger fixup enabled (units ++ later) replay =
      ledger fixup enabled units replay ++
        ledger fixup enabled later (replayAfter fixup enabled units replay) := by
  induction units generalizing replay with
  | nil => rfl
  | cons n units ih =>
    rw [List.cons_append, ledger, ih, ledger, replayAfter, List.append_assoc, List.cons_append]

theorem ledger_done (units : List (List UInt8)) :
    ledger fixup enabled units .done = units.map (placed fixup false) := by
  induction units with
  | nil => rfl
  | cons n units ih =>
    have hforce : (enabled && isWaiting .done) = false := Bool.and_false enabled
    rw [ledger, hforce, List.map_cons, ← ih]
    rfl

theorem ledger_armed (h : units ≠ []) (high : SpsUnit) :
    ledger fixup enabled units (.armed high) =
      .sps false high :: units.map (placed fixup false) := by
  cases units with
  | nil => exact absurd rfl h
  | cons n units =>
    have hforce : (enabled && isWaiting (.armed high)) = false := Bool.and_false enabled
    rw [ledger, hforce, List.map_cons, ← ledger_done]
    rfl

/-- Up to the unit that arms the replay all parameter sets are forced. -/
theorem ledger_take {i : Nat} (hi : i ≤ armingIndex units + 1) (hlength : i ≤ units.length) :
    ledger fixup true (units.take i) (.waiting none) =
      (units.take i).map (placed fixup true) := by
  induction i with
  | zero => rfl
  | succ i ih =>
    rw [List.take_succ_eq_append_getElem hlength, ledger_append, List.map_append,
      ih (Nat.le_of_succ_le hi) (Nat.le_of_succ_le hlength),
      waiting_of_le_armingIndex (Nat.le_of_succ_le_succ hi)]
    rfl

/-- Behind it none is, and the first that goes out is the replay. -/
theorem exists_ledger_eq (fixup : SpsFixup)
    (hread : ∀ n ∈ units, isSps n = true → ∃ v, readSps? n = some v)
    (h : armingIndex units + 1 < units.length) :
    ∃ last, lastRead? (units.take (armingIndex units)) = some last ∧
      ledger fixup true units (.waiting none) =
        (units.take (armingIndex units + 1)).map (placed fixup true) ++
          .sps false (highOf fixup last) ::
            (units.drop (armingIndex units + 1)).map (placed fixup false) := by
  obtain ⟨n, last, hn, hlast, harmed⟩ :=
    @armed_behind_armingIndex fixup units hread (Nat.lt_of_succ_lt h)
  have hfound : lastRead? (units.take (armingIndex units)) = some last := by
    rw [lastRead?_eq fun n hn => hread n (List.mem_of_mem_take hn), hn]
    exact hlast
  have hrest : units.drop (armingIndex units + 1) ≠ [] := by
    rw [ne_eq, List.drop_eq_nil_iff]
    exact Nat.not_le.mpr h
  refine ⟨last, hfound, ?_⟩
  calc ledger fixup true units (.waiting none)
      = ledger fixup true
          (units.take (armingIndex units + 1) ++ units.drop (armingIndex units + 1))
          (.waiting none) := by rw [List.take_append_drop]
    _ = _ := by
      rw [ledger_append, ledger_take (Nat.le_refl _) (Nat.le_of_lt h), harmed,
        ledger_armed hrest]

/-- A replay that is over was sent in front of a unit of the run. -/
theorem armingIndex_lt_of_done (h : replayAfter fixup true units (.waiting none) = .done)
    (hread : ∀ n ∈ units, isSps n = true → ∃ v, readSps? n = some v) :
    armingIndex units + 1 < units.length := by
  rcases Nat.lt_or_ge (armingIndex units + 1) units.length with hlt | hge
  · exact hlt
  · have hwhole : units.take (armingIndex units + 1) = units := List.take_of_length_le hge
    rcases Nat.lt_or_eq_of_le (armingIndex_le units) with hlt | heq
    · obtain ⟨n, last, -, -, harmed⟩ := @armed_behind_armingIndex fixup units hread hlt
      rw [hwhole, h] at harmed
      cases harmed
    · have hwaiting := @waiting_of_le_armingIndex fixup units _ (Nat.le_refl _)
      rw [List.take_of_length_le heq.ge, h] at hwaiting
      cases hwaiting

end Forms

section Debts

/-- Whether a parameter set went out under a number, forced to Baseline or not. -/
def Sent (forced : Bool) (sendings : List Sending) (id : UInt8) : Prop :=
  ∃ u, .sps forced u ∈ sendings ∧ u.sps.id = id

/-- Whether a parameter set went out under a number forced to Baseline, and none that was not
has gone out under it since. -/
def Owed (sendings : List Sending) (id : UInt8) : Prop :=
  ∃ before u later, sendings = before ++ .sps true u :: later ∧ u.sps.id = id ∧
    ¬Sent false later id

def readIds (units : List (List UInt8)) : List UInt8 :=
  units.filterMap fun n => (readSps? n).map (·.sps.id)

variable {forced : Bool}

theorem sent_append {first second : List Sending} :
    Sent forced (first ++ second) id ↔ Sent forced first id ∨ Sent forced second id := by
  simp only [Sent, List.mem_append, or_and_right, exists_or]

theorem sent_cons {u : SpsUnit} {later : List Sending} :
    Sent forced (.sps force u :: later) id ↔
      force = forced ∧ u.sps.id = id ∨ Sent forced later id := by
  constructor
  · intro h
    obtain ⟨v, hv, hid⟩ := h
    rcases List.mem_cons.mp hv with heq | hv
    · obtain ⟨rfl, rfl⟩ := Sending.sps.inj heq
      exact .inl ⟨rfl, hid⟩
    · exact .inr ⟨v, hv, hid⟩
  · intro h
    rcases h with ⟨rfl, hid⟩ | ⟨v, hv, hid⟩
    · exact ⟨u, List.mem_cons_self, hid⟩
    · exact ⟨v, List.mem_cons_of_mem _ hv, hid⟩

/-- Units that are placed in one form go out under the numbers that can be read. -/
theorem sent_placed :
    Sent forced (units.map (placed fixup force)) id ↔ force = forced ∧ id ∈ readIds units := by
  simp only [readIds, List.mem_filterMap, Option.map_eq_some_iff]
  constructor
  · intro h
    obtain ⟨u, hu, hid⟩ := h
    obtain ⟨n, hn, hplaced⟩ := List.mem_map.mp hu
    obtain ⟨hforced, v, hv, rfl⟩ := placed_eq_sps.mp hplaced
    exact ⟨hforced, n, hn, v, hv, (id_changed v).symm.trans hid⟩
  · intro h
    obtain ⟨hforced, n, hn, v, hv, hid⟩ := h
    have hplaced : placed fixup force n = .sps forced (changed fixup force v) :=
      placed_eq_sps.mpr ⟨hforced, v, hv, rfl⟩
    exact ⟨_, List.mem_map.mpr ⟨n, hn, hplaced⟩, (id_changed v).trans hid⟩

theorem not_sent_placed (h : force ≠ forced) :
    ¬Sent forced (units.map (placed fixup force)) id := fun hsent => h (sent_placed.mp hsent).1

/-- If those that are forced come first, what follows them settles what is owed. -/
theorem owed_append {first second : List Sending} (hfirst : ¬Sent false first id)
    (hsecond : ¬Sent true second id) :
    Owed (first ++ second) id ↔ Sent true first id ∧ ¬Sent false second id := by
  constructor
  · intro h
    obtain ⟨before, u, later, hsplit, hid, hlater⟩ := h
    -- The forced one is not in `second`, so the list is split within `first`.
    rcases List.append_eq_append_iff.mp hsplit with ⟨between, -, h⟩ | ⟨between, rfl, h⟩
    · have hu : .sps true u ∈ second := h ▸ List.mem_append_right _ List.mem_cons_self
      exact absurd ⟨u, hu, hid⟩ hsecond
    · cases between with
      | nil =>
        have hu : .sps true u ∈ [] ++ second := h ▸ List.mem_cons_self
        exact absurd ⟨u, hu, hid⟩ hsecond
      | cons sending between =>
        obtain ⟨rfl, rfl⟩ := List.cons_eq_cons.mp h
        exact ⟨⟨u, by simp, hid⟩, fun hsent => hlater (sent_append.mpr (.inr hsent))⟩
  · intro h
    obtain ⟨⟨u, hu, hid⟩, hlater⟩ := h
    obtain ⟨before, between, rfl⟩ := List.append_of_mem hu
    refine ⟨before, u, between ++ second, by simp, hid, ?_⟩
    intro hsent
    rcases sent_append.mp hsent with hbetween | hbehind
    · exact hfirst (sent_append.mpr (.inr (sent_cons.mpr (.inr hbetween))))
    · exact hlater hbehind

/-- The unit that arms the replay has no number. -/
theorem readIds_take (h : armingIndex units < units.length) :
    readIds (units.take (armingIndex units + 1)) = readIds (units.take (armingIndex units)) := by
  have harms := arms_armingIndex h
  rw [arms_eq h, Bool.and_eq_true] at harms
  have hnone := readSps?_of_not_isSps (not_isSps_of_isPps harms.1)
  rw [readIds, List.take_succ_eq_append_getElem h, List.filterMap_append]
  simp [hnone, readIds]

/-- What is owed once the replay was sent, in a run in which no call fails. It is all that was
forced to Baseline but the parameter set that was replayed, and those whose numbers the stream
has repeated since. -/
theorem owed_iff_of_processAll (fixup : SpsFixup) (units : List (List UInt8))
    (h : processAll units { fixup, replayEnabled := true } = .ok outputs t)
    (hdone : t.replay = .done) :
    List.Forall₂ (fun sending w => sending.bytes = .ok w)
        (ledger fixup true units (.waiting none)) outputs.flatten ∧
      ∃ last, lastRead? (units.take (armingIndex units)) = some last ∧
        ∀ id, Owed (ledger fixup true units (.waiting none)) id ↔
          id ∈ readIds (units.take (armingIndex units)) ∧ id ≠ last.sps.id ∧
            id ∉ readIds (units.drop (armingIndex units + 1)) := by
  have hset := setUp_start fixup true
  have hread := readable_of_processAll h
  have hreplay := replay_after hset units
  rw [after_of_processAll h, hdone] at hreplay
  have hlt := armingIndex_lt_of_done hreplay.symm hread
  obtain ⟨last, hlast, hledger⟩ := exists_ledger_eq fixup hread hlt
  refine ⟨ledger_of_processAll hset h, last, hlast, ?_⟩
  intro id
  have hid : (highOf fixup last).sps.id = last.sps.id := rfl
  have hbehind : ¬Sent true (.sps false (highOf fixup last) ::
      (units.drop (armingIndex units + 1)).map (placed fixup false)) id := by
    rw [sent_cons]
    simp only [Bool.false_eq_true, false_and, false_or]
    exact not_sent_placed (by decide)
  rw [hledger, owed_append (not_sent_placed (by decide)) hbehind, sent_placed, sent_cons,
    sent_placed, hid, readIds_take (Nat.lt_of_succ_lt hlt)]
  simp only [true_and, not_or, ne_eq, eq_comm]

/-- Two High parameter sets with different numbers. The first one stays Baseline. -/
theorem owed_iff_of_processAll_first :
    let units : List (List UInt8) := [[103, 100, 0, 10, 172, 247, 16],
      [103, 100, 0, 10, 75, 61, 196], [104, 206, 56, 128], [9, 16]]
    ∃ outputs t, processAll units { replayEnabled := true } = .ok outputs t ∧
      t.replay = .done ∧ Owed (ledger {} true units (.waiting none)) 0 := by
  intro units
  have hfirst : readSps? [103, 100, 0, 10, 172, 247, 16] = some
      ⟨⟨3, .sps⟩, { profileIdc := 100, levelIdc := 10, sampleFormat := some {} }⟩ :=
    (readSps?_eq_some rfl).mpr (by cbv)
  have hsecond : readSps? [103, 100, 0, 10, 75, 61, 196] = some
      ⟨⟨3, .sps⟩, { profileIdc := 100, levelIdc := 10, id := 1, sampleFormat := some {} }⟩ :=
    (readSps?_eq_some rfl).mpr (by cbv)
  have hother : isSps [104, 206, 56, 128] = false ∧ isSps [9, 16] = false := ⟨rfl, rfl⟩
  have hunits : ∀ n ∈ units, Presentable n := by
    simp only [units, List.forall_mem_cons]
    exact ⟨⟨⟨_, rfl⟩, fun _ => ⟨_, hfirst⟩⟩, ⟨⟨_, rfl⟩, fun _ => ⟨_, hsecond⟩⟩,
      ⟨⟨_, rfl⟩, by simp [hother.1]⟩, ⟨⟨_, rfl⟩, by simp [hother.2]⟩, by simp⟩
  have hframes : ∀ n ∈ ({} : SpsFixup).maxNumRefFrames, n.toNat ≤ 16 := by simp
  obtain ⟨outputs, t, hrun⟩ := exists_processAll_of_presentable hframes true hunits
  have hdone : t.replay = .done := by
    rw [← after_of_processAll hrun, replay_after (setUp_start {} true)]
    cbv
  obtain ⟨-, last, hlast, howed⟩ := owed_iff_of_processAll {} units hrun hdone
  have hindex : armingIndex units = 2 := by cbv
  have hread : readIds (units.take 2) = [0, 1] := by simp [units, readIds, hfirst, hsecond]
  have hlater : readIds (units.drop 3) = [] := by
    simp [units, readIds, readSps?_of_not_isSps hother.2]
  rw [hindex] at hlast howed
  simp only [units, lastRead?, List.take_succ_cons, List.take_zero, List.reverse_cons,
    List.reverse_nil, List.nil_append, List.cons_append, List.findSome?_cons, hsecond,
    Option.some.injEq] at hlast
  rw [hread, hlater, ← hlast] at howed
  exact ⟨outputs, t, hrun, hdone, (howed 0).mpr (by decide)⟩

end Debts

end SpsPatcher

end AvcSyntax

import AvcSyntax.Proofs.Fixup.Patching

/-!
# Single calls of a patcher

A call of a patcher first sends the replay, if one is armed, and then what takes the place of its
own unit. `nextReplay` is how far the replay has come after a call. It depends on the unit alone
and not on whether the call fails. `Replaced` and `InFront` say what a call sends if it succeeds,
and `Sendable` says when it does.
-/
namespace AvcSyntax

/-- The state that an action ends in, whether or not it fails. -/
def stateOf {ε σ α : Type} : EStateM.Result ε σ α → σ
  | .ok _ s => s
  | .error _ s => s

/-- Whether an action keeps a property of its state, whether or not it fails. -/
def Keeps {ε σ α : Type} (I : σ → Prop) (p : EStateM ε σ α) : Prop := ∀ s, I s → I (stateOf (p s))

section Keeping

variable {ε σ α β : Type} {I : σ → Prop} {p : EStateM ε σ α} {f : α → EStateM ε σ β}

theorem Keeps.pure (a : α) : Keeps I (Pure.pure a : EStateM ε σ α) := fun _ h => h

theorem Keeps.bind (hp : Keeps I p) (hf : ∀ a, Keeps I (f a)) : Keeps I (p >>= f) := by
  intro s hs
  have hps := hp s hs
  simp only [Bind.bind, EStateM.bind]
  cases hresult : p s with
  | ok a t =>
    rw [hresult] at hps
    exact hf a t hps
  | error e t =>
    rw [hresult] at hps
    exact hps

theorem Keeps.get {f : σ → EStateM ε σ β} (hf : ∀ s, Keeps I (f s)) :
    Keeps I (MonadState.get >>= f) := fun s hs => hf s s hs

theorem Keeps.modify {g : σ → σ} (hg : ∀ s, I s → I (g s)) :
    Keeps I (modify g : EStateM ε σ PUnit) := hg

theorem Keeps.liftExcept (x : Except ε α) : Keeps I (liftM x : EStateM ε σ α) := by
  intro s hs
  cases x <;> exact hs

end Keeping

namespace Stream

/-- Nothing that a stream does changes its settings. -/
theorem keeps_config_storeSps (config : StreamConfig) (sps : Sps) :
    Keeps (fun s : Stream => s.config = config) (storeSps sps) := by
  refine Keeps.get fun s => Keeps.bind (Keeps.liftExcept _) fun sets => ?_
  exact Keeps.modify fun s hs => hs

theorem keeps_config_readUnit (config : StreamConfig) (n : List UInt8) :
    Keeps (fun s : Stream => s.config = config) (readUnit n) := by
  intro s hs
  cases h : readUnit n s with
  | ok u t =>
    obtain ⟨-, later, -, rfl⟩ := readUnit_eq_ok.mp h
    exact hs
  | error e t =>
    obtain rfl := readUnit_error h
    exact hs

theorem keeps_config_replaceSps (config : StreamConfig) (v : SpsUnit) :
    Keeps (fun s : Stream => s.config = config) (replaceSps v) := by
  refine Keeps.bind (keeps_config_storeSps config v.sps) fun _ => ?_
  exact Keeps.get fun s => Keeps.liftExcept _

theorem keeps_config_patchSps (config : StreamConfig) (fixup : SpsFixup) (n : List UInt8) :
    Keeps (fun s : Stream => s.config = config) (patchSps fixup n) := by
  refine Keeps.bind (keeps_config_readUnit config n) fun u => ?_
  exact Keeps.bind (Keeps.liftExcept _) fun v => keeps_config_replaceSps config _

end Stream

namespace SpsPatcher

structure SetUp (fixup : SpsFixup) (enabled : Bool) (r : SpsPatcher) : Prop where
  fixup : r.fixup = fixup
  enabled : r.replayEnabled = enabled
  config : r.stream.config = {}

variable {fixup : SpsFixup} {enabled : Bool} {r t : SpsPatcher} {n : List UInt8}

section Steps

/-- What a call does once the replay is out of the way. -/
def sendOwn (bytes : List UInt8) : Action (List UInt8) := do
  let header ← NalHeader.peek bytes
  match header.unitType with
  | .sps => sendSps bytes
  | .pps => do
    notePps
    return bytes
  | _ => return bytes

theorem process_eq (bytes : List UInt8) :
    process bytes = do
      let front ← emitReplay
      let own ← sendOwn bytes
      return front ++ [own] := by
  unfold process
  congr
  funext front
  rw [sendOwn, bind_assoc]
  congr
  funext header
  cases header.unitType <;> simp

theorem keeps_onStream {α : Type} {p : Session α}
    (hp : Keeps (fun s : Stream => s.config = {}) p) :
    Keeps (SetUp fixup enabled) (onStream p) := by
  intro r hr
  have hstream := hp r.stream hr.config
  unfold onStream
  cases hresult : p r.stream with
  | ok a s =>
    rw [hresult] at hstream
    exact ⟨hr.fixup, hr.enabled, hstream⟩
  | error e s =>
    rw [hresult] at hstream
    exact ⟨hr.fixup, hr.enabled, hstream⟩

theorem keeps_emitReplay : Keeps (SetUp fixup enabled) emitReplay := by
  refine Keeps.get fun r => ?_
  cases r.replay with
  | armed high =>
    refine Keeps.bind (Keeps.modify fun r hr => ⟨hr.fixup, hr.enabled, hr.config⟩) fun _ => ?_
    refine Keeps.bind (keeps_onStream (Stream.keeps_config_replaceSps _ high)) fun w => ?_
    exact Keeps.pure _
  | waiting high => exact Keeps.pure _
  | done => exact Keeps.pure _

theorem keeps_sendAsBaseline (n : List UInt8) :
    Keeps (SetUp fixup enabled) (sendAsBaseline n) := by
  refine Keeps.bind (keeps_onStream (Stream.keeps_config_readUnit _ n)) fun u => ?_
  refine Keeps.bind (Keeps.liftExcept _) fun v => Keeps.get fun r => ?_
  refine Keeps.bind (Keeps.modify fun r hr => ⟨hr.fixup, hr.enabled, hr.config⟩) fun _ => ?_
  exact keeps_onStream (Stream.keeps_config_replaceSps _ _)

theorem keeps_sendSps (n : List UInt8) : Keeps (SetUp fixup enabled) (sendSps n) := by
  refine Keeps.get fun r => ?_
  split
  · exact keeps_sendAsBaseline n
  · exact keeps_onStream (Stream.keeps_config_patchSps _ _ n)

theorem keeps_notePps : Keeps (SetUp fixup enabled) notePps := by
  refine Keeps.get fun r => ?_
  split
  · exact Keeps.modify fun r hr => ⟨hr.fixup, hr.enabled, hr.config⟩
  · exact Keeps.pure _

theorem keeps_sendOwn (n : List UInt8) : Keeps (SetUp fixup enabled) (sendOwn n) := by
  refine Keeps.bind (Keeps.liftExcept _) fun header => ?_
  split
  · exact keeps_sendSps n
  · exact Keeps.bind keeps_notePps fun _ => Keeps.pure n
  · exact Keeps.pure n

theorem keeps_process (n : List UInt8) : Keeps (SetUp fixup enabled) (process n) := by
  rw [process_eq]
  refine Keeps.bind keeps_emitReplay fun front => ?_
  exact Keeps.bind (keeps_sendOwn n) fun own => Keeps.pure _

end Steps

section Replays

/-- A parameter set as it is replayed: in the High profile, with the default format if it has
none. -/
def highOf (fixup : SpsFixup) (v : SpsUnit) : SpsUnit :=
  { v with sps := { fixup.apply v.sps with
    profileIdc := 100
    sampleFormat := some ((fixup.apply v.sps).sampleFormat.getD {}) } }

/-- The sequence parameter set that a unit holds, if it can be read. -/
def readSps? (n : List UInt8) : Option SpsUnit :=
  if isSps n then
    match NalUnit.decode {} {} n with
    | .ok u => u.expectSps.toOption
    | .error _ => none
  else none

theorem readSps?_eq_some {v : SpsUnit} (hn : isSps n = true) :
    readSps? n = some v ↔ NalUnit.decode {} {} n = .ok v.toNalUnit := by
  rw [readSps?, if_pos hn]
  cases NalUnit.decode {} {} n with
  | error e => simp
  | ok u =>
    have hexpect : u.expectSps.toOption = some v ↔ u.expectSps = .ok v := by
      cases u.expectSps <;> simp [Except.toOption]
    rw [hexpect, expectSps_eq_ok, Except.ok.injEq]

/-- Whether parameter sets still go out as Baseline. -/
def isWaiting : Replay → Bool
  | .waiting _ => true
  | _ => false

/-- How far the replay has come after a call with the unit `n`. -/
def nextReplay (fixup : SpsFixup) (enabled : Bool) (n : List UInt8) : Replay → Replay
  | .waiting high =>
    if isSps n then
      .waiting (if enabled then ((readSps? n).map (highOf fixup)).or high else high)
    else if isPps n then
      match high with
      | some v => .armed v
      | none => .waiting none
    else .waiting high
  | .armed _ | .done => .done

theorem nextReplay_of_sps (hn : isSps n = true) (high : Option SpsUnit) :
    nextReplay fixup enabled n (.waiting high) =
      .waiting (if enabled then ((readSps? n).map (highOf fixup)).or high else high) := if_pos hn

theorem nextReplay_of_pps (hn : isSps n = false) (hpps : isPps n = true)
    (high : Option SpsUnit) :
    nextReplay fixup enabled n (.waiting high) =
      match high with
      | some v => .armed v
      | none => .waiting none := by
  simp only [nextReplay, hn, hpps, if_true]
  rfl

theorem nextReplay_of_other (hn : isSps n = false) (hpps : isPps n = false)
    (high : Option SpsUnit) : nextReplay fixup enabled n (.waiting high) = .waiting high := by
  simp only [nextReplay, hn, hpps]
  rfl

theorem onStream_eq_ok {α : Type} {p : Session α} {a : α} :
    onStream p r = .ok a t ↔ ∃ s, p r.stream = .ok a s ∧ t = { r with stream := s } := by
  unfold onStream
  cases p r.stream with
  | ok b s => simp [eq_comm]
  | error e s => simp

theorem replay_onStream {α : Type} (p : Session α) (r : SpsPatcher) :
    (stateOf (onStream p r)).replay = r.replay := by
  unfold onStream
  cases p r.stream <;> rfl

/-- A unit that cannot be read leaves no trace in the replay. -/
theorem sendAsBaseline_unread (hr : SetUp fixup enabled r) (hn : isSps n = true)
    (hunread : readSps? n = none) :
    ∃ e s, sendAsBaseline n r = .error e { r with stream := s } := by
  cases hs : Stream.readUnit n r.stream with
  | error e s =>
    have hread : onStream (Stream.readUnit n) r = .error e { r with stream := s } := by
      rw [onStream, hs]
    exact ⟨e, s, bind_of_error hread⟩
  | ok u s =>
    have hread : onStream (Stream.readUnit n) r = .ok u { r with stream := s } := by
      rw [onStream, hs]
    cases hv : u.expectSps with
    | error e =>
      refine ⟨e, s, ?_⟩
      rw [sendAsBaseline, bind_of_ok hread, hv]
      rfl
    | ok v =>
      obtain rfl := expectSps_eq_ok.mp hv
      have hdecode := (Stream.decode_of_readUnit hs).1
      rw [hr.config] at hdecode
      rw [(readSps?_eq_some hn).mpr hdecode] at hunread
      cases hunread

/-- Of one that can be read all that matters is kept before anything else can fail. -/
theorem sendAsBaseline_read (hr : SetUp fixup enabled r) (hn : isSps n = true) {v : SpsUnit}
    (hv : readSps? n = some v) :
    ∃ s, Stream.readUnit n r.stream = .ok v.toNalUnit s ∧ sendAsBaseline n r =
      onStream (Stream.replaceSps { v with sps := (fixup.apply v.sps).toBaseline })
        { r with stream := s, replay := .waiting (some (highOf fixup v)) } := by
  have hdecode := (readSps?_eq_some hn).mp hv
  rw [← hr.config] at hdecode
  obtain ⟨s, hs, -⟩ := Stream.readUnit_sps hdecode
  have hread : onStream (Stream.readUnit n) r = .ok v.toNalUnit { r with stream := s } := by
    rw [onStream, hs]
  have hexpect : (liftM v.toNalUnit.expectSps : Action SpsUnit) { r with stream := s } =
      .ok v { r with stream := s } := liftM_eq_ok.mpr ⟨expectSps_eq_ok.mpr rfl, rfl⟩
  refine ⟨s, hs, ?_⟩
  rw [sendAsBaseline, bind_of_ok hread, bind_of_ok hexpect, get_bind, ← hr.fixup]
  rfl

theorem replay_sendAsBaseline (hr : SetUp fixup enabled r) (hn : isSps n = true)
    {high : Option SpsUnit} (hreplay : r.replay = .waiting high) :
    (stateOf (sendAsBaseline n r)).replay =
      .waiting (((readSps? n).map (highOf fixup)).or high) := by
  cases hv : readSps? n with
  | none =>
    obtain ⟨e, s, herror⟩ := sendAsBaseline_unread hr hn hv
    rw [herror]
    exact hreplay
  | some v =>
    obtain ⟨s, -, hsend⟩ := sendAsBaseline_read hr hn hv
    rw [hsend]
    exact replay_onStream _ _

def noted : Replay → Replay
  | .waiting (some high) => .armed high
  | replay => replay

theorem notePps_eq (r : SpsPatcher) : notePps r = .ok () { r with replay := noted r.replay } := by
  obtain ⟨stream, fixup, enabled, replay⟩ := r
  rw [notePps, get_bind]
  cases replay with
  | waiting high => cases high <;> rfl
  | armed high => rfl
  | done => rfl

theorem sendOwn_cases (n : List UInt8) (r : SpsPatcher) :
    (isSps n = true ∧ sendOwn n r = sendSps n r) ∨
      (isSps n = false ∧ isPps n = true ∧
        sendOwn n r = .ok n { r with replay := noted r.replay }) ∨
      (isSps n = false ∧ isPps n = false ∧
        (sendOwn n r = .ok n r ∨
          ∃ e, NalHeader.peek n = .error e ∧ sendOwn n r = .error e r)) := by
  cases hpeek : NalHeader.peek n with
  | error e =>
    rw [isSps, isPps, hasType, hasType, sendOwn, hpeek]
    exact .inr (.inr ⟨rfl, rfl, .inr ⟨e, rfl, rfl⟩⟩)
  | ok header =>
    rw [isSps, isPps, hasType_of_peek hpeek, hasType_of_peek hpeek, sendOwn, hpeek]
    have hheader : (liftM (Except.ok header : Except NalError NalHeader) : Action NalHeader) r =
        .ok header r := rfl
    rw [bind_of_ok hheader]
    cases htype : header.unitType with
    | sps => exact .inl ⟨rfl, rfl⟩
    | pps => exact .inr (.inl ⟨rfl, rfl, bind_of_ok (notePps_eq r)⟩)
    | _ => exact .inr (.inr ⟨rfl, rfl, .inl rfl⟩)

theorem sendSps_eq (n : List UInt8) (r : SpsPatcher) :
    sendSps n r =
      if r.replayEnabled && isWaiting r.replay then sendAsBaseline n r
      else onStream (Stream.patchSps r.fixup n) r := by
  rw [sendSps, get_bind]
  cases r.replayEnabled <;> cases r.replay <;> rfl

/-- What becomes of the replay once the one that may be armed is out of the way. -/
theorem replay_sendOwn (hr : SetUp fixup enabled r) (harmed : ∀ high, r.replay ≠ .armed high) :
    (stateOf (sendOwn n r)).replay = nextReplay fixup enabled n r.replay := by
  rcases sendOwn_cases n r with ⟨hn, hsend⟩ | ⟨hn, hpps, hsend⟩ | ⟨hn, hpps, hsend⟩
  · rw [hsend, sendSps_eq, hr.enabled]
    cases hreplay : r.replay with
    | waiting high =>
      rw [nextReplay_of_sps hn]
      cases enabled with
      | true => exact replay_sendAsBaseline hr hn hreplay
      | false => exact (replay_onStream _ r).trans hreplay
    | armed high => exact absurd hreplay (harmed high)
    | done =>
      have hwaiting : isWaiting .done = false := rfl
      rw [hwaiting, Bool.and_false]
      exact (replay_onStream _ r).trans hreplay
  · rw [hsend, stateOf]
    cases hreplay : r.replay with
    | waiting high =>
      rw [nextReplay_of_pps hn hpps]
      cases high <;> rfl
    | armed high => exact absurd hreplay (harmed high)
    | done => rfl
  · have hkept : (stateOf (sendOwn n r)).replay = r.replay := by
      rcases hsend with hsend | ⟨e, -, hsend⟩ <;> rw [hsend] <;> rfl
    rw [hkept]
    cases hreplay : r.replay with
    | waiting high => rw [nextReplay_of_other hn hpps]
    | armed high => exact absurd hreplay (harmed high)
    | done => rfl

/-- The replay is over before it is known whether it can be sent. -/
theorem emitReplay_armed {high : SpsUnit} (h : r.replay = .armed high) :
    emitReplay r =
      match Stream.replaceSps high r.stream with
      | .ok w s => .ok [w] { r with stream := s, replay := .done }
      | .error e s => .error e { r with stream := s, replay := .done } := by
  have hdone : (onStream (Stream.replaceSps high) >>= fun w => Pure.pure [w] :
      Action (List (List UInt8))) { r with replay := .done } =
      match Stream.replaceSps high r.stream with
      | .ok w s => .ok [w] { r with stream := s, replay := .done }
      | .error e s => .error e { r with stream := s, replay := .done } := by
    simp only [bind, EStateM.bind, onStream]
    cases Stream.replaceSps high r.stream <;> rfl
  rw [emitReplay, get_bind, h]
  exact hdone

theorem emitReplay_other (h : ∀ high, r.replay ≠ .armed high) : emitReplay r = .ok [] r := by
  rw [emitReplay, get_bind]
  cases hreplay : r.replay with
  | armed high => exact absurd hreplay (h high)
  | _ => rfl

theorem replay_process (hr : SetUp fixup enabled r) :
    (stateOf (process n r)).replay = nextReplay fixup enabled n r.replay := by
  have hown : ∀ {v : SpsPatcher} (front : List (List UInt8)), SetUp fixup enabled v →
      (∀ high, v.replay ≠ .armed high) →
      (stateOf ((do let own ← sendOwn n; return front ++ [own] : Action _) v)).replay =
        nextReplay fixup enabled n v.replay := by
    intro v front hv harmed
    rw [← replay_sendOwn hv harmed]
    simp only [bind, EStateM.bind]
    cases sendOwn n v <;> rfl
  rw [process_eq]
  by_cases harmed : ∃ high, r.replay = .armed high
  · obtain ⟨high, hhigh⟩ := harmed
    have hset := keeps_emitReplay r hr
    rw [hhigh]
    cases hsent : Stream.replaceSps high r.stream with
    | ok w s =>
      have hemit : emitReplay r = .ok [w] { r with stream := s, replay := .done } := by
        rw [emitReplay_armed hhigh, hsent]
      rw [hemit] at hset
      rw [bind_of_ok hemit]
      exact hown [w] hset (by simp)
    | error e s =>
      have hemit : emitReplay r = .error e { r with stream := s, replay := .done } := by
        rw [emitReplay_armed hhigh, hsent]
      rw [bind_of_error hemit]
      rfl
  · have hnone : ∀ high, r.replay ≠ .armed high := fun high h => harmed ⟨high, h⟩
    rw [bind_of_ok (emitReplay_other hnone)]
    exact hown [] hr hnone

end Replays

section Outputs

/-- What takes the place of a unit itself. `forced` says whether parameter sets go out as
Baseline, which has the number 66 and no sample format. -/
inductive Replaced (fixup : SpsFixup) (forced : Bool) (n : List UInt8) : List UInt8 → Prop where
  | passed (hn : isSps n = false) : Replaced fixup forced n n
  | forced {w : List UInt8} (hn : isSps n = true) (hforced : forced = true)
      (hw : SentAs {}
        (fun s => { fixup.apply s with profileIdc := 66, sampleFormat := none }) n w) :
      Replaced fixup forced n w
  | patched {w : List UInt8} (hn : isSps n = true) (hforced : forced = false)
      (hw : ∀ s : Stream, s.config = {} → ∃ t, Stream.patchSps fixup n s = .ok w t) :
      Replaced fixup forced n w

/-- What goes out in front of a unit. -/
def InFront : Replay → List (List UInt8) → Prop
  | .armed high, front => ∃ w, high.toNalUnit.encode {} {} = .ok w ∧ front = [w]
  | _, front => front = []

theorem replaced_of_sendOwn {own : List UInt8} (hr : SetUp fixup enabled r)
    (h : sendOwn n r = .ok own t) : Replaced fixup (enabled && isWaiting r.replay) n own := by
  rcases sendOwn_cases n r with ⟨hn, hsend⟩ | ⟨hn, -, hsend⟩ | ⟨hn, -, hsend⟩
  · rw [hsend, sendSps_eq, hr.enabled] at h
    cases hforced : enabled && isWaiting r.replay with
    | true =>
      rw [hforced, if_pos rfl] at h
      cases hv : readSps? n with
      | none =>
        obtain ⟨e, s, herror⟩ := sendAsBaseline_unread hr hn hv
        rw [herror] at h
        cases h
      | some v =>
        obtain ⟨s, hs, hbaseline⟩ := sendAsBaseline_read hr hn hv
        rw [hbaseline] at h
        obtain ⟨s', hs', -⟩ := onStream_eq_ok.mp h
        obtain ⟨-, hw⟩ := Stream.replaceSps_eq_ok.mp hs'
        simp only [(Stream.decode_of_readUnit hs).2, hr.config] at hw
        exact .forced hn rfl ⟨v, (readSps?_eq_some hn).mp hv, hw⟩
    | false =>
      rw [hforced, if_neg (by decide)] at h
      obtain ⟨s, hs, -⟩ := onStream_eq_ok.mp h
      have hsent := (Stream.exists_patchSps_iff r.fixup).mp ⟨s, hs⟩
      rw [hr.config, hr.fixup] at hsent
      refine .patched hn rfl fun stream hconfig => ?_
      exact (Stream.exists_patchSps_iff fixup).mpr (hconfig ▸ hsent)
  · rw [hsend] at h
    cases h
    exact .passed hn
  · rcases hsend with hsend | ⟨e, -, hsend⟩
    · rw [hsend] at h
      cases h
      exact .passed hn
    · rw [hsend] at h
      cases h

theorem emitReplay_eq_ok {front : List (List UInt8)} (hr : SetUp fixup enabled r)
    (h : emitReplay r = .ok front t) :
    InFront r.replay front ∧ isWaiting t.replay = isWaiting r.replay := by
  by_cases harmed : ∃ high, r.replay = .armed high
  · obtain ⟨high, hhigh⟩ := harmed
    rw [emitReplay_armed hhigh] at h
    split at h
    · rename_i w s hs
      cases h
      obtain ⟨-, hw⟩ := Stream.replaceSps_eq_ok.mp hs
      rw [hr.config] at hw
      rw [hhigh]
      exact ⟨⟨w, hw, rfl⟩, rfl⟩
    · cases h
  · have hnone : ∀ high, r.replay ≠ .armed high := fun high h => harmed ⟨high, h⟩
    rw [emitReplay_other hnone] at h
    cases h
    refine ⟨?_, rfl⟩
    cases hreplay : r.replay with
    | armed high => exact absurd hreplay (hnone high)
    | _ => rfl

theorem process_eq_ok {out : List (List UInt8)} (hr : SetUp fixup enabled r)
    (h : process n r = .ok out t) :
    ∃ front own, out = front ++ [own] ∧ InFront r.replay front ∧
      Replaced fixup (enabled && isWaiting r.replay) n own := by
  rw [process_eq] at h
  obtain ⟨front, v, hemit, h⟩ := bind_eq_ok.mp h
  obtain ⟨own, u, hown, h⟩ := bind_eq_ok.mp h
  cases h
  have hv := keeps_emitReplay r hr
  rw [hemit] at hv
  obtain ⟨hfront, hwaiting⟩ := emitReplay_eq_ok hr hemit
  exact ⟨front, own, rfl, hfront, hwaiting ▸ replaced_of_sendOwn hv hown⟩

end Outputs

section Successes

/-- What has to hold of a unit, and of the replay in front of it, for a call to succeed. -/
structure Sendable (fixup : SpsFixup) (enabled : Bool) (n : List UInt8) (replay : Replay) :
    Prop where
  header : ∃ h, NalHeader.peek n = .ok h
  front : ∀ high, replay = .armed high →
    high.sps.id.toNat ≤ 31 ∧ ∃ w, high.toNalUnit.encode {} {} = .ok w
  own : ∃ w, Replaced fixup (enabled && isWaiting replay) n w

theorem exists_emitReplay_iff (hr : SetUp fixup enabled r) :
    (∃ front t, emitReplay r = .ok front t) ↔ ∀ high, r.replay = .armed high →
      high.sps.id.toNat ≤ 31 ∧ ∃ w, high.toNalUnit.encode {} {} = .ok w := by
  constructor
  · rintro ⟨front, t, h⟩ high hhigh
    rw [emitReplay_armed hhigh] at h
    split at h
    · rename_i w s hs
      obtain ⟨hstore, hw⟩ := Stream.replaceSps_eq_ok.mp hs
      obtain ⟨later, hlater, -⟩ := Stream.storeSps_eq_ok.mp hstore
      exact ⟨(ParameterSets.insertSps_eq_ok.mp hlater).1, w, hr.config ▸ hw⟩
    · cases h
  · intro h
    by_cases harmed : ∃ high, r.replay = .armed high
    · obtain ⟨high, hhigh⟩ := harmed
      obtain ⟨hid, w, hw⟩ := h high hhigh
      obtain ⟨s, hs⟩ := Stream.exists_storeSps high.sps hid r.stream
      have hsent : Stream.replaceSps high r.stream = .ok w s :=
        Stream.replaceSps_eq_ok.mpr ⟨hs, hr.config ▸ hw⟩
      exact ⟨_, _, by rw [emitReplay_armed hhigh, hsent]⟩
    · exact ⟨_, _, emitReplay_other fun high h => harmed ⟨high, h⟩⟩

theorem peek_of_sendOwn {own : List UInt8} (h : sendOwn n r = .ok own t) :
    ∃ header, NalHeader.peek n = .ok header := by
  unfold sendOwn at h
  obtain ⟨header, v, hheader, -⟩ := bind_eq_ok.mp h
  exact ⟨header, (liftM_eq_ok.mp hheader).1⟩

theorem exists_sendOwn {own : List UInt8} (hr : SetUp fixup enabled r)
    (hheader : ∃ h, NalHeader.peek n = .ok h)
    (hown : Replaced fixup (enabled && isWaiting r.replay) n own) :
    ∃ own t, sendOwn n r = .ok own t := by
  rcases sendOwn_cases n r with ⟨hn, hsend⟩ | ⟨-, -, hsend⟩ | ⟨-, -, hsend⟩
  · rw [hsend, sendSps_eq, hr.enabled]
    cases hown with
    | passed hother => rw [hn] at hother; cases hother
    | forced _ hforced hw =>
      obtain ⟨v, hv, hw⟩ := hw
      rw [hforced, if_pos rfl]
      obtain ⟨s, hs, hbaseline⟩ := sendAsBaseline_read hr hn ((readSps?_eq_some hn).mpr hv)
      have hconfig := (Stream.decode_of_readUnit hs).2.trans hr.config
      have hid : (fixup.apply v.sps).toBaseline.id.toNat ≤ 31 := (NalUnit.decode_sps hv {}).1.id
      obtain ⟨s', hs'⟩ := Stream.exists_storeSps _ hid s
      refine ⟨own, _, hbaseline.trans (onStream_eq_ok.mpr ⟨s', ?_, rfl⟩)⟩
      exact Stream.replaceSps_eq_ok.mpr ⟨hs', hconfig.symm ▸ hw⟩
    | patched _ hforced hw =>
      rw [hforced, if_neg (by decide), hr.fixup]
      obtain ⟨s, hs⟩ := hw r.stream hr.config
      exact ⟨own, _, onStream_eq_ok.mpr ⟨s, hs, rfl⟩⟩
  · exact ⟨n, _, hsend⟩
  · rcases hsend with hsend | ⟨e, hpeek, -⟩
    · exact ⟨n, r, hsend⟩
    · obtain ⟨header, hheader⟩ := hheader
      rw [hheader] at hpeek
      cases hpeek

/-- Which calls succeed is a matter of the unit and of how far the replay has come. -/
theorem exists_process_iff (hr : SetUp fixup enabled r) :
    (∃ out t, process n r = .ok out t) ↔ Sendable fixup enabled n r.replay := by
  constructor
  · rintro ⟨out, t, h⟩
    obtain ⟨front, own, -, -, hown⟩ := process_eq_ok hr h
    rw [process_eq] at h
    obtain ⟨_, v, hemit, h⟩ := bind_eq_ok.mp h
    obtain ⟨_, u, hsend, -⟩ := bind_eq_ok.mp h
    exact ⟨peek_of_sendOwn hsend, (exists_emitReplay_iff hr).mp ⟨_, v, hemit⟩, own, hown⟩
  · rintro ⟨hheader, hfront, own, hown⟩
    obtain ⟨front, v, hemit⟩ := (exists_emitReplay_iff hr).mpr hfront
    have hv : SetUp fixup enabled v := by
      have hset := keeps_emitReplay r hr
      rwa [hemit] at hset
    rw [← (emitReplay_eq_ok hr hemit).2] at hown
    obtain ⟨sent, t, hsend⟩ := exists_sendOwn hv hheader hown
    refine ⟨front ++ [sent], t, ?_⟩
    rw [process_eq, bind_of_ok hemit, bind_of_ok hsend]
    rfl

end Successes

end SpsPatcher

end AvcSyntax

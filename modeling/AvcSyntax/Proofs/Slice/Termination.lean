import AvcSyntax.Proofs.Bits.Truncation
import AvcSyntax.Proofs.Canonical.SliceFields

/-!
# Lists of operations are read as they are written

Whatever is read as a list of operations is what writing it appends, and only such bits are read.
Where it is not so, the fault tells two cases apart. Bits that end where a flag should stand are
missing. All else is invalid, be it a list without its end mark, for the data end inside it.
-/
namespace AvcSyntax

section Acceptance

variable {α : Type} {p : Parse α} {code : α → Code} {allowed : α → Prop}

/-- A parser that reads every code back and accepts nothing else accepts the bits that are
written. -/
theorem Accepts.iff_written (haccepts : Accepts p fun a c => allowed a ∧ c = code a)
    (hreads : ∀ a, allowed a → ∀ tail, Reads p (code a) tail a) {r : Reader} (hr : r.InBounds)
    (a : α) (count : Nat) :
    (∃ s, p r = .ok a s ∧ s.pos = r.pos + count) ↔
      allowed a ∧ count ≤ r.remaining ∧ Appends (code a).write (r.rest.take count) () := by
  constructor
  · rintro ⟨s, hs, hpos⟩
    obtain ⟨_, hvalid, hmoves, ha, rfl⟩ := haccepts r a s hr hs
    have hcount : (code a).bits.length = count := by
      have hend := hmoves.pos
      omega
    have hrest := hmoves.rest
    refine ⟨ha, hcount ▸ Reader.length_le_remaining hrest, ?_⟩
    rw [hrest, ← hcount, List.take_left]
    exact hvalid.appends
  · rintro ⟨ha, hcount, happends⟩
    have hvalid := (hreads a ha []).valid
    have hbits := happends.unique hvalid.appends
    have hrest : r.rest = (code a).bits ++ r.rest.drop count := by
      rw [← hbits, List.take_append_drop]
    obtain ⟨s, hs, hmoves⟩ := (hreads a ha _).run r hr hrest
    have hlength : (code a).bits.length = count := by
      rw [← hbits, List.length_take, Reader.length_rest, Nat.min_eq_left hcount]
    exact ⟨s, hs, by rw [hmoves.pos, hlength]⟩

end Acceptance

theorem Appends.exists_ok {ε α : Type} {p : EStateM ε Writer α} {bs : Bits} {a : α}
    (h : Appends p bs a) : ∃ w v, p w = .ok a v := by
  have hroom : bs.length ≤ (Writer.zeroed bs.length).remaining := by
    simp only [Writer.remaining, Writer.zeroed, Array.size_replicate]
    omega
  obtain ⟨v, hv, -⟩ := h _ hroom
  exact ⟨_, v, hv⟩

namespace Parse

variable {α : Type} {F : Fault → Prop} {p : Parse α}

theorem optional_of_nil {r : Reader} (h : r.rest = []) :
    optional p r = .error .bitsExhausted r.exhausted := bind_of_error (flag_of_nil h)

theorem flag_eq_error {r s : Reader} {e : Fault} (h : flag r = .error e s) : r.rest = [] := by
  cases hrest : r.rest with
  | nil => rfl
  | cons b tail =>
    obtain ⟨t, ht, -⟩ := flag_of_cons hrest
    rw [ht] at h
    cases h

theorem optional_eq_error (hp : Faults F p) {r s : Reader} {e : Fault}
    (h : optional p r = .error e s) : r.rest = [] ∨ F e := by
  rcases bind_eq_error.mp h with hflag | ⟨present, t, -, hpart⟩
  · exact .inl (flag_eq_error hflag)
  · cases present with
    | false => cases hpart
    | true => exact .inr ((hp.bind fun a => .pure (some a)) t e s hpart)

section Lists

variable {β : Type} {f : α → Parse β} {list : String}

/-- What is read inside a list. Nothing is reported as missing there, and a cut at any bit leaves
the list without its end. -/
structure InsideList (list : String) (p : Parse α) : Prop where
  faults : Faults (·.kind = .invalidValue) p
  sequential : Sequential (· = .unterminated list) p

theorem InsideList.pure (a : α) : InsideList list (Pure.pure a) := ⟨.pure a, .pure a⟩

theorem InsideList.throw {e : Fault} (he : e.kind = .invalidValue) :
    InsideList list (throw e : Parse α) := ⟨.throw he, .throw e⟩

theorem InsideList.bind (hp : InsideList list p) (hf : ∀ a, InsideList list (f a)) :
    InsideList list (p >>= f) :=
  ⟨hp.faults.bind fun a => (hf a).faults, hp.sequential.bind fun a => (hf a).sequential⟩

theorem insideList_ueInList : InsideList list (ueInList list) := by
  refine ⟨faults_ue.mapFault ?_, sequential_ue.mapFault fun _ he => if_pos he⟩
  rintro e (rfl | rfl)
  · rfl
  · rfl

theorem insideList_inRange (quantity : String) (low high value : Int) :
    InsideList list (inRange quantity low high value) :=
  ⟨faults_inRange quantity low high value, sequential_inRange quantity low high value⟩

theorem insideList_operand : InsideList list (operand list) :=
  insideList_ueInList.bind fun n => (insideList_inRange _ _ _ _).bind fun _ => .pure n.toUInt32

theorem InsideList.operations {next : Parse (Option α)} (hnext : InsideList list next)
    (room : Nat) : InsideList list (operations list next room) := by
  induction room with
  | zero =>
    refine hnext.bind fun op => ?_
    cases op with
    | none => exact .pure []
    | some op => exact .throw rfl
  | succ room ih =>
    refine hnext.bind fun op => ?_
    cases op with
    | none => exact .pure []
    | some op => exact ih.bind fun ops => .pure (op :: ops)

end Lists

end Parse

/-- How a record is read that may hold lists of operations. `endsAtFlag` says which bits end where
a flag should stand. -/
structure Terminated {α : Type} (p : Parse α) (code : α → Code) (allowed : α → Prop)
    (endsAtFlag : Bits → Prop) (list : String) (r : Reader) : Prop where
  /-- What is read is what is written, and what is written is read. -/
  accepts : ∀ a count, (∃ s, p r = .ok a s ∧ s.pos = r.pos + count) ↔
    allowed a ∧ count ≤ r.remaining ∧ Appends (code a).write (r.rest.take count) ()
  missing : endsAtFlag r.rest → ∃ s, p r = .error .bitsExhausted s
  invalid : ∀ e s, p r = .error e s → ¬endsAtFlag r.rest → e.kind = .invalidValue
  /-- Bits that end anywhere else in what is written leave a list without its end. -/
  unterminated : ∀ a bs, allowed a → Appends (code a).write bs () → r.rest <+: bs → r.rest ≠ bs →
    ¬endsAtFlag r.rest → ∃ s, p r = .error (.unterminated list) s

/-- Whether the bits that a record is written as are cut off inside a list is known as soon as it
is known which ends are reported as missing. -/
theorem Terminated.of_faults {α : Type} {p : Parse α} {code : α → Code} {allowed : α → Prop}
    {endsAtFlag : Bits → Prop} {list : String} {r : Reader} (hr : r.InBounds)
    (haccepts : Accepts p fun a c => allowed a ∧ c = code a)
    (hreads : ∀ a, allowed a → ∀ tail, Reads p (code a) tail a)
    (hcut : Parse.Sequential (fun e => e.kind = .endOfData ∨ e = .unterminated list) p)
    (hmissing : endsAtFlag r.rest → ∃ s, p r = .error .bitsExhausted s)
    (hinvalid : ∀ e s, p r = .error e s → ¬endsAtFlag r.rest → e.kind = .invalidValue) :
    Terminated p code allowed endsAtFlag list r := by
  refine ⟨haccepts.iff_written hreads hr, hmissing, hinvalid, ?_⟩
  intro a bs ha happends hrest hne hflag
  obtain rfl := happends.unique (hreads a ha []).valid.appends
  obtain ⟨e, s, hs, he⟩ := (hcut.takes_code (hreads a ha)).cut r hr hrest hne
  have hkind := hinvalid e s hs hflag
  rcases he with hend | rfl
  · rw [hkind] at hend
    cases hend
  · exact ⟨s, hs⟩

namespace RefListOperation

theorem insideList_parse? : Parse.InsideList listName parse? := by
  refine Parse.insideList_ueInList.bind fun idc => ?_
  match idc with
  | 0 | 1 | 2 => exact Parse.insideList_operand.bind fun n => .pure _
  | 3 => exact .pure none
  | idc + 4 => exact .throw rfl

theorem parseList_eq_error {r s : Reader} {e : Fault} (h : parseList r = .error e s) :
    r.rest = [] ∨ e.kind = .invalidValue :=
  Parse.optional_eq_error (insideList_parse?.operations _).faults h

theorem sequential_parseList :
    Parse.Sequential (fun e => e.kind = .endOfData ∨ e = .unterminated listName) parseList :=
  ((insideList_parse?.operations _).sequential.mono fun _ => .inr).optional fun _ => .inl

end RefListOperation

namespace RefListModification

/-- Whether bits end where a flag should say if a list is changed, in front of all lists or behind
the first one. -/
def EndsAtFlag (type : SliceType) (bs : Bits) : Prop :=
  (type.isIntra = false ∧ bs = []) ∨
    type = .b ∧ ∃ l0, Appends (RefListOperation.listCode l0).write bs ()

theorem sequential_parse (type : SliceType) :
    Parse.Sequential (fun e => e.kind = .endOfData ∨ e = .unterminated RefListOperation.listName)
      (parse type) := by
  simp only [parse, ite_bind]
  refine Parse.Sequential.bind (.ite (fun _ => .pure none) fun _ =>
    RefListOperation.sequential_parseList) fun l0 => ?_
  refine Parse.Sequential.bind (.ite (fun _ => RefListOperation.sequential_parseList) fun _ =>
    .pure none) fun l1 => ?_
  exact .pure _

/-- The first list and nothing else stands in front of the reader. -/
theorem exists_parseList_of_appends {r : Reader} {l0 : Option (List RefListOperation)}
    (hr : r.InBounds) (h : Appends (RefListOperation.listCode l0).write r.rest ()) :
    ∃ s, RefListOperation.parseList r = .ok l0 s ∧ s.rest = [] := by
  obtain ⟨w, v, hv⟩ := h.exists_ok
  have hl0 := RefListOperation.listWellFormed_of_writable (Code.writable_of_write hv)
  have hreads : Reads RefListOperation.parseList (RefListOperation.listCode l0) [] l0 :=
    RefListOperation.reads_listCode hl0
  have hrest : r.rest = (RefListOperation.listCode l0).bits ++ [] := by
    rw [List.append_nil]
    exact h.unique hreads.valid.appends
  obtain ⟨s, hs, hmoves⟩ := hreads.run r hr hrest
  exact ⟨s, hs, hmoves.rest_eq hrest⟩

theorem appends_of_parseList {r s : Reader} {l0 : Option (List RefListOperation)}
    (hr : r.InBounds) (h : RefListOperation.parseList r = .ok l0 s) (hend : s.rest = []) :
    Appends (RefListOperation.listCode l0).write r.rest () := by
  obtain ⟨_, hvalid, hmoves, -, rfl⟩ := RefListOperation.accepts_parseList r l0 s hr h
  rw [hmoves.rest, hend, List.append_nil]
  exact hvalid.appends

theorem terminated (type : SliceType) {r : Reader} (hr : r.InBounds) :
    Terminated (parse type) (·.code type) (·.WellFormed type) (EndsAtFlag type)
      RefListOperation.listName r := by
  refine .of_faults hr (accepts_parse type) (fun m hm _ => reads_code hm) (sequential_parse type)
    ?missing ?invalid
  case missing =>
    simp only [parse, ite_bind]
    rintro (⟨hintra, hend⟩ | ⟨rfl, l0, hl0⟩)
    · rw [hintra]
      exact ⟨_, bind_of_error (Parse.optional_of_nil hend)⟩
    · obtain ⟨s, hs, hend⟩ := exists_parseList_of_appends hr hl0
      exact ⟨_, (bind_of_ok hs).trans (bind_of_error (Parse.optional_of_nil hend))⟩
  case invalid =>
    intro e s h hflag
    simp only [parse, ite_bind] at h
    rcases bind_eq_error.mp h with hfirst | ⟨l0, t, ht, hlater⟩
    · cases hintra : type.isIntra with
      | true =>
        rw [hintra] at hfirst
        cases hfirst
      | false =>
        rw [hintra] at hfirst
        refine (RefListOperation.parseList_eq_error hfirst).resolve_left fun hend => ?_
        exact hflag (.inl ⟨hintra, hend⟩)
    rcases bind_eq_error.mp hlater with hsecond | ⟨l1, u, -, hlast⟩
    · by_cases hb : type = .b
      · subst hb
        refine (RefListOperation.parseList_eq_error hsecond).resolve_left fun hend => ?_
        exact hflag (.inr ⟨rfl, l0, appends_of_parseList hr ht hend⟩)
      · rw [if_neg hb] at hsecond
        cases hsecond
    · cases hlast

end RefListModification

namespace MarkingOperation

theorem insideList_parse? : Parse.InsideList listName parse? := by
  refine Parse.insideList_ueInList.bind fun number => ?_
  match number with
  | 0 => exact .pure none
  | 1 | 2 | 4 | 6 => exact Parse.insideList_operand.bind fun n => .pure _
  | 3 =>
    refine Parse.insideList_operand.bind fun n => ?_
    exact Parse.insideList_operand.bind fun idx => .pure _
  | 5 => exact .pure _
  | number + 7 => exact .throw rfl

end MarkingOperation

namespace RefPicMarking

/-- Whether bits end where a flag should stand. A picture that refreshes the decoder has two flags
and nothing else. -/
def EndsAtFlag (isIdr : Bool) (bs : Bits) : Prop := if isIdr then bs.length < 2 else bs = []

theorem sequential_parse (isIdr : Bool) :
    Parse.Sequential (fun e => e.kind = .endOfData ∨ e = .unterminated MarkingOperation.listName)
      (parse isIdr) := by
  have hflag : Parse.Sequential
      (fun e => e.kind = .endOfData ∨ e = .unterminated MarkingOperation.listName) Parse.flag :=
    Parse.sequential_flag.mono fun _ => .inl
  refine .ite (fun _ => ?_) fun _ => ?_
  · exact hflag.bind fun noOutput => hflag.bind fun longTerm => .pure _
  · refine hflag.bind fun adaptive => .ite (fun _ => ?_) fun _ => .pure _
    refine Parse.Sequential.bind ?_ fun ops => .pure _
    exact (MarkingOperation.insideList_parse?.operations _).sequential.mono fun _ => .inr

theorem terminated (isIdr : Bool) {r : Reader} (hr : r.InBounds) :
    Terminated (parse isIdr) (·.code isIdr) (·.WellFormed isIdr) (EndsAtFlag isIdr)
      MarkingOperation.listName r := by
  refine .of_faults hr (accepts_parse isIdr) (fun m hm _ => reads_code hm) (sequential_parse isIdr)
    ?missing ?invalid
  case missing =>
    intro hflag
    cases isIdr with
    | false => exact ⟨_, bind_of_error (Parse.flag_of_nil hflag)⟩
    | true =>
      replace hflag : r.rest.length < 2 := hflag
      match hrest : r.rest with
      | [] => exact ⟨_, bind_of_error (Parse.flag_of_nil hrest)⟩
      | [b] =>
        obtain ⟨s, hs, hmoves⟩ := Parse.flag_of_cons hrest
        have hend : s.rest = [] := hmoves.rest_eq hrest
        exact ⟨_, (bind_of_ok hs).trans (bind_of_error (Parse.flag_of_nil hend))⟩
      | _ :: _ :: _ =>
        rw [hrest] at hflag
        simp at hflag
  case invalid =>
    intro e s h hflag
    cases isIdr with
    | true =>
      refine absurd ?_ hflag
      change r.rest.length < 2
      rcases bind_eq_error.mp h with hfirst | ⟨b, t, ht, hlater⟩
      · rw [Parse.flag_eq_error hfirst]
        decide
      rcases bind_eq_error.mp hlater with hsecond | ⟨c, u, -, hlast⟩
      · obtain ⟨_, -, hmoves, rfl⟩ := Parse.accepts_flag r b t hr ht
        rw [hmoves.rest, Parse.flag_eq_error hsecond, Code.bits_flag]
        simp
      · cases hlast
    | false =>
      rcases bind_eq_error.mp h with hfirst | ⟨adaptive, t, -, hlater⟩
      · exact absurd (Parse.flag_eq_error hfirst) hflag
      · cases adaptive with
        | false => cases hlater
        | true =>
          have hops := (MarkingOperation.insideList_parse?.operations maxOperations).bind
            fun ops => Parse.InsideList.pure (RefPicMarking.adaptive ops)
          exact hops.faults t e s hlater

end RefPicMarking

/-- Both records that hold lists of operations are read as they are written, for every type of
slices and every kind of picture. -/
theorem operationLists_terminated {r : Reader} (hr : r.InBounds) :
    (∀ type, Terminated (RefListModification.parse type) (·.code type) (·.WellFormed type)
      (RefListModification.EndsAtFlag type) RefListOperation.listName r) ∧
    ∀ isIdr, Terminated (RefPicMarking.parse isIdr) (·.code isIdr) (·.WellFormed isIdr)
      (RefPicMarking.EndsAtFlag isIdr) MarkingOperation.listName r :=
  ⟨fun type => RefListModification.terminated type hr,
    fun isIdr => RefPicMarking.terminated isIdr hr⟩

/-- One changed list takes twelve bits. A slice of type P has no other, and for one of type B the
flag of the second list is missing behind it. -/
theorem operationLists_terminated_at_second_flag :
    let r : Reader := { data := #[12, 196], pos := 4 }
    let m : RefListModification := { l0 := some [.shortTermSubtract 5] }
    r.InBounds ∧ Appends (m.code .p).write r.rest () ∧
      ∃ s, RefListModification.parse .b r = .error .bitsExhausted s := by
  intro r m
  have hr : r.InBounds := Nat.le_of_ble_eq_true rfl
  have hlists := (operationLists_terminated hr).1
  have hread : RefListModification.parse .p r = .ok m { r with pos := 16 } := by cbv
  have hfirst : RefListOperation.parseList r = .ok m.l0 { r with pos := 16 } := by cbv
  refine ⟨hr, (((hlists .p).accepts m 12).mp ⟨_, hread, rfl⟩).2.2, (hlists .b).missing ?_⟩
  exact .inr ⟨rfl, m.l0, RefListModification.appends_of_parseList hr hfirst (by cbv)⟩

end AvcSyntax

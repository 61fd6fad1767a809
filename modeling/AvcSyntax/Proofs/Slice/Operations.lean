import AvcSyntax.Proofs.Bits.Words
import AvcSyntax.Slice.RefListModification
import AvcSyntax.Slice.RefPicMarking

/-!
# Lists of operations are read back

A list of operations ends with a mark that is no operation, so that it is read back whatever
follows, and it is the only code of its operations. Both lists of a slice header are such lists:
the changes to the lists of reference pictures and the marking of reference pictures.
-/
namespace AvcSyntax

variable {tail : Bits}

namespace Parse

section

variable {α : Type} {list : String} {next : Parse (Option α)} {code : α → Code} {mark : Code}

theorem reads_operations (hmark : ∀ tail, Reads next mark tail none) {ops : List α}
    (hops : ∀ op ∈ ops, ∀ tail, Reads next (code op) tail (some op)) {room : Nat}
    (hroom : ops.length ≤ room) :
    Reads (operations list next room) (.concat (ops.map code) ++ mark) tail ops := by
  induction ops generalizing room with
  | nil => cases room <;> exact (hmark tail).last rfl
  | cons op ops ih =>
    obtain ⟨hop, hops⟩ := List.forall_mem_cons.mp hops
    obtain ⟨room, rfl⟩ : ∃ n, room = n + 1 := ⟨room - 1, by simp at hroom; omega⟩
    rw [List.map_cons, Code.concat, Code.append_assoc]
    refine (hop _).bind ?_
    exact (ih hops (by simpa using hroom)).bind_pure rfl

theorem accepts_operations (hnext : Accepts next fun op c => c = op.elim mark code) (room : Nat) :
    Accepts (operations list next room) fun ops c =>
      ops.length ≤ room ∧ c = .concat (ops.map code) ++ mark := by
  induction room with
  | zero =>
    refine hnext.bind ?_
    rintro (_ | op) _ rfl
    · exact Accepts.pure ⟨Nat.le_refl 0, Code.append_empty _⟩
    · exact Accepts.throw _
  | succ room ih =>
    refine hnext.bind ?_
    rintro (_ | op) _ rfl
    · exact Accepts.pure ⟨Nat.zero_le _, Code.append_empty _⟩
    · refine ih.bind ?_
      rintro ops _ ⟨hops, rfl⟩
      refine Accepts.pure ⟨by simpa using hops, ?_⟩
      rw [Code.append_empty, List.map_cons, Code.concat, Code.append_assoc]
      rfl

end

theorem reads_ueInList (list : String) {n : Nat} (h : n ≤ ExpGolomb.maxValue) :
    Reads (ueInList list) (.ue n) tail n := reads_mapFault (reads_ue h)

theorem accepts_ueInList (list : String) :
    Accepts (ueInList list) fun n c => n ≤ ExpGolomb.maxValue ∧ c = .ue n :=
  accepts_mapFault accepts_ue

theorem reads_operand (list : String) (n : UInt32) : Reads (operand list) (.ue n.toNat) tail n := by
  have hn := n.toNat_lt
  have hcheck : Reads (inRange "operand" 0 (2 ^ 32 - 1) n.toNat) .empty tail () :=
    reads_inRange (by omega) (by omega)
  rw [← Code.append_empty (.ue n.toNat)]
  refine (reads_ueInList list (n.toNat_lt.le.trans (by decide))).bind (hcheck.bind_pure ?_)
  simp

theorem accepts_operand (list : String) : Accepts (operand list) fun n c => c = .ue n.toNat := by
  refine (accepts_ueInList list).bind ?_
  rintro n _ ⟨-, rfl⟩
  refine accepts_inRange.bind ?_
  rintro - _ ⟨⟨-, hhigh⟩, rfl⟩
  have hword : n.toUInt32.toNat = n := by
    simp
    omega
  exact Accepts.pure (by rw [hword, Code.append_empty, Code.append_empty])

end Parse

namespace RefListOperation

theorem reads_code (op : RefListOperation) : Reads parse? op.code tail (some op) := by
  cases op with
  | shortTermSubtract n =>
    exact (Parse.reads_ueInList _ (by decide)).bind ((Parse.reads_operand _ n).bind_pure rfl)
  | shortTermAdd n =>
    exact (Parse.reads_ueInList _ (by decide)).bind ((Parse.reads_operand _ n).bind_pure rfl)
  | longTerm n =>
    exact (Parse.reads_ueInList _ (by decide)).bind ((Parse.reads_operand _ n).bind_pure rfl)

theorem reads_endMark : Reads parse? (.ue endMark) tail none :=
  (Parse.reads_ueInList _ (by decide)).last rfl

theorem accepts_parse? : Accepts parse? fun op c => c = op.elim (.ue endMark) code := by
  refine (Parse.accepts_ueInList _).bind ?_
  rintro idc _ ⟨-, rfl⟩
  match idc with
  | 0 | 1 | 2 =>
    refine (Parse.accepts_operand _).bind ?_
    rintro n _ rfl
    exact Accepts.pure (by rw [Code.append_empty]; rfl)
  | 3 => exact Accepts.pure (Code.append_empty _)
  | idc + 4 => exact Accepts.throw _

/-- A list that reading can yield. -/
def ListWellFormed (ops : Option (List RefListOperation)) : Prop :=
  ∀ l ∈ ops, l.length ≤ maxOperations

theorem reads_listCode {ops : Option (List RefListOperation)} (h : ListWellFormed ops) :
    Reads parseList (listCode ops) tail ops := by
  refine Parse.reads_optional fun l hl => ?_
  have hlength := h l hl
  rw [Code.append_assoc]
  refine Reads.check ?_ (by omega) (by omega)
  exact Parse.reads_operations (fun _ => reads_endMark) (fun op _ _ => op.reads_code) hlength

theorem accepts_parseList :
    Accepts parseList fun ops c => ListWellFormed ops ∧ c = listCode ops := by
  refine Parse.accepts_optional ((Parse.accepts_operations accepts_parse? _).mono ?_)
  rintro l _ ⟨hlength, rfl⟩
  refine ⟨hlength, ?_⟩
  rw [Code.inRange_eq_empty (by omega) (by omega), Code.empty_append]

theorem atMost_code (op : RefListOperation) : op.code.AtMost 130 := by
  cases op <;> exact (Code.atMost_ue _).append (Code.atMost_ue _)

theorem atMost_listCode (ops : Option (List RefListOperation)) : (listCode ops).AtMost 8400 := by
  have hlist (l : List RefListOperation) : (Code.inRange "ops.len()" 0 maxOperations l.length ++
      .concat (l.map code) ++ .ue endMark).AtMost 8399 := by
    rw [Code.append_assoc]
    refine Code.AtMost.guard fun _ hlength => ?_
    have hconcat := Code.AtMost.concat fun op (_ : op ∈ l) => atMost_code op
    refine (hconcat.append (Code.atMost_ue endMark)).mono ?_
    rw [maxOperations] at hlength
    omega
  exact Code.AtMost.optional fun l _ => hlist l

end RefListOperation

namespace RefListModification

structure WellFormed (m : RefListModification) (type : SliceType) : Prop where
  l0 : RefListOperation.ListWellFormed m.l0
  l1 : RefListOperation.ListWellFormed m.l1
  l0_absent : type.isIntra = true → m.l0 = none
  l1_absent : type ≠ .b → m.l1 = none

theorem reads_code {m : RefListModification} {type : SliceType} (h : m.WellFormed type) :
    Reads (parse type) (m.code type) tail m := by
  simp only [parse, ite_bind]
  refine (Reads.unless (fun _ => RefListOperation.reads_listCode h.l0) h.l0_absent).bind ?_
  exact (Reads.onlyIf (fun _ => RefListOperation.reads_listCode h.l1) h.l1_absent).bind_pure rfl

theorem accepts_parse (type : SliceType) :
    Accepts (parse type) fun m c => m.WellFormed type ∧ c = m.code type := by
  have habsent : RefListOperation.ListWellFormed none := by simp [RefListOperation.ListWellFormed]
  simp only [parse, ite_bind]
  refine (Accepts.unless fun _ => RefListOperation.accepts_parseList).bind ?_
  rintro l0 _ ⟨⟨hl0, hl0_absent⟩, rfl⟩
  refine (Accepts.onlyIf fun _ => RefListOperation.accepts_parseList).bind ?_
  rintro l1 _ ⟨⟨hl1, hl1_absent⟩, rfl⟩
  refine Accepts.pure ⟨⟨?_, ?_, hl0_absent, hl1_absent⟩, by rw [Code.append_empty, code]⟩
  · by_cases hintra : type.isIntra = true
    · exact hl0_absent hintra ▸ habsent
    · exact hl0 (by simpa using hintra)
  · by_cases hb : type = .b
    · exact hl1 hb
    · exact hl1_absent hb ▸ habsent

theorem atMost_code (m : RefListModification) (type : SliceType) :
    (m.code type).AtMost 16800 :=
  (Code.AtMost.onlyIf fun _ => RefListOperation.atMost_listCode _).append
    (Code.AtMost.onlyIf fun _ => RefListOperation.atMost_listCode _)

end RefListModification

namespace MarkingOperation

theorem number_le (op : MarkingOperation) : op.number ≤ ExpGolomb.maxValue := by
  cases op <;> exact Nat.le_of_ble_eq_true rfl

theorem reads_code (op : MarkingOperation) : Reads parse? op.code tail (some op) := by
  have hnumber := op.number_le
  cases op with
  | shortTermToLongTerm n idx =>
    exact (Parse.reads_ueInList _ hnumber).bind
      ((Parse.reads_operand _ n).bind ((Parse.reads_operand _ idx).bind (Reads.pure _)))
  | allUnused => exact (Parse.reads_ueInList _ hnumber).bind (Reads.pure _)
  | shortTermUnused n | longTermUnused n | maxLongTermFrameIdx n | currentToLongTerm n =>
    exact (Parse.reads_ueInList _ hnumber).bind
      ((Parse.reads_operand _ n).bind (Reads.pure _))

theorem reads_endMark : Reads parse? (.ue endMark) tail none :=
  (Parse.reads_ueInList _ (by decide)).last rfl

theorem accepts_parse? : Accepts parse? fun op c => c = op.elim (.ue endMark) code := by
  refine (Parse.accepts_ueInList _).bind ?_
  rintro number _ ⟨-, rfl⟩
  match number with
  | 0 => exact Accepts.pure (Code.append_empty _)
  | 1 | 2 | 4 | 6 =>
    refine (Parse.accepts_operand _).bind ?_
    rintro n _ rfl
    exact Accepts.pure rfl
  | 3 =>
    refine (Parse.accepts_operand _).bind ?_
    rintro n _ rfl
    refine (Parse.accepts_operand _).bind ?_
    rintro idx _ rfl
    exact Accepts.pure rfl
  | 5 => exact Accepts.pure rfl
  | number + 7 => exact Accepts.throw _

theorem length_operands_le (op : MarkingOperation) : op.operands.length ≤ 2 := by
  cases op <;> simp [operands]

theorem atMost_code (op : MarkingOperation) : op.code.AtMost 195 := by
  have hlength := op.length_operands_le
  have hoperands := Code.AtMost.concat fun (n : UInt32) (_ : n ∈ op.operands) =>
    Code.atMost_ue n.toNat
  exact ((Code.atMost_ue _).append hoperands).mono (by omega)

end MarkingOperation

namespace RefPicMarking

/-- Whether reading can yield a marking for a picture. -/
def WellFormed (isIdr : Bool) : RefPicMarking → Prop
  | idr _ _ => isIdr = true
  | slidingWindow => isIdr = false
  | adaptive ops => isIdr = false ∧ ops.length ≤ maxOperations

theorem reads_code {m : RefPicMarking} {isIdr : Bool} (h : m.WellFormed isIdr) :
    Reads (parse isIdr) (m.code isIdr) tail m := by
  cases m with
  | idr noOutput longTerm =>
    obtain rfl : isIdr = true := h
    exact (Parse.reads_flag _).bind ((Parse.reads_flag _).bind_pure rfl)
  | slidingWindow =>
    obtain rfl : isIdr = false := h
    exact (Parse.reads_flag _).last rfl
  | adaptive ops =>
    obtain ⟨rfl, hlength⟩ := h
    simp only [code, Code.append_assoc]
    refine Reads.check ?_ (by omega) (by omega)
    refine (Parse.reads_flag _).bind ?_
    exact (Parse.reads_operations (fun _ => MarkingOperation.reads_endMark)
      (fun op _ _ => op.reads_code) hlength).bind_pure rfl

theorem accepts_parse (isIdr : Bool) :
    Accepts (parse isIdr) fun m c => m.WellFormed isIdr ∧ c = m.code isIdr := by
  cases isIdr with
  | true =>
    refine Parse.accepts_flag.bind ?_
    rintro noOutput _ rfl
    refine Parse.accepts_flag.bind ?_
    rintro longTerm _ rfl
    exact Accepts.pure ⟨rfl, by rw [Code.append_empty]; rfl⟩
  | false =>
    refine Parse.accepts_flag.bind ?_
    rintro (_ | _) _ rfl
    · exact Accepts.pure ⟨rfl, Code.append_empty _⟩
    · refine (Parse.accepts_operations MarkingOperation.accepts_parse? _).bind ?_
      rintro ops _ ⟨hlength, rfl⟩
      refine Accepts.pure ⟨⟨rfl, hlength⟩, ?_⟩
      simp only [code, Code.append_assoc, Code.append_empty]
      rw [Code.inRange_eq_empty (by omega) (by omega), Code.empty_append]

theorem atMost_code (m : RefPicMarking) (isIdr : Bool) : (m.code isIdr).AtMost 13000 := by
  match m, isIdr with
  | idr _ _, true => exact ((Code.atMost_flag _).append (Code.atMost_flag _)).mono (by decide)
  | slidingWindow, false => exact (Code.atMost_flag _).mono (by decide)
  | adaptive ops, false =>
    simp only [code, Code.append_assoc]
    refine Code.AtMost.guard fun _ hlength => ?_
    have hops := Code.AtMost.concat fun (op : MarkingOperation) (_ : op ∈ ops) => op.atMost_code
    refine ((Code.atMost_flag _).append (hops.append (Code.atMost_ue _))).mono ?_
    rw [maxOperations] at hlength
    omega
  | idr _ _, false | slidingWindow, true | adaptive _, true =>
    exact (Code.atMost_fail _).mono (by decide)

end RefPicMarking

end AvcSyntax

import AvcSyntax.AccessUnitDelimiter
import AvcSyntax.Proofs.Nal.Trailing
import AvcSyntax.Sei

/-!
# Supplemental information is read back

Messages are read up to the stop bit, so in front of one any list of them is read back as it is.
The bound on how many messages are tried is never reached, for each takes two bytes at least.
Access unit delimiters, a single number, are here as well.
-/
namespace AvcSyntax

variable {tail : Bits}

namespace SeiMessage

/-- Whether the length of the payload can be coded. -/
def WellFormed (m : SeiMessage) : Prop := m.payload.length < 2 ^ 32

theorem code_eq {m : SeiMessage} (h : m.WellFormed) :
    m.code = .byteSum m.payloadType.toNat ++ .byteSum m.payload.length ++ .bytes m.payload := by
  have hlength : m.payload.length < 0x100000000 := h
  rw [code, if_pos hlength, Code.empty_append]

theorem reads_code {m : SeiMessage} (h : m.WellFormed) : Reads parse m.code tail m := by
  rw [code_eq h, Code.append_assoc]
  refine (Parse.reads_byteSum m.payloadType.toNat_lt).report.bind ?_
  refine (Parse.reads_byteSum h).report.bind ?_
  have hpayload : Reads (do
      let payload ← Parse.bytes m.payload.length
      return { payloadType := m.payloadType.toNat.toUInt32, payload } : Decode SeiMessage)
      (.bytes m.payload) tail m := by
    refine (Parse.reads_bytes m.payload).report.bind_pure ?_
    simp
  refine hpayload.get fun r _ hrest => ?_
  -- A payload that is there is not refused.
  have hroom := Reader.length_le_remaining hrest
  rw [Code.bits_bytes, Bits.length_ofBytes] at hroom
  rw [if_neg (by omega)]

theorem accepts_parse : Accepts parse fun m c => m.WellFormed ∧ c = m.code := by
  refine Parse.accepts_byteSum.report.bind ?_
  rintro payloadType _ ⟨htype, rfl⟩
  refine Parse.accepts_byteSum.report.bind ?_
  rintro size _ ⟨hsize, rfl⟩
  refine Accepts.get fun r => Accepts.ite (fun _ => Accepts.throw _) fun _ => ?_
  refine (Parse.accepts_bytes size).report.bind ?_
  rintro payload _ ⟨rfl, rfl⟩
  have hword : payloadType.toUInt32.toNat = payloadType := by simpa using htype
  have hm : WellFormed { payloadType := payloadType.toUInt32, payload } := hsize
  refine Accepts.pure ⟨hm, ?_⟩
  rw [code_eq hm]
  simp only [hword, Code.append_assoc, Code.append_empty]

theorem length_bits_code {m : SeiMessage} (h : m.WellFormed) : m.code.bits.length = 8 * m.size := by
  rw [code_eq h, Code.append_assoc, (Parse.valid_byteSum _).bits_append,
    (Parse.valid_byteSum _).bits_append, List.length_append, List.length_append,
    Parse.length_bits_byteSum, Parse.length_bits_byteSum, Code.bits_bytes, Bits.length_ofBytes,
    size]
  omega

theorem valid_code {m : SeiMessage} (h : m.WellFormed) : m.code.Valid := by
  rw [code_eq h]
  exact ((Parse.valid_byteSum _).append (Parse.valid_byteSum _)).append (Code.valid_bytes _)

/-- Each message takes two bytes at least. -/
theorem le_length_bits_messages {ms : List SeiMessage} (h : ∀ m ∈ ms, m.WellFormed) :
    16 * ms.length ≤ (Code.concat (ms.map code)).bits.length := by
  induction ms with
  | nil => exact Nat.le_refl 0
  | cons m ms ih =>
    obtain ⟨hm, hms⟩ := List.forall_mem_cons.mp h
    have hlength := length_bits_code hm
    have hrest := ih hms
    unfold size at hlength
    rw [List.map_cons, Code.concat, (valid_code hm).bits_append, List.length_append,
      List.length_cons]
    omega

theorem reads_parseUpTo {ms : List SeiMessage} (h : ∀ m ∈ ms, m.WellFormed) (zeros : Nat)
    {count : Nat} (hcount : ms.length ≤ count) :
    Reads (parseUpTo count) (.concat (ms.map code)) (Bits.stop zeros) ms := by
  induction ms generalizing count with
  | nil =>
    cases count with
    | zero => exact Reads.pure _
    | succ count =>
      apply Parse.reads_moreData.report.look
      rw [List.map_nil, Code.concat, Code.bits_empty, List.nil_append, Bits.hasMore_stop]
      exact Reads.pure _
  | cons m ms ih =>
    obtain ⟨hm, hms⟩ := List.forall_mem_cons.mp h
    obtain ⟨count, rfl⟩ : ∃ n, count = n + 1 := ⟨count - 1, by simp at hcount; omega⟩
    have hne : (Code.concat ((m :: ms).map code)).bits ≠ [] := by
      have hlength := le_length_bits_messages h
      rintro hnil
      rw [hnil, List.length_cons, List.length_nil] at hlength
      omega
    apply Parse.reads_moreData.report.look
    rw [Bits.hasMore_append_stop hne, if_pos rfl]
    refine (reads_code hm).bind ?_
    exact (ih hms (by simpa using hcount)).bind_pure rfl

theorem accepts_parseUpTo (count : Nat) :
    Accepts (parseUpTo count) fun ms c =>
      (∀ m ∈ ms, m.WellFormed) ∧ c = .concat (ms.map code) := by
  induction count with
  | zero => exact Accepts.pure ⟨by simp, rfl⟩
  | succ count ih =>
    refine Parse.accepts_moreData.report.bind ?_
    rintro more _ rfl
    refine Accepts.ite (fun _ => ?_) fun _ => Accepts.pure ⟨by simp, rfl⟩
    refine accepts_parse.bind ?_
    rintro m _ ⟨hm, rfl⟩
    refine ih.bind ?_
    rintro ms _ ⟨hms, rfl⟩
    refine Accepts.pure ⟨List.forall_mem_cons.mpr ⟨hm, hms⟩, ?_⟩
    rw [Code.append_empty, Code.empty_append, List.map_cons, Code.concat]

theorem reads_parseAll {ms : List SeiMessage} (h : ∀ m ∈ ms, m.WellFormed) (zeros : Nat) :
    Reads parseAll (.concat (ms.map code)) (Bits.stop zeros) ms := by
  refine ⟨(reads_parseUpTo h zeros (Nat.le_refl _)).valid, fun r hr hrest => ?_⟩
  have hroom := Reader.length_le_remaining hrest
  have hlength := le_length_bits_messages h
  exact (reads_parseUpTo h zeros (by omega)).run r hr hrest

theorem accepts_parseAll : Accepts parseAll fun ms c =>
    (∀ m ∈ ms, m.WellFormed) ∧ c = .concat (ms.map code) :=
  Accepts.get fun _ => accepts_parseUpTo _

theorem atMost_code (m : SeiMessage) : m.code.AtMost (8 * m.size) := by
  by_cases h : m.WellFormed
  · exact (length_bits_code h).le
  · have hlength : ¬m.payload.length < 0x100000000 := h
    rw [code, if_neg hlength, Code.append_of_fault rfl, Code.append_of_fault rfl,
      Code.append_of_fault rfl]
    exact Nat.zero_le _

end SeiMessage

namespace AccessUnitDelimiter

theorem reads_code (d : AccessUnitDelimiter) : Reads parse d.code tail d := by
  obtain ⟨type⟩ := d
  cases type <;> exact (Parse.reads_u (by decide) (by decide)).bind_pure rfl

theorem valid_code (d : AccessUnitDelimiter) : d.code.Valid :=
  (d.reads_code : Reads parse d.code [] d).valid

theorem accepts_parse : Accepts parse fun d c => c = d.code := by
  refine (Parse.accepts_u (by decide)).bind ?_
  rintro type _ ⟨htype, rfl⟩
  have hcode : ∀ n < 2 ^ 3, (PrimaryPicType.ofCode n).code = n := by decide
  exact Accepts.pure (by rw [code, hcode type htype, Code.append_empty])

theorem atMost_code (d : AccessUnitDelimiter) : d.code.AtMost 3 := Code.atMost_u 3 _

end AccessUnitDelimiter

end AvcSyntax

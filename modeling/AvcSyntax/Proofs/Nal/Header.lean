import AvcSyntax.Nal.Header
import AvcSyntax.Proofs.Bits.Words

/-!
# Headers of NAL units are read back

A header fills one byte. What reading yields, whether or not it keeps the rules on headers, has
that byte as its only code, and the byte is never zero unless the type is.
-/
namespace AvcSyntax

variable {tail : Bits}

namespace UnitType

structure WellFormed (t : UnitType) : Prop where
  code_lt : t.code.toNat < 2 ^ 5
  ofCode_code : ofCode t.code = t

theorem wellFormed_ofCode {n : Nat} (h : n < 2 ^ 5) : (ofCode n.toUInt8).WellFormed := by
  have hall : ∀ n < 2 ^ 5, (ofCode n.toUInt8).code.toNat < 2 ^ 5 ∧
      ofCode (ofCode n.toUInt8).code = ofCode n.toUInt8 := by decide
  exact ⟨(hall n h).1, (hall n h).2⟩

theorem toNat_code_ofCode {n : Nat} (h : n < 2 ^ 5) : (ofCode n.toUInt8).code.toNat = n := by
  have hall : ∀ n < 2 ^ 5, (ofCode n.toUInt8).code.toNat = n := by decide
  exact hall n h

theorem ofCode_congr {m n : UInt8} (h : m.toNat % 32 = n.toNat % 32) : ofCode m = ofCode n := by
  simp only [ofCode, h]

end UnitType

namespace NalHeader

structure WellFormed (h : NalHeader) : Prop where
  refIdc : h.refIdc.toNat ≤ 3
  unitType : h.unitType.WellFormed

variable {h : NalHeader}

theorem code_eq (hrefIdc : h.refIdc.toNat ≤ 3) :
    h.code = .flag false ++ (.u 2 h.refIdc.toNat ++ .u 5 h.unitType.code.toNat) := by
  rw [code, Code.inRange_eq_empty (by omega) (by omega), Code.empty_append, Code.append_assoc]

theorem reads_code (hwf : h.WellFormed) : Reads parse h.code tail h := by
  have hrefIdc := hwf.refIdc
  have htype := hwf.unitType
  rw [code_eq hrefIdc]
  refine (Parse.reads_flag false).report.bind ?_
  refine (Parse.reads_u (by decide) (by omega)).report.bind ?_
  refine (Parse.reads_u (by decide) htype.code_lt).report.bind_pure ?_
  simp only [Nat.toUInt8, UInt8.ofNat_toNat, htype.ofCode_code]

theorem valid_code (hwf : h.WellFormed) : h.code.Valid :=
  (reads_code hwf : Reads parse h.code [] h).valid

theorem accepts_parse : Accepts parse fun h c => h.WellFormed ∧ c = h.code := by
  refine Parse.accepts_flag.report.bind ?_
  rintro (_ | _) _ rfl
  · refine Accepts.bind (Parse.accepts_u (by decide)).report ?_
    rintro refIdc _ ⟨hrefIdc, rfl⟩
    refine Accepts.bind (Parse.accepts_u (by decide)).report ?_
    rintro type _ ⟨htype, rfl⟩
    have hword : refIdc.toUInt8.toNat = refIdc := by
      simp
      omega
    have hle : refIdc.toUInt8.toNat ≤ 3 := by omega
    refine Accepts.pure ⟨⟨hle, UnitType.wellFormed_ofCode htype⟩, ?_⟩
    rw [code_eq hle]
    simp only [hword, UnitType.toNat_code_ofCode htype, Code.append_empty]
  · exact Accepts.throw _

theorem bits_code (hwf : h.WellFormed) :
    h.code.bits =
      false :: (Bits.ofNat 2 h.refIdc.toNat ++ Bits.ofNat 5 h.unitType.code.toNat) := by
  rw [code_eq hwf.refIdc, (Code.valid_flag _).bits_append, Code.bits_append rfl, Code.bits_flag,
    Code.bits_u, Code.bits_u, List.singleton_append]

theorem length_bits_code (hwf : h.WellFormed) : h.code.bits.length = 8 := by
  rw [bits_code hwf]
  simp only [List.length_cons, List.length_append, Bits.length_ofNat]

theorem unitType_of_parse {b : UInt8} {plain : List UInt8} {trace : Trace}
    {s : Reader} (hs : parse { data := (b :: plain).toArray, trace } = .ok h s) :
    h.unitType = .ofCode b := by
  obtain ⟨_, -, hmoves, hwf, rfl⟩ := accepts_parse _ h s (Reader.inBounds_start _ trace) hs
  have hrest := hmoves.rest
  rw [Reader.rest_start, Bits.ofBytes_cons] at hrest
  have hfirst : Bits.ofByte b = h.code.bits :=
    (List.append_inj hrest (by rw [length_bits_code hwf]; rfl)).1
  have hlow : Bits.ofNat 5 b.toNat = Bits.ofNat 5 h.unitType.code.toNat := by
    have hdrop := congrArg (List.drop 3) hfirst
    rw [bits_code hwf] at hdrop
    exact hdrop
  have hcode := congrArg Bits.toNat hlow
  rw [Bits.toNat_ofNat, Bits.toNat_ofNat] at hcode
  rw [← hwf.unitType.ofCode_code]
  exact UnitType.ofCode_congr hcode.symm

end NalHeader

end AvcSyntax

import AvcSyntax.Proofs.Bits.Words
import AvcSyntax.Slice.PredWeightTable

/-!
# Tables of weights are read back

A table that reading yields has an entry for each active reference picture, so that nothing is
added to it when it is written.
-/
namespace AvcSyntax

variable {tail : Bits}

namespace WeightOffset

structure WellFormed (w : WeightOffset) : Prop where
  weight : -128 ≤ w.weight.toInt ∧ w.weight.toInt ≤ 127
  offset : -2 ^ 13 ≤ w.offset.toInt ∧ w.offset.toInt ≤ 2 ^ 13 - 1

theorem reads_code {w : WeightOffset} (h : w.WellFormed) : Reads parse w.code tail w := by
  refine (Parse.reads_seWithin h.weight.1 h.weight.2).bind
    ((Parse.reads_seWithin h.offset.1 h.offset.2).bind_pure ?_)
  simp only [Int32.ofInt_toInt]

theorem accepts_parse : Accepts parse fun w c => w.WellFormed ∧ c = w.code := by
  refine Accepts.bind Parse.accepts_seWithin32 ?_
  rintro _ _ ⟨weight, rfl, hweight, rfl⟩
  refine Accepts.bind Parse.accepts_seWithin32 ?_
  rintro _ _ ⟨offset, rfl, hoffset, rfl⟩
  simp only [Int32.ofInt_toInt]
  exact Accepts.pure ⟨⟨hweight, hoffset⟩, by rw [Code.append_empty, code]⟩

theorem atMost_code (w : WeightOffset) : w.code.AtMost 130 :=
  (Code.atMost_se _).append (Code.atMost_se _)

end WeightOffset

namespace PredWeight

structure WellFormed (w : PredWeight) (hasChroma : Bool) : Prop where
  luma : ∀ o ∈ w.luma, o.WellFormed
  chroma : ∀ c ∈ w.chroma, c.1.WellFormed ∧ c.2.WellFormed
  chroma_absent : ¬hasChroma = true → w.chroma = none

variable {hasChroma : Bool}

theorem reads_code {w : PredWeight} (h : w.WellFormed hasChroma) :
    Reads (parse hasChroma) (w.code hasChroma) tail w := by
  have hchroma (c : WeightOffset × WeightOffset) (hc : c ∈ w.chroma) :
      Reads (do return (← WeightOffset.parse, ← WeightOffset.parse)) (c.1.code ++ c.2.code) tail
        c :=
    (WeightOffset.reads_code (h.chroma c hc).1).bind
      ((WeightOffset.reads_code (h.chroma c hc).2).bind_pure rfl)
  simp only [parse, ite_bind]
  refine (Parse.reads_optional fun o ho => WeightOffset.reads_code (h.luma o ho)).bind ?_
  exact (Reads.onlyIf (fun _ => Parse.reads_optional hchroma) h.chroma_absent).bind_pure rfl

theorem accepts_parse :
    Accepts (parse hasChroma) fun w c => w.WellFormed hasChroma ∧ c = w.code hasChroma := by
  have hpair : Accepts (do return (← WeightOffset.parse, ← WeightOffset.parse) :
      Parse (WeightOffset × WeightOffset)) fun c d =>
        (c.1.WellFormed ∧ c.2.WellFormed) ∧ d = c.1.code ++ c.2.code := by
    refine WeightOffset.accepts_parse.bind ?_
    rintro cb _ ⟨hcb, rfl⟩
    refine WeightOffset.accepts_parse.bind ?_
    rintro cr _ ⟨hcr, rfl⟩
    exact Accepts.pure ⟨⟨hcb, hcr⟩, by rw [Code.append_empty]⟩
  simp only [parse, ite_bind]
  refine (Parse.accepts_optional WeightOffset.accepts_parse).bind ?_
  rintro luma _ ⟨hluma, rfl⟩
  refine (Accepts.onlyIf fun _ => Parse.accepts_optional hpair).bind ?_
  rintro chroma _ ⟨⟨hchroma, habsent⟩, rfl⟩
  refine Accepts.pure ⟨⟨hluma, fun c hc => ?_, habsent⟩, by rw [Code.append_empty]; rfl⟩
  by_cases hset : hasChroma = true
  · exact hchroma hset c hc
  · rw [habsent hset] at hc
    simp at hc

theorem atMost_code (w : PredWeight) : (w.code hasChroma).AtMost 400 :=
  ((Code.AtMost.optional fun o _ => o.atMost_code).append
    (Code.AtMost.onlyIf fun _ => Code.AtMost.optional fun c _ =>
      c.1.atMost_code.append c.2.atMost_code)).mono (by decide)

end PredWeight

namespace PredWeightTable

structure WellFormed (t : PredWeightTable) (chromaArrayType l0Minus1 : UInt8)
    (l1Minus1 : Option UInt8) : Prop where
  lumaLog2WeightDenom : t.lumaLog2WeightDenom.toNat ≤ 7
  chromaLog2WeightDenom : t.chromaLog2WeightDenom.toNat ≤ 7
  chromaLog2WeightDenom_absent : ¬(chromaArrayType != 0) = true → t.chromaLog2WeightDenom = 0
  length_l0 : t.l0.length = l0Minus1.toNat + 1
  length_l1 : t.l1.length = entryCount l1Minus1
  l0 : ∀ w ∈ t.l0, w.WellFormed (chromaArrayType != 0)
  l1 : ∀ w ∈ t.l1, w.WellFormed (chromaArrayType != 0)

variable {chromaArrayType l0Minus1 : UInt8} {l1Minus1 : Option UInt8}

theorem padded_length (ws : List PredWeight) : padded ws.length ws = ws := by
  rw [padded, List.take_length, Nat.sub_self, List.replicate_zero, List.append_nil]

theorem length_padded {count : Nat} (ws : List PredWeight) : (padded count ws).length = count := by
  rw [padded, List.length_append, List.length_take, List.length_replicate]
  omega

/-- No number of entries leaves its word. -/
theorem checkedCount_eq (countMinus1 : Option UInt8) :
    checkedCount countMinus1 = .ok (entryCount countMinus1) := by
  refine natWord_eq ?_
  cases countMinus1 with
  | none => exact Nat.pow_pos (by decide)
  | some n => exact Nat.lt_of_lt_of_le (Nat.succ_lt_succ n.toNat_lt) (by decide)

theorem code_eq {t : PredWeightTable} (hl0 : t.l0.length = l0Minus1.toNat + 1)
    (hl1 : t.l1.length = entryCount l1Minus1) :
    t.code chromaArrayType l0Minus1 l1Minus1 =
      .ue t.lumaLog2WeightDenom.toNat ++
      (.onlyIf (chromaArrayType != 0) (.ue t.chromaLog2WeightDenom.toNat) ++
      (.concat (t.l0.map (PredWeight.code (chromaArrayType != 0))) ++
      .concat (t.l1.map (PredWeight.code (chromaArrayType != 0))))) := by
  have hcount : entryCount (some l0Minus1) = l0Minus1.toNat + 1 := rfl
  simp only [code, checkedCount_eq, Code.checked, hcount, ← hl0, ← hl1, padded_length,
    Code.append_assoc]
  rw [Code.inRange_eq_empty (by omega) (by omega), Code.empty_append,
    Code.inRange_eq_empty (by omega) (by omega), Code.empty_append]

theorem reads_code {t : PredWeightTable}
    (h : t.WellFormed chromaArrayType l0Minus1 l1Minus1) :
    Reads (parse chromaArrayType l0Minus1 l1Minus1) (t.code chromaArrayType l0Minus1 l1Minus1)
      tail t := by
  rw [code_eq h.length_l0 h.length_l1]
  simp only [parse, ite_bind]
  refine (Parse.reads_ueUpTo h.lumaLog2WeightDenom).bind ?_
  refine (Reads.onlyIf (fun _ => Parse.reads_ueUpTo h.chromaLog2WeightDenom)
    fun habsent => ?_).bind ?_
  · rw [h.chromaLog2WeightDenom_absent habsent]
    rfl
  rw [← h.length_l0, ← h.length_l1]
  refine (Parse.reads_times fun w hw _ => PredWeight.reads_code (h.l0 w hw)).bind ?_
  refine (Parse.reads_times fun w hw _ => PredWeight.reads_code (h.l1 w hw)).bind_pure ?_
  simp only [Nat.toUInt8, UInt8.ofNat_toNat]

theorem accepts_parse :
    Accepts (parse chromaArrayType l0Minus1 l1Minus1) fun t c =>
      t.WellFormed chromaArrayType l0Minus1 l1Minus1 ∧
        c = t.code chromaArrayType l0Minus1 l1Minus1 := by
  simp only [parse, ite_bind]
  refine Accepts.bind Parse.accepts_ueUpTo8 ?_
  rintro _ _ ⟨luma, rfl, hluma, rfl⟩
  refine Accepts.bind (Accepts.onlyIf fun _ => Parse.accepts_ueUpTo) ?_
  rintro chroma _ ⟨⟨hchroma, habsent⟩, rfl⟩
  refine (Parse.accepts_times PredWeight.accepts_parse _).bind ?_
  rintro l0 _ ⟨hlength0, hl0, rfl⟩
  refine (Parse.accepts_times PredWeight.accepts_parse _).bind ?_
  rintro l1 _ ⟨hlength1, hl1, rfl⟩
  have hle : chroma ≤ 7 := by
    by_cases hset : (chromaArrayType != 0) = true
    · exact hchroma hset
    · rw [habsent hset]
      decide
  have hword : chroma.toUInt8.toNat = chroma := by
    simp
    omega
  have hluma' : luma.toNat.toUInt8 = luma := by simp
  refine Accepts.pure ⟨⟨hluma'.symm ▸ hluma, hword.symm ▸ hle, fun hset => ?_, hlength0, hlength1,
    hl0, hl1⟩, ?_⟩
  · rw [habsent hset]
    rfl
  · rw [code_eq hlength0 hlength1]
    simp only [hword, hluma', Code.append_empty]

theorem atMost_code (t : PredWeightTable) (hl0 : l0Minus1.toNat ≤ 31)
    (hl1 : ∀ n ∈ l1Minus1, n.toNat ≤ 31) :
    (t.code chromaArrayType l0Minus1 l1Minus1).AtMost 26000 := by
  have hcount : entryCount l1Minus1 ≤ 32 := by
    cases l1Minus1 with
    | none => exact Nat.zero_le _
    | some n => exact Nat.succ_le_succ (hl1 n rfl)
  have hentries (count : Nat) (ws : List PredWeight) :
      (Code.concat ((padded count ws).map (PredWeight.code (chromaArrayType != 0)))).AtMost
        (count * 400) := by
    have hconcat := Code.AtMost.concat fun (w : PredWeight) (_ : w ∈ padded count ws) =>
      (w.atMost_code : (w.code (chromaArrayType != 0)).AtMost 400)
    rwa [length_padded] at hconcat
  rw [code, checkedCount_eq, checkedCount_eq]
  refine ((((((Code.atMost_inRange _ _ _ _).append (Code.atMost_inRange _ _ _ _)).append
    (Code.atMost_ue _)).append (Code.AtMost.onlyIf fun _ => Code.atMost_ue _)).append
    (hentries _ t.l0)).append (hentries _ t.l1)).mono ?_
  omega

end PredWeightTable

end AvcSyntax

import AvcSyntax.Proofs.Canonical.SliceHeader
import AvcSyntax.Proofs.Slice.Overflow

/-!
# The width of the count of slice group changes

The standard gives the width as a logarithm of a quotient, rounded up. The library searches for the
least width whose power of two is large enough, which is the same up to the largest width that is
searched. No step of the search overflows.

What the width is for follows from it: a count up to the number of changes that a picture of the
size can have fits the field, so that a header with that count is built wherever the header without
it is, and the count is read back.
-/
namespace AvcSyntax

section Width

variable {size n width : Nat} {rate : UInt32}

/-- That the size may be cut to the largest word makes no difference. -/
theorem saturate_le_iff {rate : Nat} (hrate : rate < 2 ^ 32) (hn : n < 32) :
    saturate (size + rate) ≤ rate <<< n ↔ size + rate ≤ rate * 2 ^ n := by
  have hpow : 2 ^ n ≤ 2 ^ 31 := Nat.pow_le_pow_right (by decide) (by omega)
  have hmoved : rate * 2 ^ n < 2 ^ 63 :=
    calc rate * 2 ^ n ≤ rate * 2 ^ 31 := Nat.mul_le_mul_left _ hpow
      _ < 2 ^ 63 := by omega
  rw [Nat.shiftLeft_eq, saturate]
  omega

/-- The search passes the widths whose power of two is too small. -/
theorem groupChangeCycleBits_le_iff (hrate : 1 ≤ rate.toNat)
    (hwidth : groupChangeCycleBits size rate = .ok width) (hn : n < 32) :
    width ≤ n ↔ size + rate.toNat ≤ rate.toNat * 2 ^ n := by
  have henough {m : Nat} (hm : m < 32) : saturate (size + rate.toNat) ≤ rate.toNat <<< m ↔
      size + rate.toNat ≤ rate.toNat * 2 ^ m := saturate_le_iff rate.toNat_lt hm
  obtain ⟨m, -, hfound, hpassed, hstopped⟩ := exists_groupChangeCycleBits size rate
  obtain rfl : m = width := Except.ok.inj (hfound.symm.trans hwidth)
  rw [Nat.max_eq_left hrate] at hpassed hstopped
  constructor
  · intro hle
    have hsize := (henough (by omega)).mp (hstopped (by omega))
    exact hsize.trans (Nat.mul_le_mul_left _ (Nat.pow_le_pow_right (by decide) hle))
  · intro hlarge
    by_contra hlt
    have hsmall := hpassed n (Nat.not_le.mp hlt)
    exact absurd ((henough hn).mpr hlarge) (Nat.not_le.mpr hsmall)

/-- The logarithm is compared in the same way. -/
theorem ceil_logb_le_iff {rate : Nat} (hrate : 1 ≤ rate) :
    ⌈Real.logb 2 ((size : ℝ) / rate + 1)⌉ ≤ (n : ℤ) ↔ size + rate ≤ rate * 2 ^ n := by
  have hpos : (0 : ℝ) < rate := by exact_mod_cast hrate
  have hquotient : (size : ℝ) / rate + 1 = (size + rate) / rate := by
    rw [add_div, div_self hpos.ne']
  rw [Int.ceil_le, Real.logb_le_iff_le_rpow one_lt_two (by positivity), Int.cast_natCast,
    Real.rpow_natCast, hquotient, div_le_iff₀ hpos, mul_comm]
  exact_mod_cast Iff.rfl

theorem exists_groupChangeCycleBits_eq (size : Nat) (hrate : 1 ≤ rate.toNat) :
    ∃ width, groupChangeCycleBits size rate = .ok width ∧
      (width : ℤ) = min 32 ⌈Real.logb 2 ((size : ℝ) / rate.toNat + 1)⌉ := by
  obtain ⟨width, hle, hwidth, -⟩ := exists_groupChangeCycleBits size rate
  refine ⟨width, hwidth, ?_⟩
  have hiff {n : Nat} (hn : n < 32) : width ≤ n ↔
      ⌈Real.logb 2 ((size : ℝ) / rate.toNat + 1)⌉ ≤ (n : ℤ) :=
    (groupChangeCycleBits_le_iff hrate hwidth hn).trans (ceil_logb_le_iff hrate).symm
  have hnonneg : 0 ≤ ⌈Real.logb 2 ((size : ℝ) / rate.toNat + 1)⌉ :=
    Int.ceil_nonneg (Real.logb_nonneg one_lt_two (le_add_of_nonneg_left (by positivity)))
  generalize ⌈Real.logb 2 ((size : ℝ) / rate.toNat + 1)⌉ = log at hiff hnonneg
  have hlow : width < 32 → log ≤ width := fun hlt => (hiff hlt).mp (Nat.le_refl _)
  have hhigh : log.toNat < 32 → width ≤ log.toNat := fun hlt => (hiff hlt).mpr (by omega)
  omega

/-- A width below the largest has room for as many changes as there are rates in the size, rounded
up. -/
theorem lt_of_le_ceil {cycle : Nat} (hrate : 1 ≤ rate.toNat)
    (hwidth : groupChangeCycleBits size rate = .ok width) (hsmall : width < 32)
    (hcycle : cycle ≤ ⌈(size : ℚ) / rate.toNat⌉₊) : cycle < 2 ^ width := by
  have hpos : (0 : ℚ) < rate.toNat := by exact_mod_cast hrate
  have henough := (groupChangeCycleBits_le_iff hrate hwidth hsmall).mp (Nat.le_refl _)
  have hpow := Nat.one_le_two_pow (n := width)
  have hsize : size ≤ (2 ^ width - 1) * rate.toNat := by
    rw [Nat.sub_mul, one_mul, mul_comm]
    omega
  have hceil : ⌈(size : ℚ) / rate.toNat⌉₊ ≤ 2 ^ width - 1 := by
    rw [Nat.ceil_le, div_le_iff₀ hpos]
    exact_mod_cast hsize
  omega

end Width

theorem Code.Valid.writable {c : Code} (h : c.Valid) : c.Writable := by
  refine ⟨h.1, fun f hf => ?_⟩
  have hfits := h.2 f hf
  cases f with
  | number width value => exact hfits.2
  | bytes bs => trivial

theorem Pps.one_le_of_changeRate {pps : Pps} {rate : UInt32}
    (h : pps.sliceGroupChangeRate? = some rate) : 1 ≤ rate.toNat := by
  obtain ⟨groups, -, hrate⟩ := Option.bind_eq_some_iff.mp h
  rw [SliceGroups.changeRate?] at hrate
  split at hrate
  · rename_i rateMinus1 _
    cases hrate
    have hword := rateMinus1.toNat_lt
    rw [Nat.toUInt32, UInt32.toNat_ofNat']
    omega
  · cases hrate

namespace SliceHeader

variable {h : SliceHeader} {nal : NalHeader} {pps : Pps} {sps : Sps} {sets : ParameterSets}

/-- Nothing in front of the count depends on it. -/
theorem bodyCode_setChangeCycle (h : SliceHeader) (nal : NalHeader) (pps : Pps) (sps : Sps)
    (cycle : UInt32) :
    (h.setChangeCycle cycle).bodyCode nal pps sps =
      h.bodyCode nal pps.ungrouped sps ++ changeCycleCode pps sps cycle := by
  rw [bodyCode_eq_append]
  refine Code.append_congr ?_ rfl
  have hcounts : (h.setChangeCycle cycle).effectiveRefCounts pps.ungrouped =
      h.effectiveRefCounts pps.ungrouped := rfl
  rcases heff : h.effectiveRefCounts pps.ungrouped with ⟨l0Minus1, l1Minus1⟩
  simp only [bodyCode, hcounts, heff]
  rfl

theorem length_bits_changeCycleCode (cycle cycle' : UInt32) :
    (changeCycleCode pps sps cycle).bits.length =
      (changeCycleCode pps sps cycle').bits.length := by
  rw [changeCycleCode, changeCycleCode]
  cases pps.sliceGroupChangeRate? with
  | none => rfl
  | some rate =>
    simp only [Code.sized, Code.checked]
    cases sps.changeCycleBits rate with
    | error fault => rfl
    | ok width => simp only [Code.bits_u, Bits.length_ofNat]

/-- What reading checks of a header has nothing to do with the count of changes. -/
theorem InRange.setChangeCycle (hrange : h.InRange pps sps) (cycle : UInt32) :
    (h.setChangeCycle cycle).InRange pps sps :=
  ⟨hrange.picOrder, hrange.predWeightTable, hrange.qpDelta, hrange.qsDelta, hrange.deblocking⟩

/-- What can be written with one count can be written with any other that fits the field, in as
many bits. -/
theorem setChangeCycle_of_valid {rate cycle cycle' : UInt32} {width : Nat}
    (hrate : pps.sliceGroupChangeRate? = some rate)
    (hwidth : sps.changeCycleBits rate = .ok width) (hcycle : cycle'.toNat < 2 ^ width)
    (hcode : (h.openingCode ++ (h.setChangeCycle cycle).bodyCode nal pps sps).Valid) :
    (h.openingCode ++ (h.setChangeCycle cycle').bodyCode nal pps sps).Valid ∧
      (h.openingCode ++ (h.setChangeCycle cycle').bodyCode nal pps sps).bits.length =
        (h.openingCode ++ (h.setChangeCycle cycle).bodyCode nal pps sps).bits.length := by
  have hbits := Sps.changeCycleBits_le hwidth
  have hcount : (changeCycleCode pps sps cycle').Valid := by
    rw [changeCycleCode, hrate]
    simp only [Code.sized, Code.checked_eq hwidth]
    exact Code.valid_u (by omega) hcycle
  rw [bodyCode_setChangeCycle, ← Code.append_assoc] at hcode ⊢
  rw [bodyCode_setChangeCycle, ← Code.append_assoc]
  have hfront := (Code.valid_append.mp hcode).1
  refine ⟨hfront.append hcount, ?_⟩
  rw [hfront.bits_append, hfront.bits_append, List.length_append, List.length_append,
    length_bits_changeCycleCode cycle' cycle]

/-- Known parameter sets and room for the code are also all that building a header takes. -/
theorem build_of_write {w v : Writer} (hsets : sets.resolve h.ppsId = .ok (pps, sps))
    (hwrite : (h.openingCode ++ h.bodyCode nal pps sps).write w = .ok () v) :
    h.build nal sets w = .ok () v := by
  have hcode : h.code nal sets = .ok (h.openingCode ++ h.bodyCode nal pps sps) := by
    rw [code, hsets]
    rfl
  rw [build, hcode]
  exact reportFaults_eq_ok.mpr hwrite

theorem reads_canonical (tail : Bits) (hsets : sets.resolve h.ppsId = .ok (pps, sps))
    (hrange : h.InRange pps sps) (hbody : (h.bodyCode nal pps sps).Writable) :
    Reads (parse nal sets) (h.openingCode ++ h.bodyCode nal pps sps) tail
      (h.canonical nal pps sps) := by
  have hcode : (h.canonical nal pps sps).openingCode ++
      (h.canonical nal pps sps).bodyCode nal pps sps =
      h.openingCode ++ h.bodyCode nal pps sps := by
    rw [bodyCode_canonical hbody]
    rfl
  exact hcode ▸ reads_code hsets (hrange.wellFormed hbody)

theorem fills_of_setChangeCycle {w v : Writer} {cycle : UInt32}
    (hsets : sets.resolve h.ppsId = .ok (pps, sps)) (hrange : h.InRange pps sps)
    (hbuild : (h.setChangeCycle cycle).build nal sets w = .ok () v) :
    (h.openingCode ++ (h.setChangeCycle cycle).bodyCode nal pps sps).Valid ∧
      w.Fills (h.openingCode ++ (h.setChangeCycle cycle).bodyCode nal pps sps).bits v := by
  obtain ⟨_, _, hfound, hwrite⟩ := exists_write_of_build hbuild
  obtain ⟨rfl, rfl⟩ := Prod.mk.inj (Except.ok.inj (hsets.symm.trans hfound))
  have hbody := (Code.writable_append.mp (Code.writable_of_write hwrite)).2
  have hreads := reads_canonical (h := h.setChangeCycle cycle) [] hsets
    (hrange.setChangeCycle cycle) hbody
  exact ⟨hreads.valid, hreads.valid.fills_of_write hwrite⟩

theorem exists_changeCycleBits_of_valid {rate cycle : UInt32}
    (hrate : pps.sliceGroupChangeRate? = some rate)
    (hcode : (h.openingCode ++ (h.setChangeCycle cycle).bodyCode nal pps sps).Valid) :
    ∃ size width, sps.sizeInMapUnits = .ok size ∧ groupChangeCycleBits size rate = .ok width ∧
      sps.changeCycleBits rate = .ok width := by
  rw [bodyCode_setChangeCycle, ← Code.append_assoc] at hcode
  have hsize : ¬sps.SizeOverflows := by
    intro hover
    have hcount := (Code.valid_append.mp hcode).2
    rw [changeCycleCode_of_overflows ⟨by rw [hrate]; rfl, hover⟩] at hcount
    cases hcount.1
  obtain ⟨width, hwidth⟩ := Sps.exists_changeCycleBits hsize rate
  have hunits := Sps.sizeInMapUnits_eq hsize
  refine ⟨_, width, hunits, ?_, hwidth⟩
  rwa [Sps.changeCycleBits, hunits, ok_bind] at hwidth

/-- The width of the count of slice group changes is the one that the standard gives, up to 32 bits,
for any size and any rate, and computing it does not overflow. So any count up to the number of
changes that the picture can have survives, as long as the width is below 32 bits: if a header can
be built without a count, its size is known, and it can be built with this one, in the same number
of bits, and wherever it is read the count is read back. -/
theorem groupChangeCycle_exact :
    (∀ (size : UInt64) (rate : UInt32), 1 ≤ rate →
      ∃ width, groupChangeCycleBits size.toNat rate = .ok width ∧
        (width : ℤ) = min 32 ⌈Real.logb 2 ((size.toNat : ℝ) / rate.toNat + 1)⌉) ∧
    ∀ (h : SliceHeader) (nal : NalHeader) (sets : ParameterSets) (pps : Pps) (sps : Sps)
      (rate : UInt32) (w v : Writer), sets.resolve h.ppsId = .ok (pps, sps) →
      pps.sliceGroupChangeRate? = some rate → h.InRange pps sps →
      (h.setChangeCycle 0).build nal sets w = .ok () v →
      ∃ size width, sps.sizeInMapUnits = .ok size ∧ groupChangeCycleBits size rate = .ok width ∧
        (width < 32 → ∀ cycle : UInt32, cycle.toNat ≤ ⌈(size : ℚ) / rate.toNat⌉₊ →
          ∃ u, (h.setChangeCycle cycle).build nal sets w = .ok () u ∧ u.pos = v.pos ∧
            ({ data := u.data, pos := w.pos } : Reader).Follows w u ∧
            ((h.setChangeCycle cycle).canonical nal pps sps).groupChangeCycle = cycle ∧
            ∀ r : Reader, r.Follows w u →
              ∃ s, parse nal sets r = .ok ((h.setChangeCycle cycle).canonical nal pps sps) s ∧
                s.pos = u.pos ∧ s.overrun = r.overrun) := by
  constructor
  · intro size rate hrate
    exact exists_groupChangeCycleBits_eq size.toNat hrate
  · intro h nal sets pps sps rate w v hsets hrate hrange hbuild
    obtain ⟨hvalid, hfilled⟩ := fills_of_setChangeCycle hsets hrange hbuild
    obtain ⟨size, width, hsize, hwidth, hcount⟩ := exists_changeCycleBits_of_valid hrate hvalid
    refine ⟨size, width, hsize, hwidth, fun hsmall cycle hcycle => ?_⟩
    have hfits := lt_of_le_ceil (Pps.one_le_of_changeRate hrate) hwidth hsmall hcycle
    obtain ⟨hvalid', hlength⟩ := setChangeCycle_of_valid hrate hcount hfits hvalid
    have hroom := hfilled.room
    rw [← hlength] at hroom
    obtain ⟨u, hwrite, hmoves⟩ := hvalid'.appends w hroom
    have hbuild' : (h.setChangeCycle cycle).build nal sets w = .ok () u :=
      build_of_write hsets hwrite
    have hbody := (Code.valid_append.mp hvalid').2.writable
    have hkept : ((h.setChangeCycle cycle).canonical nal pps sps).groupChangeCycle = cycle := by
      rw [canonical, hrate, Option.isSome_some, if_pos rfl, setChangeCycle]
    have hreads (tail : Bits) :=
      reads_canonical (h := h.setChangeCycle cycle) tail hsets (hrange.setChangeCycle cycle) hbody
    have hne := h.bits_code_ne_nil ((h.setChangeCycle cycle).bodyCode nal pps sps)
    have hfills := hvalid'.fills_of_write hwrite
    have hpos : u.pos = v.pos := by rw [hmoves.pos, hfilled.moves.pos, hlength]
    exact ⟨u, hbuild', hpos, hfills.follows hne, hkept,
      fun r hr => Reads.of_fills hreads hfills hne hr⟩

/-- Five map units of which two are added at a time: after three changes the map has grown as far
as it can, and both bits of the width are needed to say so. -/
theorem groupChangeCycle_exact_five :
    let nal : NalHeader := ⟨0, .nonIdrSlice⟩
    let pps : Pps := { sliceGroups := some { map := .changing 3 true 1 } }
    let sps : Sps := { picWidthInMbsMinus1 := 4 }
    let sets : ParameterSets := { sps := fun _ => some sps, pps := fun _ => some pps }
    let h : SliceHeader := { groupChangeCycle := 3 }
    let w : Writer := { data := Array.replicate 4 0 }
    (∃ width, groupChangeCycleBits 5 2 = .ok width ∧
        (width : ℤ) = min 32 ⌈Real.logb 2 (((5 : ℕ) : ℝ) / (2 : ℕ) + 1)⌉) ∧
      groupChangeCycleBits 5 2 = .ok 2 ∧
      ∃ u s, h.build nal sets w = .ok () u ∧ parse nal sets { data := u.data } = .ok h s := by
  intro nal pps sps sets h w
  have hexact := groupChangeCycle_exact.1 5 2 (by decide)
  have hwidth : groupChangeCycleBits 5 2 = .ok 2 := by decide
  have hrange : h.InRange pps sps := by
    constructor
    case picOrder =>
      intro hset
      cases hset
    case predWeightTable =>
      intro hset
      cases hset
    case qpDelta => decide
    case qsDelta =>
      intro hset
      cases hset
    case deblocking =>
      intro hset
      cases hset
  have hbuild : (h.setChangeCycle 0).build nal sets w = .ok ()
      { data := #[224, 4, 0, 0], pos := 16 } := by cbv
  obtain ⟨size, width, hsize, hsearch, hsurvives⟩ := groupChangeCycle_exact.2 h nal sets pps sps 2
    w _ rfl (by decide) hrange hbuild
  obtain rfl : 5 = size := Except.ok.inj ((by decide : (.ok 5 : Except Fault Nat) =
    sps.sizeInMapUnits).trans hsize)
  obtain rfl : 2 = width := Except.ok.inj (hwidth.symm.trans hsearch)
  have hcycle : (3 : UInt32).toNat ≤ ⌈((5 : ℕ) : ℚ) / (2 : UInt32).toNat⌉₊ := by
    have hrate : (2 : UInt32).toNat = 2 := rfl
    rw [hrate]
    exact Nat.succ_le_of_lt (Nat.lt_ceil.mpr (by norm_num))
  obtain ⟨u, hu, -, hself, -, hread⟩ := hsurvives (by decide) 3 hcycle
  have hcanonical : (h.setChangeCycle 3).canonical nal pps sps = h := by decide
  obtain ⟨s, hs, -⟩ := hread _ hself
  exact ⟨hexact, hwidth, u, s, hu, hcanonical ▸ hs⟩

end SliceHeader

end AvcSyntax

import AvcSyntax.Proofs.Stream.NalUnit
import AvcSyntax.Stream.Basic

/-!
# Streams are read back

The parameter sets of a stream stay well formed whatever it reads. From such a stream a unit that
was read can be written, under the parameter sets that include its own, and reading what was
written does to the stream what reading the unit did. A slice with its data is even written as the
bytes that were read. By induction over the units this carries over from units to whole byte
streams.
-/
namespace AvcSyntax

namespace ParameterSets

/-- The collection once a unit with some payload has been read. -/
def keep (sets : ParameterSets) : NalPayload → Except NalError ParameterSets
  | .sps s => sets.insertSps s
  | .pps p => .ok (sets.insertPps p)
  | _ => .ok sets

variable {sets later : ParameterSets} {header : NalHeader} {p : NalPayload} {bs : Bits}

theorem WellFormed.keep (hsets : sets.WellFormed) (h : p.Coded header sets bs)
    (hkeep : sets.keep p = .ok later) : later.WellFormed := by
  cases h with
  | sps _ h => exact hsets.insertSps h hkeep
  | pps _ h =>
    obtain rfl := Except.ok.inj hkeep
    exact hsets.insertPps h
  | _ =>
    obtain rfl := Except.ok.inj hkeep
    exact hsets

/-- A parameter set that is known already changes nothing. -/
theorem keep_keep (hkeep : sets.keep p = .ok later) : later.keep p = .ok later := by
  cases p with
  | sps s => exact insertSps_again hkeep
  | pps p =>
    obtain rfl := Except.ok.inj hkeep
    exact congrArg Except.ok (insertPps_again p)
  | _ => rfl

end ParameterSets

/-- The payload of a unit is coded in the same way once it is known itself. -/
theorem NalPayload.Coded.keep {sets later : ParameterSets} {header : NalHeader} {p : NalPayload}
    {bs : Bits} (h : p.Coded header sets bs) (hkeep : sets.keep p = .ok later) :
    p.Coded header later bs := by
  cases h with
  | sps htype h => exact .sps htype h
  | pps htype h =>
    obtain rfl := Except.ok.inj hkeep
    exact .pps htype h
  | slice htype h =>
    obtain rfl := Except.ok.inj hkeep
    exact .slice htype h
  | sei htype h => exact .sei htype h
  | accessUnitDelimiter htype => exact .accessUnitDelimiter htype
  | endOfSequence htype => exact .endOfSequence htype
  | endOfStream htype => exact .endOfStream htype

theorem NalUnit.WrittenAs.keep {config : StreamConfig} {sets later : ParameterSets} {u : NalUnit}
    {w : List UInt8} (h : u.WrittenAs config sets w) (hkeep : sets.keep u.payload = .ok later) :
    u.WrittenAs config later w := by
  obtain ⟨plain, hcoded, hw⟩ := h
  obtain ⟨hwf, hrule, bs, hpayload, hbits⟩ := hcoded
  exact ⟨plain, ⟨hwf, hrule, bs, hpayload.keep hkeep, hbits⟩, hw⟩

namespace Stream

variable {s t : Stream} {bytes w : List UInt8} {u : NalUnit}

theorem storeSps_eq (sps : Sps) (s : Stream) :
    storeSps sps s =
      match s.parameterSets.insertSps sps with
      | .error e => .error e s
      | .ok later => .ok () { s with parameterSets := later } := by
  rw [storeSps, get_bind]
  cases s.parameterSets.insertSps sps <;> rfl

theorem readUnit_eq (bytes : List UInt8) (s : Stream) :
    readUnit bytes s =
      match NalUnit.decode s.config s.parameterSets bytes with
      | .error e => .error e s
      | .ok u =>
        match s.parameterSets.keep u.payload with
        | .error e => .error e s
        | .ok later => .ok u { s with parameterSets := later } := by
  rw [readUnit, get_bind]
  cases NalUnit.decode s.config s.parameterSets bytes with
  | error e => rfl
  | ok u =>
    obtain ⟨header, payload⟩ := u
    cases payload with
    | sps sps =>
      have hread : (do
          storeSps sps
          return ⟨header, .sps sps⟩ : Session NalUnit) s =
          match s.parameterSets.insertSps sps with
          | .error e => .error e s
          | .ok later => .ok ⟨header, .sps sps⟩ { s with parameterSets := later } := by
        simp only [bind, EStateM.bind, storeSps_eq]
        cases s.parameterSets.insertSps sps <;> rfl
      exact hread
    | _ => rfl

theorem readUnit_eq_ok :
    readUnit bytes s = .ok u t ↔
      NalUnit.decode s.config s.parameterSets bytes = .ok u ∧
        ∃ later, s.parameterSets.keep u.payload = .ok later ∧
          t = { s with parameterSets := later } := by
  rw [readUnit_eq]
  constructor
  · intro h
    split at h
    · cases h
    · rename_i found hfound
      split at h
      · cases h
      · rename_i later hkeep
        cases h
        exact ⟨hfound, later, hkeep, rfl⟩
  · rintro ⟨hdecode, later, hkeep, rfl⟩
    simp only [hdecode, hkeep]

theorem readUnit_error {e : NalError} (h : readUnit bytes s = .error e t) : t = s := by
  rw [readUnit_eq] at h
  split at h
  · cases h
    rfl
  · split at h
    · cases h
      rfl
    · cases h

theorem wellFormed_of_readUnit (hs : s.parameterSets.WellFormed)
    (h : readUnit bytes s = .ok u t) : t.parameterSets.WellFormed := by
  obtain ⟨hdecode, later, hkeep, rfl⟩ := readUnit_eq_ok.mp h
  obtain ⟨_, ⟨_, hcoded, -⟩, -⟩ := NalUnit.writtenAs_of_decode hs hdecode
  obtain ⟨_, hpayload, -⟩ := hcoded.payload
  exact hs.keep hpayload hkeep

/-- The stream after it was handed some units in order, whether or not it could read them. -/
def after : List (List UInt8) → Stream → Stream
  | [], s => s
  | bytes :: rest, s =>
    match readUnit bytes s with
    | .ok _ t => after rest t
    | .error _ t => after rest t

theorem wellFormed_after (history : List (List UInt8)) (hs : s.parameterSets.WellFormed) :
    (after history s).parameterSets.WellFormed := by
  induction history generalizing s with
  | nil => exact hs
  | cons bytes history ih =>
    unfold after
    split
    · rename_i u t hread
      exact ih (wellFormed_of_readUnit hs hread)
    · rename_i e t hread
      rw [readUnit_error hread]
      exact ih hs

/-- The bytes that a unit which was just read is written as are read back, whether by the stream
that has read it or by the one that is about to. -/
theorem exists_written (hs : s.parameterSets.WellFormed) (h : readUnit bytes s = .ok u t) :
    ∃ w, t.writeUnit u = .ok w ∧ readUnit w s = .ok u t ∧ readUnit w t = .ok u t ∧
      ((∃ b, bytes.getLast? = some b ∧ b ≠ 0) → Framable w) := by
  have ht := wellFormed_of_readUnit hs h
  obtain ⟨hdecode, later, hkeep, rfl⟩ := readUnit_eq_ok.mp h
  obtain ⟨w, hw, hframable⟩ := NalUnit.writtenAs_of_decode hs hdecode
  have hlater := hw.keep hkeep
  refine ⟨w, hlater.encode fun _ _ => ht, ?_, ?_, hframable⟩
  · exact readUnit_eq_ok.mpr ⟨hw.decode, later, hkeep, rfl⟩
  · exact readUnit_eq_ok.mpr ⟨hlater.decode, later, ParameterSets.keep_keep hkeep, rfl⟩

/-- Whatever a new stream was handed before, a unit that it reads can be written. What is written
is read as the same unit, without an effect on the parameter sets, and is what writing that unit
gives again. -/
theorem writeUnit_of_readUnit (config : StreamConfig) (history : List (List UInt8))
    (bytes : List UInt8) (h : readUnit bytes (after history { config }) = .ok u s) :
    ∃ w, s.writeUnit u = .ok w ∧
      ∃ t, readUnit w s = .ok u t ∧ t.parameterSets = s.parameterSets ∧ t.writeUnit u = .ok w := by
  have hstart : (after history { config }).parameterSets.WellFormed :=
    wellFormed_after history ParameterSets.wellFormed_empty
  obtain ⟨w, hw, -, hread, -⟩ := exists_written hstart h
  exact ⟨w, hw, s, hread, rfl, hw⟩

/-- A picture parameter set behind a sequence parameter set and a unit that is refused. -/
theorem writeUnit_of_readUnit_pps :
    readUnit [104, 206, 56, 128] (after [[103, 66, 0, 10, 251, 136], [128]] {}) =
        .ok ⟨⟨3, .pps⟩, .pps {}⟩
          (after [[103, 66, 0, 10, 251, 136], [128], [104, 206, 56, 128]] {}) ∧
      ∃ w, (after [[103, 66, 0, 10, 251, 136], [128], [104, 206, 56, 128]] {}).writeUnit
        ⟨⟨3, .pps⟩, .pps {}⟩ = .ok w := by
  have hread : readUnit [104, 206, 56, 128] (after [[103, 66, 0, 10, 251, 136], [128]] {}) =
      .ok ⟨⟨3, .pps⟩, .pps {}⟩
        (after [[103, 66, 0, 10, 251, 136], [128], [104, 206, 56, 128]] {}) := by cbv
  obtain ⟨w, hw, -⟩ := writeUnit_of_readUnit {} _ _ hread
  exact ⟨hread, w, hw⟩

/-- Whatever a new stream was handed before, a slice that it reads with its data is written as the
bytes that were read. Only two zero bytes at their end would be followed by an escape. -/
theorem writeUnit_of_readUnit_slice (config : StreamConfig) (history : List (List UInt8))
    (bytes : List UInt8) (h : readUnit bytes (after history { config }) = .ok u s)
    {l : SliceLayer} (hl : u.payload = .slice l) (hdata : l.data.isSome)
    (hend : ¬[0, 0] <:+ bytes) : s.writeUnit u = .ok bytes := by
  have hstart : (after history { config }).parameterSets.WellFormed :=
    wellFormed_after history ParameterSets.wellFormed_empty
  have hs := wellFormed_of_readUnit hstart h
  obtain ⟨hdecode, later, hkeep, rfl⟩ := readUnit_eq_ok.mp h
  have hwritten := NalUnit.writtenAs_of_decode_slice hstart hdecode hl hdata hend
  exact (hwritten.keep hkeep).encode fun _ _ => hs

/-- A slice of an IDR picture with an escape in its data. -/
theorem writeUnit_of_readUnit_slice_escape :
    ∃ u s l, readUnit [101, 136, 132, 13, 0, 0, 3, 1, 128]
        (after [[103, 66, 0, 10, 251, 136], [104, 206, 56, 128]] {}) = .ok u s ∧
      u.payload = .slice l ∧ l.data = some ⟨5, 3, [0, 0, 1, 128]⟩ ∧
      ¬[0, 0] <:+ [101, 136, 132, 13, 0, 0, 3, 1, (128 : UInt8)] ∧
      s.writeUnit u = .ok [101, 136, 132, 13, 0, 0, 3, 1, 128] := by
  have hread : readUnit [101, 136, 132, 13, 0, 0, 3, 1, 128]
      (after [[103, 66, 0, 10, 251, 136], [104, 206, 56, 128]] {}) =
      .ok ⟨⟨3, .idrSlice⟩, .slice ⟨
          { type := .i, allSlicesSameType := true, refPicMarking := some (.idr false false) },
          some ⟨5, 3, [0, 0, 1, 128]⟩⟩⟩
        (after [[103, 66, 0, 10, 251, 136], [104, 206, 56, 128]] {}) := by cbv
  have hend : ¬[0, 0] <:+ [101, 136, 132, 13, 0, 0, 3, 1, (128 : UInt8)] := by decide
  exact ⟨_, _, _, hread, rfl, rfl, hend, writeUnit_of_readUnit_slice {} _ _ hread rfl rfl hend⟩

section ByteStreams

/-- Reads units in order and writes each of them right after it was read. -/
def rewriteUnits : List (List UInt8) → Session (List NalUnit × List (List UInt8))
  | [] => return ([], [])
  | bytes :: rest => do
    let u ← readUnit bytes
    let w ← (← get).writeUnit u
    let (units, written) ← rewriteUnits rest
    return (u :: units, w :: written)

/-- The written units can be told apart and do to the stream what the units did. -/
theorem exists_rewritten {chunks : List (List UInt8)} {units : List NalUnit}
    (hs : s.parameterSets.WellFormed)
    (hlast : ∀ bytes ∈ chunks, ∃ b, bytes.getLast? = some b ∧ b ≠ 0)
    (h : readUnits chunks s = .ok units t) :
    ∃ written, rewriteUnits chunks s = .ok (units, written) t ∧
      (∀ w ∈ written, Framable w) ∧ readUnits written s = .ok units t := by
  induction chunks generalizing s units with
  | nil =>
    cases h
    exact ⟨[], rfl, by simp, rfl⟩
  | cons bytes chunks ih =>
    obtain ⟨hbytes, hchunks⟩ := List.forall_mem_cons.mp hlast
    obtain ⟨u, v, hu, h⟩ := bind_eq_ok.mp h
    obtain ⟨later, v', hlater, h⟩ := bind_eq_ok.mp h
    cases h
    obtain ⟨w, hw, hread, -, hframable⟩ := exists_written hs hu
    obtain ⟨written, hwritten, hall, hreadAll⟩ := ih (wellFormed_of_readUnit hs hu) hchunks hlater
    refine ⟨w :: written, ?_, List.forall_mem_cons.mpr ⟨hframable hbytes, hall⟩, ?_⟩
    · have hwrite : (liftM (v.writeUnit u) : Session (List UInt8)) v = .ok w v :=
        liftM_eq_ok.mpr ⟨hw, rfl⟩
      rw [rewriteUnits, bind_of_ok hu, get_bind, bind_of_ok hwrite, bind_of_ok hwritten]
      rfl
    · rw [readUnits, bind_of_ok hread, bind_of_ok hreadAll]
      rfl

/-- A byte stream all of whose units can be read. If each is written right after it was read,
the written units make up a stream that a new reader takes for the same units, and that leaves it
with the same parameter sets. -/
theorem readByteStream_joinUnits (config : StreamConfig) (stream : List UInt8)
    {units : List NalUnit} (h : readByteStream stream { config } = .ok units s) :
    ∃ written, rewriteUnits (unitsOf stream) { config } = .ok (units, written) s ∧
      readByteStream (joinUnits written) { config } = .ok units s := by
  obtain ⟨written, hwritten, hframable, hread⟩ :=
    exists_rewritten ParameterSets.wellFormed_empty (fun _ => last_of_mem_unitsOf) h
  refine ⟨written, hwritten, ?_⟩
  rw [readByteStream, unitsOf_joinUnits hframable]
  exact hread

/-- Parameter sets and a delimiter whose stop bit is zero, which is written as a one. -/
theorem readByteStream_joinUnits_lenient :
    readByteStream [0, 0, 1, 103, 66, 0, 10, 251, 136, 0, 0, 1, 9, 15, 0, 0, 1, 104, 206, 56, 128, 0]
        {} =
      .ok [⟨⟨3, .sps⟩, .sps { profileIdc := 66, levelIdc := 10 }⟩,
        ⟨⟨0, .accessUnitDelimiter⟩, .accessUnitDelimiter {}⟩, ⟨⟨3, .pps⟩, .pps {}⟩]
        (after [[103, 66, 0, 10, 251, 136], [104, 206, 56, 128]] {}) ∧
      ∃ written, readByteStream (joinUnits written) {} =
        .ok [⟨⟨3, .sps⟩, .sps { profileIdc := 66, levelIdc := 10 }⟩,
          ⟨⟨0, .accessUnitDelimiter⟩, .accessUnitDelimiter {}⟩, ⟨⟨3, .pps⟩, .pps {}⟩]
          (after [[103, 66, 0, 10, 251, 136], [104, 206, 56, 128]] {}) := by
  have hread : readByteStream
      [0, 0, 1, 103, 66, 0, 10, 251, 136, 0, 0, 1, 9, 15, 0, 0, 1, 104, 206, 56, 128, 0] {} =
      .ok [⟨⟨3, .sps⟩, .sps { profileIdc := 66, levelIdc := 10 }⟩,
        ⟨⟨0, .accessUnitDelimiter⟩, .accessUnitDelimiter {}⟩, ⟨⟨3, .pps⟩, .pps {}⟩]
        (after [[103, 66, 0, 10, 251, 136], [104, 206, 56, 128]] {}) := by cbv
  obtain ⟨written, -, hagain⟩ := readByteStream_joinUnits {} _ hread
  exact ⟨hread, written, hagain⟩

end ByteStreams

end Stream

end AvcSyntax

import AvcSyntax.Proofs.Nal.IllegalEscapes

/-!
# The room that escaping and unescaping take

Both transformations fill a buffer that is given to them from its front on. They need just as much
room as there are bytes to put out: with less they fail, and with more they leave the bytes behind
as they were. The buffers that `escape` and `unescape` bring themselves are never too small.
-/
namespace AvcSyntax

namespace Output

/-- What comes of putting out bytes into a buffer from its front on. -/
def putOut (bs : List UInt8) (buffer : Array UInt8) : Except NalError Output :=
  if bs.length ≤ buffer.size then
    .ok { data := (bs ++ buffer.toList.drop bs.length).toArray, filled := bs.length }
  else .error (.bufferTooSmall buffer.size)

theorem pushAll_eq_putOut (bs : List UInt8) (buffer : Array UInt8) :
    pushAll bs { data := buffer } = putOut bs buffer := by
  rw [pushAll_eq (Nat.zero_le _), putOut, Nat.zero_add]
  split
  · rename_i hroom
    have hfront : 0 + bs.length ≤ buffer.size := by rwa [Nat.zero_add]
    have hdata := toList_putBytes hfront
    rw [Nat.zero_add, List.take_zero, List.nil_append] at hdata
    rw [← hdata]
  · rfl

end Output

/-- What accepted bytes stand for is written whether or not there is room for all that has been
read. -/
theorem unescapeFrom_of_stripped {zeros offset : Nat} {bs found : List UInt8}
    (h : stripped zeros offset bs = .ok found) (o : Output) :
    unescapeFrom zeros offset bs o = o.pushAll found := by
  induction bs generalizing zeros offset found o with
  | nil =>
    cases h
    rfl
  | cons b bs ih =>
    rw [unescapeFrom]
    rcases stripped_cons_eq_ok h with ⟨rfl, rfl, hnext, hrest⟩ | ⟨hplain, rest, hrest, rfl⟩
    · rw [if_neg (by decide), if_pos ⟨rfl, rfl⟩]
      cases bs with
      | nil =>
        cases hrest
        rfl
      | cons next bs =>
        have hlow : ¬3 < next := UInt8.not_lt.mpr (hnext next rfl)
        simp only [List.head?_cons, if_neg hlow]
        exact ih hrest o
    · obtain ⟨hless, hthree⟩ := plain_of_not_le hplain
      rw [if_neg hless, if_neg hthree]
      simp only [ih hrest, Output.pushAll]

/-- The escaped form of a payload is never longer than it may be. It is written to every buffer
that is at least as long, and the bytes behind it stay; with any other buffer escaping fails and
names the size of the buffer. So it is with the payload of a unit that can be unescaped. Hence
neither fails for want of room where the buffer is not given. -/
theorem output_room :
    (∀ payload, ∃ unit, escape payload = .ok unit ∧
      unit.length ≤ maxEscapedSize payload.length ∧
        ∀ buffer, escapeInto payload { data := buffer } = Output.putOut unit buffer) ∧
    (∀ unit payload, unescape unit = .ok payload →
      ∀ buffer, unescapeInto unit { data := buffer } = Output.putOut payload buffer) ∧
    ∀ bs size, escape bs ≠ .error (.bufferTooSmall size) ∧
      unescape bs ≠ .error (.bufferTooSmall size) := by
  refine ⟨fun payload => ⟨_, escape_eq payload, ?_, fun buffer => ?_⟩, ?_, fun bs size => ⟨?_, ?_⟩⟩
  · have hlength := length_escaped_le 0 payload
    unfold maxEscapedSize
    omega
  · rw [escapeInto, escapeFrom_eq, Output.pushAll_eq_putOut]
  · intro unit payload h buffer
    rw [unescape_eq] at h
    rw [unescapeInto, unescapeFrom_of_stripped h, Output.pushAll_eq_putOut]
  · intro h
    rw [escape_eq] at h
    cases h
  · intro h
    rw [unescape_eq] at h
    have hscan := h ▸ unescapes_stripped (Nat.zero_le 2) 0 bs
    cases hscan

/-- The escaped form of two zero bytes takes room for three. With room for four an old byte stays.
Unescaping it takes room for two, though three bytes are read. -/
theorem output_room_zeros :
    unescape [0, 0, 3] = .ok [0, 0] ∧ escape [0, 0] = .ok [0, 0, 3] ∧
      escapeInto [0, 0] { data := #[7, 7] } = .error (.bufferTooSmall 2) ∧
      escapeInto [0, 0] { data := #[7, 7, 7, 7] } = .ok { data := #[0, 0, 3, 7], filled := 3 } ∧
      unescapeInto [0, 0, 3] { data := #[7, 7] } = .ok { data := #[0, 0], filled := 2 } ∧
      unescapeInto [0, 0, 3] { data := #[7] } = .error (.bufferTooSmall 1) := by
  have hunescape : unescape [0, 0, 3] = .ok [0, 0] := by cbv
  have hescape : escape [0, 0] = .ok [0, 0, 3] := by cbv
  obtain ⟨unit, hunit, -, hescapeInto⟩ := output_room.1 [0, 0]
  have hunescapeInto := output_room.2.1 _ _ hunescape
  obtain rfl : [0, 0, 3] = unit := Except.ok.inj (hescape.symm.trans hunit)
  exact ⟨hunescape, hescape, hescapeInto _, hescapeInto _, hunescapeInto _, hunescapeInto _⟩

end AvcSyntax

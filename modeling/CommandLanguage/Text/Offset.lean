/-!
# Offsets in bytes

Texts cut at a number of bytes of their UTF-8 form. An offset can lie inside a character or past the
end, and a text cannot be cut there.
-/

namespace CommandLanguage.Text

/-- Why a text cannot be cut at an offset. -/
inductive OffsetFault where
  | insideCharacter
  | pastEnd
deriving DecidableEq, Repr

/-- What stands before an offset and what follows it, if a character begins there or the text ends. -/
def cut? (s : String) (offset : Nat) : Option (String × String) :=
  (s.pos? ⟨offset⟩).map fun p => ((s.sliceTo p).copy, (s.sliceFrom p).copy)

/-- What stands before an offset, if the text can be cut there. -/
def before? (s : String) (offset : Nat) : Option String :=
  (cut? s offset).map (·.1)

/-- What follows an offset. It is a fault to ask where the text cannot be cut. -/
def behind (s : String) (offset : Nat) : Except OffsetFault String :=
  match cut? s offset with
  | some (_, rest) => .ok rest
  | none => .error (if offset ≤ s.utf8ByteSize then .insideCharacter else .pastEnd)

theorem pos?_eq_some_iff {s : String} {offset : String.Pos.Raw} {p : s.Pos} :
    s.pos? offset = some p ↔ p.offset = offset := by
  rw [String.pos?, Option.map_eq_some_iff]
  constructor
  · rintro ⟨q, hq, rfl⟩
    rw [String.Slice.pos?] at hq
    split at hq
    · cases hq
      rfl
    · cases hq
  · rintro rfl
    have hvalid : p.offset.isValidForSlice s.toSlice = true := by
      rw [String.Pos.Raw.isValidForSlice_eq_true_iff, String.Pos.Raw.isValidForSlice_toSlice_iff]
      exact p.isValid
    rw [String.Slice.pos?, dif_pos hvalid]
    exact ⟨_, rfl, rfl⟩

/-- A text can be cut behind each text that it begins with, and nowhere else. -/
theorem cut?_eq_some_iff {s front rest : String} {offset : Nat} :
    cut? s offset = some (front, rest) ↔ s = front ++ rest ∧ front.utf8ByteSize = offset := by
  rw [cut?, Option.map_eq_some_iff]
  constructor
  · rintro ⟨p, hp, hcut⟩
    obtain ⟨rfl, rfl⟩ := Prod.mk.inj hcut
    refine ⟨p.splits.eq_append, ?_⟩
    have hoffset := p.splits.offset_eq_rawEndPos
    rw [pos?_eq_some_iff.1 hp] at hoffset
    exact (congrArg String.Pos.Raw.byteIdx hoffset).symm
  · rintro ⟨rfl, rfl⟩
    have hvalid : String.Pos.Raw.IsValid (front ++ rest) ⟨front.utf8ByteSize⟩ :=
      String.Pos.Raw.isValid_iff_exists_append.2 ⟨front, rest, rfl, rfl⟩
    have hsplits : String.Pos.Splits (⟨_, hvalid⟩ : (front ++ rest).Pos) front rest := ⟨rfl, rfl⟩
    refine ⟨⟨_, hvalid⟩, pos?_eq_some_iff.2 rfl, ?_⟩
    rw [hsplits.copy_sliceTo_eq, hsplits.copy_sliceFrom_eq]

end CommandLanguage.Text

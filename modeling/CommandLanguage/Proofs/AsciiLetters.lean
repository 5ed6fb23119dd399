import CommandLanguage.Text.AsciiCase

/-!
# Capitals and small letters

Whatever is the same for each of the letters `A` to `Z` and its small form is the same for every
character and what it is folded to (`Text.apply_lowerAscii`). So folding letters twice is folding them
once, it leaves marks between words where they are, and it keeps the length of a text in bytes.
-/

namespace CommandLanguage.Text

/-- What is the same for each capital and its small form does not depend on letter case. -/
theorem apply_lowerAscii {α : Type} (f : Char → α)
    (h : ∀ k < 26, f (Char.ofNat (97 + k)) = f (Char.ofNat (65 + k))) (c : Char) :
    f (lowerAscii c) = f c := by
  unfold lowerAscii
  split
  · rename_i hcapital
    have hlow : 65 ≤ c.toNat := hcapital.1
    have hhigh : c.toNat ≤ 90 := hcapital.2
    have hletter := h (c.toNat - 65) (by omega)
    rw [show 97 + (c.toNat - 65) = c.toNat + 32 by omega,
      show 65 + (c.toNat - 65) = c.toNat by omega, Char.ofNat_toNat] at hletter
    exact hletter
  · rfl

theorem lowerAscii_lowerAscii (c : Char) : lowerAscii (lowerAscii c) = lowerAscii c :=
  apply_lowerAscii lowerAscii (by decide +kernel) c

/-- A character that is no letter is the small form of itself alone. -/
theorem lowerAscii_eq_iff {c d : Char}
    (hd : ∀ k < 26, (Char.ofNat (97 + k) == d) = (Char.ofNat (65 + k) == d)) :
    lowerAscii c = d ↔ c = d := by
  have h := apply_lowerAscii (· == d) hd c
  rw [← beq_iff_eq, h, beq_iff_eq]

theorem utf8Size_lowerAscii (c : Char) : (lowerAscii c).utf8Size = c.utf8Size :=
  apply_lowerAscii Char.utf8Size (by decide +kernel) c

/-! ## Texts -/

theorem foldCase_foldCase (s : String) : foldCase (foldCase s) = foldCase s := by
  simp [foldCase, Function.comp_def, lowerAscii_lowerAscii]

theorem foldCase_ofList (cs : List Char) :
    foldCase (String.ofList cs) = String.ofList (cs.map lowerAscii) := by
  simp [foldCase]

theorem foldCase_append (s t : String) : foldCase (s ++ t) = foldCase s ++ foldCase t := by
  simp [foldCase]

/-- Folding letters keeps the length of a text in bytes. -/
theorem utf8ByteSize_foldCase (s : String) : (foldCase s).utf8ByteSize = s.utf8ByteSize := by
  have hcons : ∀ (c : Char) (cs : List Char), (String.ofList (c :: cs)).utf8ByteSize =
      c.utf8Size + (String.ofList cs).utf8ByteSize := by
    intro c cs
    rw [← List.singleton_append, String.ofList_append, String.utf8ByteSize_append,
      ← String.singleton_eq_ofList, String.utf8ByteSize_singleton]
  have hfold : ∀ cs : List Char, (String.ofList (cs.map lowerAscii)).utf8ByteSize =
      (String.ofList cs).utf8ByteSize := by
    intro cs
    induction cs with
    | nil => rfl
    | cons c cs ih => rw [List.map_cons, hcons, hcons, ih, utf8Size_lowerAscii]
  rw [foldCase, hfold, String.ofList_toList]

end CommandLanguage.Text

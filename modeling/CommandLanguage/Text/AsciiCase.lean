/-!
# ASCII letter case

Names of parameters, flags and literals are compared without regard to the case of the
letters `A` to `Z`. No other character has a case here: `É` and `é` are different names.
-/

namespace CommandLanguage.Text

/-- The small form of an ASCII capital; every other character is itself. -/
def lowerAscii (c : Char) : Char :=
  if 'A' ≤ c ∧ c ≤ 'Z' then Char.ofNat (c.toNat + 32) else c

/-- A text with every ASCII capital replaced by its small form. -/
def foldCase (s : String) : String :=
  String.ofList (s.toList.map lowerAscii)

/-- Whether two texts differ at most in the case of ASCII letters. -/
def sameIgnoringCase (a b : String) : Bool :=
  a.toList.map lowerAscii == b.toList.map lowerAscii

theorem toList_foldCase (s : String) : (foldCase s).toList = s.toList.map lowerAscii := by
  simp [foldCase]

theorem sameIgnoringCase_iff {a b : String} :
    sameIgnoringCase a b = true ↔ foldCase a = foldCase b := by
  simp [sameIgnoringCase, foldCase, String.ofList_inj]

theorem sameIgnoringCase_refl (a : String) : sameIgnoringCase a a = true :=
  sameIgnoringCase_iff.2 rfl

theorem sameIgnoringCase_comm (a b : String) : sameIgnoringCase a b = sameIgnoringCase b a := by
  rw [Bool.eq_iff_iff, sameIgnoringCase_iff, sameIgnoringCase_iff]
  exact eq_comm

theorem sameIgnoringCase_trans {a b c : String} (hab : sameIgnoringCase a b = true)
    (hbc : sameIgnoringCase b c = true) : sameIgnoringCase a c = true :=
  sameIgnoringCase_iff.2 ((sameIgnoringCase_iff.1 hab).trans (sameIgnoringCase_iff.1 hbc))

end CommandLanguage.Text

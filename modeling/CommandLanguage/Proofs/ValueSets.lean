import CommandLanguage.Capabilities
import CommandLanguage.Line
import Mathlib.Data.List.Chain
import Mathlib.Data.List.TakeWhile
import Mathlib.Data.Nat.Digits.Defs

/-!
# What types admit

Which of the types of values admit all the words that another one admits. A type without a rule
admits every word. The types of numbers admit more and more, from whole numbers of 32 bits to
decimals in double precision, and nothing else is part of anything else (`ValueType.within_iff`).
Where a type is not part of another, a word that does not look like a flag tells them apart
(`ValueType.exists_plain_of_not_within`).
-/

namespace CommandLanguage

namespace Text

/-! ## Numerals -/

theorem digitCount_mono {m n : Nat} (h : m ≤ n) : digitCount m ≤ digitCount n := by
  unfold digitCount
  by_cases hm : m = 0
  · simp [hm]
  · have hn : n ≠ 0 := by omega
    have hfits : n < 10 ^ (Nat.toDigits 10 n).length :=
      (Nat.length_toDigits_le_iff (by omega) Nat.length_toDigits_pos).1 (Nat.le_refl _)
    rw [if_neg hm, if_neg hn, Nat.length_toDigits_le_iff (by omega) Nat.length_toDigits_pos]
    omega

/-- A decimal that is not zero is below a bound if it has fewer digits before the point, or if it has
as many and is less. -/
theorem Decimal.below_iff {d : Decimal} (hd : d.digits ≠ 0) {bound : Nat} :
    d.below bound = true ↔
      digitCount d.digits + d.exponent ≤ digitCount bound ∧
        (digitCount d.digits + d.exponent < digitCount bound ∨
          if 0 ≤ d.exponent then d.digits * 10 ^ d.exponent.toNat < bound
          else d.digits < bound * 10 ^ (-d.exponent).toNat) := by
  unfold below
  rw [if_neg hd]
  dsimp only
  split
  · simp only [Bool.false_eq_true, false_iff]
    omega
  · rename_i hroom
    split
    · simp only [true_iff]
      omega
    · rename_i hsize
      rw [and_iff_right (Int.not_lt.1 hroom), or_iff_right hsize]
      split <;> simp only [decide_eq_true_eq, Nat.pow_eq]

/-- A decimal below a bound is below any greater one. -/
theorem Decimal.below_mono {d : Decimal} {bound bound' : Nat} (hle : bound ≤ bound')
    (h : d.below bound = true) : d.below bound' = true := by
  by_cases hd : d.digits = 0
  · simp [below, hd]
  · have hroom : (digitCount bound : Int) ≤ digitCount bound' :=
      Int.ofNat_le.2 (digitCount_mono hle)
    rcases (below_iff hd).1 h with ⟨hsize, hless⟩
    refine (below_iff hd).2 ⟨by omega, ?_⟩
    rcases hless with hless | hless
    · exact .inl (by omega)
    · right
      split
      · rename_i hexponent
        rw [if_pos hexponent] at hless
        omega
      · rename_i hexponent
        rw [if_neg hexponent] at hless
        exact Nat.lt_of_lt_of_le hless (Nat.mul_le_mul_right _ hle)

/-- A number is, as a decimal without an exponent, below what is greater. -/
theorem Decimal.below_of_lt {n bound : Nat} (h : n < bound) : Decimal.below ⟨n, 0⟩ bound = true := by
  by_cases hn : n = 0
  · simp [below, hn]
  · have hcount : (digitCount n : Int) ≤ digitCount bound :=
      Int.ofNat_le.2 (digitCount_mono (Nat.le_of_lt h))
    refine (below_iff hn).2 ⟨by simpa using hcount, .inr ?_⟩
    simpa using h

/-- What fits a width is no greater than its bound, whatever the sign. -/
theorem natAbs_le_of_fitsBits {bits : Nat} {n : Int} (h : fitsBits bits n = true) :
    n.natAbs ≤ 2 ^ (bits - 1) := by
  simp only [fitsBits, Nat.pow_eq, Bool.and_eq_true, decide_eq_true_eq] at h
  omega

theorem natAbs_applySign (negative : Bool) (n : Nat) : (applySign negative n).natAbs = n := by
  cases negative <;> simp [applySign]

/-- A whole number is one of any greater width. -/
theorem isWhole_mono {bits bits' : Nat} (hle : bits ≤ bits') {s : String}
    (h : isWhole bits s = true) : isWhole bits' s = true := by
  rcases (Option.any_eq_true _ _).1 h with ⟨n, hn, hfits⟩
  refine (Option.any_eq_true _ _).2 ⟨n, hn, ?_⟩
  have hpow : ((2 ^ (bits - 1) : Nat) : Int) ≤ (2 ^ (bits' - 1) : Nat) :=
    Int.ofNat_le.2 (Nat.pow_le_pow_right (by decide) (by omega))
  simp only [fitsBits, Nat.pow_eq, Bool.and_eq_true, decide_eq_true_eq] at hfits ⊢
  omega

/-- A finite number is one in any greater format. -/
theorem isFiniteIn_mono {precision top precision' top' : Nat}
    (hle : overflowBound precision top ≤ overflowBound precision' top') {s : String}
    (h : isFiniteIn precision top s = true) : isFiniteIn precision' top' s = true := by
  rcases (Option.any_eq_true _ _).1 h with ⟨d, hd, hbelow⟩
  exact (Option.any_eq_true _ _).2 ⟨d, hd, Decimal.below_mono hle hbelow⟩

/-- Digits alone are read as a decimal without an exponent. -/
theorem readDecimal?_of_digits {digits : List Char} (hne : digits ≠ [])
    (hall : digits.all isDigit = true) : readDecimal? digits = some ⟨digitsValue digits, 0⟩ := by
  have htake : digits.takeWhile isDigit = digits :=
    List.takeWhile_eq_self_iff.2 (List.all_eq_true.1 hall)
  have hdrop : digits.dropWhile isDigit = [] :=
    List.dropWhile_eq_nil_iff.2 (List.all_eq_true.1 hall)
  simp [readDecimal?, htake, hdrop, hne, readExponent?]

/-- A whole number is finite in a format in which its width has room. -/
theorem isFiniteIn_of_isWhole {bits precision top : Nat}
    (hroom : 2 ^ (bits - 1) < overflowBound precision top) {s : String}
    (h : isWhole bits s = true) : isFiniteIn precision top s = true := by
  rcases (Option.any_eq_true _ _).1 h with ⟨n, hn, hfits⟩
  unfold readInt? at hn
  rcases htake : takeSign s.toList with ⟨negative, digits⟩
  simp only [htake] at hn
  split at hn
  · rename_i hdigits
    obtain ⟨hne, hall⟩ : digits ≠ [] ∧ digits.all isDigit = true := by
      simpa using hdigits
    have hvalue : digitsValue digits < overflowBound precision top := by
      have habs := natAbs_le_of_fitsBits hfits
      rw [← Option.some.inj hn, natAbs_applySign] at habs
      omega
    refine (Option.any_eq_true _ _).2 ⟨_, ?_, Decimal.below_of_lt hvalue⟩
    rw [htake]
    exact readDecimal?_of_digits hne hall
  · cases hn

end Text

/-! ## Types -/

namespace ValueType

/-- Whether every word of a type is one of another. -/
def Within (s t : ValueType) : Prop :=
  ∀ token, s.admits token = true → t.admits token = true

theorem Within.trans {s t r : ValueType} (hst : s.Within t) (htr : t.Within r) : s.Within r :=
  fun token h => htr token (hst token h)

/-- The types that have a rule for their words. -/
def ruled : List ValueType := [int, long, float, double, boolean]

/-- The types of numbers, from the narrowest to the widest. -/
def numbers : List ValueType := [int, long, float, double]

/-- A type without a rule admits every word. -/
theorem admits_of_not_ruled {t : ValueType} (h : t ∉ ruled) (token : String) :
    t.admits token = true := by
  simp only [ruled, List.mem_cons, List.not_mem_nil, or_false, not_or] at h
  simp [admits, h]

theorem int_within_long : int.Within long := by
  intro token h
  have hwhole : Text.isWhole 32 token = true := h
  show Text.isWhole 64 token = true
  exact Text.isWhole_mono (by decide) hwhole

theorem long_within_float : long.Within float := by
  intro token h
  have hwhole : Text.isWhole 64 token = true := h
  show Text.isFiniteIn 24 128 token = true
  exact Text.isFiniteIn_of_isWhole (by decide +kernel) hwhole

theorem float_within_double : float.Within double := by
  intro token h
  have hsingle : Text.isFiniteIn 24 128 token = true := h
  show Text.isFiniteIn 53 1024 token = true
  exact Text.isFiniteIn_mono (by decide +kernel) hsingle

/-- Each type of numbers is part of the wider ones. -/
theorem within_of_sublist {s t : ValueType} (h : [s, t].Sublist numbers) : s.Within t := by
  have : Trans Within Within Within := ⟨Within.trans⟩
  have hchain : numbers.IsChain Within :=
    .cons_cons int_within_long (.cons_cons long_within_float (.cons_cons float_within_double
      (.singleton _)))
  exact List.pairwise_iff_forall_sublist.1 (List.isChain_iff_pairwise.1 hchain) h

/-- Words that tell types apart. None of them looks like a flag. -/
def probes : List String := ["x", "true", "1", "2147483648", "0.5", "1e39"]

theorem isFlagToken_of_mem_probes {w : String} (h : w ∈ probes) : isFlagToken w = false := by
  have hall : ∀ w ∈ probes, isFlagToken w = false := by decide +kernel
  exact hall w h

/-- Every type admits a probe. -/
theorem exists_probe_admits (t : ValueType) : ∃ w ∈ probes, t.admits w = true := by
  by_cases ht : t ∈ ruled
  · have hall : ∀ t ∈ ruled, ∃ w ∈ probes, t.admits w = true := by decide +kernel
    exact hall t ht
  · exact ⟨"x", by decide, admits_of_not_ruled ht "x"⟩

/-- A probe tells a type from one with a rule, unless they are the same or types of numbers of which
the second is wider. -/
theorem exists_probe {s t : ValueType} (hsame : s ≠ t) (ht : t ∈ ruled)
    (hnumbers : ¬[s, t].Sublist numbers) :
    ∃ w ∈ probes, s.admits w = true ∧ t.admits w = false := by
  by_cases hs : s ∈ ruled
  · have hall : ∀ s ∈ ruled, ∀ t ∈ ruled, s ≠ t → ¬[s, t].Sublist numbers →
        ∃ w ∈ probes, s.admits w = true ∧ t.admits w = false := by decide +kernel
    exact hall s hs t ht hsame hnumbers
  · have hall : ∀ t ∈ ruled, t.admits "x" = false := by decide +kernel
    exact ⟨"x", by decide, admits_of_not_ruled hs "x", hall t ht⟩

/-- **Inclusion of types.** A type is part of another if they are the same, if the other one has no
rule, or if they are types of numbers and the other one is wider. -/
theorem within_iff {s t : ValueType} :
    s.Within t ↔ s = t ∨ t ∉ ruled ∨ [s, t].Sublist numbers := by
  constructor
  · intro h
    by_contra hnot
    simp only [not_or, not_not] at hnot
    obtain ⟨hsame, ht, hnumbers⟩ := hnot
    rcases exists_probe hsame ht hnumbers with ⟨w, -, hs, hw⟩
    rw [h w hs] at hw
    cases hw
  · rintro (rfl | ht | hnumbers)
    · exact fun _ h => h
    · exact fun token _ => admits_of_not_ruled ht token
    · exact within_of_sublist hnumbers

instance (s t : ValueType) : Decidable (s.Within t) :=
  decidable_of_iff _ within_iff.symm

/-- Where a type is not part of another, a word that does not look like a flag tells them apart. -/
theorem exists_plain_of_not_within {s t : ValueType} (h : ¬s.Within t) :
    ∃ w, isFlagToken w = false ∧ s.admits w = true ∧ t.admits w = false := by
  rw [within_iff] at h
  simp only [not_or, not_not] at h
  rcases exists_probe h.1 h.2.1 h.2.2 with ⟨w, hw, hs, ht⟩
  exact ⟨w, isFlagToken_of_mem_probes hw, hs, ht⟩

end ValueType

end CommandLanguage

/-!
# Priorities

The precedence of a parameter among those that could take the same word. A priority is a level
of 32 bits; raising one stops at the two ends of the range.
-/

namespace CommandLanguage

/-- A precedence; higher levels win. -/
structure Priority where
  level : Int
  lower : -2147483648 ≤ level
  upper : level ≤ 2147483647
deriving DecidableEq

namespace Priority

/-- The priority nearest to a level. -/
def nearest (level : Int) : Priority where
  level := max (-2147483648) (min level 2147483647)
  lower := by omega
  upper := by omega

/-- The priority at a level, if the level has 32 bits. -/
def ofLevel? (level : Int) : Option Priority :=
  if h : -2147483648 ≤ level ∧ level ≤ 2147483647 then some ⟨level, h.1, h.2⟩ else none

/-- The lowest priority. -/
def minimum : Priority := nearest (-2147483648)

/-- The priority of values that match nearly everything. -/
def low : Priority := nearest 0

/-- The usual priority. -/
def normal : Priority := nearest 20

/-- The priority of values that match little. -/
def high : Priority := nearest 100

/-- The highest priority, that of literals. -/
def maximum : Priority := nearest 2147483647

/-- The priority `n` levels above, as far as the range goes. -/
def plus (p : Priority) (n : Int) : Priority :=
  nearest (p.level + n)

instance : Inhabited Priority := ⟨normal⟩

instance : LT Priority := ⟨fun p q => p.level < q.level⟩

instance : LE Priority := ⟨fun p q => p.level ≤ q.level⟩

instance (p q : Priority) : Decidable (p < q) :=
  inferInstanceAs (Decidable (p.level < q.level))

instance (p q : Priority) : Decidable (p ≤ q) :=
  inferInstanceAs (Decidable (p.level ≤ q.level))

theorem level_plus (p : Priority) (n : Int) :
    (p.plus n).level = max (-2147483648) (min (p.level + n) 2147483647) := rfl

theorem ext_level {p q : Priority} (h : p.level = q.level) : p = q := by
  cases p
  cases q
  simp_all

end Priority

end CommandLanguage

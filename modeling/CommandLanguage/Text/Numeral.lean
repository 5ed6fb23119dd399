import CommandLanguage.Text.AsciiCase

/-!
# Numerals

Which texts are numbers, and whether they fit the machine types a parameter can ask for.

* A whole number is an optional sign and ASCII digits; it fits a width of `n` bits when its
  value lies between `-2^(n-1)` and `2^(n-1) - 1`.
* A decimal is an optional sign, digits with at most one point and at least one digit, and an
  optional exponent. It fits a binary floating-point format when rounding it to that format
  gives a finite number, which happens exactly below the midpoint between the largest finite
  number and the next power of two. The words for infinity and for no number never fit.

Both are decided with exact arithmetic. A decimal is compared by its number of digits first, so
a huge exponent costs nothing.
-/

namespace CommandLanguage.Text

/-- Whether a character is one of the ten ASCII digits. -/
def isDigit (c : Char) : Bool :=
  '0' ≤ c && c ≤ '9'

/-- The value of a digit. -/
def digitValue (c : Char) : Nat :=
  c.toNat - '0'.toNat

/-- The number that a run of digits writes. -/
def digitsValue (digits : List Char) : Nat :=
  digits.foldl (fun n c => 10 * n + digitValue c) 0

/-- The sign in front of a numeral, and the rest; true for a minus. -/
def takeSign : List Char → Bool × List Char
  | '-' :: cs => (true, cs)
  | '+' :: cs => (false, cs)
  | cs => (false, cs)

/-- A number with the sign that `takeSign` found. -/
def applySign (negative : Bool) (n : Nat) : Int :=
  if negative then -(n : Int) else n

/-- The whole number that a text writes. -/
def readInt? (cs : List Char) : Option Int :=
  let (negative, digits) := takeSign cs
  if !digits.isEmpty && digits.all isDigit then some (applySign negative (digitsValue digits))
  else none

/-- Whether a whole number with its sign fits a width of `bits` bits. -/
def fitsBits (bits : Nat) (n : Int) : Bool :=
  let bound : Int := Nat.pow 2 (bits - 1)
  n < bound && -bound ≤ n

/-- Whether a text writes a whole number of at most `bits` bits. -/
def isWhole (bits : Nat) (s : String) : Bool :=
  (readInt? s.toList).any (fitsBits bits)

/-- The number `digits * 10 ^ exponent`, without its sign. -/
structure Decimal where
  digits : Nat
  exponent : Int
deriving DecidableEq, Repr

/-- How many digits a number has in base ten; none for zero. -/
def digitCount (n : Nat) : Nat :=
  if n = 0 then 0 else (Nat.toDigits 10 n).length

/-- Whether a decimal is less than the positive `bound`. -/
def Decimal.below (d : Decimal) (bound : Nat) : Bool :=
  if d.digits = 0 then true
  else
    let size := digitCount d.digits + d.exponent
    let room : Int := digitCount bound
    if room < size then false
    else if size < room then true
    else if 0 ≤ d.exponent then d.digits * Nat.pow 10 d.exponent.toNat < bound
    else d.digits < bound * Nat.pow 10 (-d.exponent).toNat

/-- The exponent part of a decimal; a missing one is zero. -/
def readExponent? : List Char → Option Int
  | [] => some 0
  | c :: cs => if lowerAscii c = 'e' then readInt? cs else none

/-- The decimal that an unsigned text writes. -/
def readDecimal? (cs : List Char) : Option Decimal :=
  let whole := cs.takeWhile isDigit
  let rest := cs.dropWhile isDigit
  let (places, rest) :=
    match rest with
    | '.' :: cs => (cs.takeWhile isDigit, cs.dropWhile isDigit)
    | cs => ([], cs)
  if whole.isEmpty && places.isEmpty then none
  else (readExponent? rest).map fun e => ⟨digitsValue (whole ++ places), e - places.length⟩

/-- The least number that a binary format with `precision` bits and the largest exponent `2 ^ top`
rounds to infinity. -/
def overflowBound (precision top : Nat) : Nat :=
  Nat.pow 2 top - Nat.pow 2 (top - precision - 1)

/-- Whether a text writes a number that a binary format holds as a finite one. -/
def isFiniteIn (precision top : Nat) (s : String) : Bool :=
  (readDecimal? (takeSign s.toList).2).any (·.below (overflowBound precision top))

/-- Whether a text writes a finite number in single precision. -/
def isSingle (s : String) : Bool :=
  isFiniteIn 24 128 s

/-- Whether a text writes a finite number in double precision. -/
def isDouble (s : String) : Bool :=
  isFiniteIn 53 1024 s

end CommandLanguage.Text

import CommandLanguage.Data.Toml.Lexeme

/-!
# TOML scalars

Truth values, whole numbers, fractions, dates and times of TOML 1.0, as they stand between blanks,
commas and brackets.

A whole number has 64 bits. A fraction must not be above the range of double precision. A date must be
on the calendar and a time on the clock, with a second to spare for leap seconds.
-/

namespace CommandLanguage.Toml

/-- Digits without the single underscores between them; nothing if there is no digit or an underscore
stands elsewhere. -/
def grouped? (isDigit : Char → Bool) : List Char → Option (List Char)
  | [] => none
  | [c] => if isDigit c then some [c] else none
  | c :: '_' :: cs => if isDigit c then (grouped? isDigit cs).map (c :: ·) else none
  | c :: cs => if isDigit c then (grouped? isDigit cs).map (c :: ·) else none

/-- A whole number in 64 bits. -/
def wide? (n : Int) : Option Datum :=
  if Text.fitsBits 64 n then some (.int n) else none

/-- The digits of a decimal number without sign: none in front of others may be zero. -/
def decimalDigits? (cs : List Char) : Option (List Char) :=
  (grouped? Text.isDigit cs).filter fun digits => digits.length = 1 || digits.head? != some '0'

/-- A whole number with a base in front. -/
def based? (base : Nat) (cs : List Char) : Option Datum := do
  let digits ← grouped? (fun c => (Json.hexValue? c).any (· < base)) cs
  wide? (digits.foldl (fun n c => base * n + (Json.hexValue? c).getD 0) 0)

/-- A whole number. -/
def integer? : List Char → Option Datum
  | '0' :: 'x' :: cs => based? 16 cs
  | '0' :: 'o' :: cs => based? 8 cs
  | '0' :: 'b' :: cs => based? 2 cs
  | cs =>
    let (negative, rest) := Text.takeSign cs
    (decimalDigits? rest).bind fun digits =>
      wide? (Text.applySign negative (Text.digitsValue digits))

/-- The exponent of a fraction. -/
def exponent? (cs : List Char) : Option Int :=
  let (negative, rest) := Text.takeSign cs
  (grouped? Text.isDigit rest).map fun digits => Text.applySign negative (Text.digitsValue digits)

/-- The number that the parts of a fraction write, without its sign. -/
def fraction? (whole places : List Char) (exponent : Option (List Char)) : Option Text.Decimal := do
  let e ← exponent.elim (some 0) exponent?
  return ⟨Text.digitsValue (whole ++ places), e - places.length⟩

/-- The number that a fraction without sign writes. -/
def unsigned? (cs : List Char) : Option Text.Decimal := do
  let isExponent (c : Char) : Bool := c = 'e' || c = 'E'
  let mantissa := cs.takeWhile (!isExponent ·)
  let exponent := (cs.dropWhile (!isExponent ·)).tail?
  let whole ← decimalDigits? (mantissa.takeWhile (· != '.'))
  match mantissa.dropWhile (· != '.') with
  | [] => if exponent.isSome then fraction? whole [] exponent else none
  | _ :: places =>
    let places ← grouped? Text.isDigit places
    fraction? whole places exponent

/-- A fraction; nothing if it lies above the range of double precision. -/
def float? (cs : List Char) : Option Datum :=
  let (negative, rest) := Text.takeSign cs
  if rest = ['i', 'n', 'f'] || rest = ['n', 'a', 'n'] then some .other
  else
    (unsigned? rest).bind fun d =>
      -- What lies below the range is taken for negative infinity.
      if negative || d.below (Text.overflowBound 53 1024) then some .other else none

/-! ## Dates and times -/

/-- The number of two digits, and the rest after them. -/
def pair? : List Char → Option (Nat × List Char)
  | a :: b :: cs =>
    if Text.isDigit a && Text.isDigit b then some (Text.digitsValue [a, b], cs) else none
  | _ => none

/-- Whether a year has a 29th of February. -/
def isLeapYear (year : Nat) : Bool :=
  year % 4 = 0 && (year % 100 != 0 || year % 400 = 0)

/-- How many days a month has; none if there is no such month. -/
def daysIn (year month : Nat) : Nat :=
  if month ∈ [1, 3, 5, 7, 8, 10, 12] then 31
  else if month ∈ [4, 6, 9, 11] then 30
  else if month = 2 then (if isLeapYear year then 29 else 28)
  else 0

/-- The rest after a date. -/
def date? (cs : List Char) : Option (List Char) := do
  let (century, cs) ← pair? cs
  let (year, cs) ← pair? cs
  let (month, cs) ← (Json.after? "-" cs).bind pair?
  let (day, cs) ← (Json.after? "-" cs).bind pair?
  if 1 ≤ day ∧ day ≤ daysIn (100 * century + year) month then some cs else none

/-- The rest after an hour and a minute. -/
def clock? (cs : List Char) : Option (List Char) := do
  let (hour, cs) ← pair? cs
  let (minute, cs) ← (Json.after? ":" cs).bind pair?
  if hour < 24 ∧ minute < 60 then some cs else none

/-- The rest after the places of a second, if there are some. -/
def secondPlaces? : List Char → Option (List Char)
  | '.' :: cs => (Json.digits? cs).map (·.2)
  | cs => some cs

/-- The rest after a time of day. -/
def time? (cs : List Char) : Option (List Char) := do
  let (second, cs) ← ((clock? cs).bind (Json.after? ":")).bind pair?
  if second ≤ 60 then secondPlaces? cs else none

/-- The rest after a time zone, if there is one. -/
def zone? : List Char → Option (List Char)
  | 'Z' :: cs | 'z' :: cs => some cs
  | '+' :: cs | '-' :: cs => clock? cs
  | cs => some cs

/-- Whether characters are a time of day, perhaps with a zone. -/
def isZonedTime (cs : List Char) : Bool :=
  (time? cs).bind zone? = some []

/-- Whether characters are a date, perhaps with a time; or a time. -/
def isMoment (cs : List Char) : Bool :=
  match date? cs with
  | some [] => true
  | some (c :: cs) => (c = 'T' || c = 't' || c = ' ') && isZonedTime cs
  | none => time? cs = some []

/-! ## Words -/

/-- The characters of scalars without quotes. -/
def isScalar (c : Char) : Bool :=
  isBareKey c || c = '+' || c = '.' || c = ':'

/-- The characters of a scalar without quotes, and the rest after it. A date may have a blank before
its time. -/
def scalarWord (cs : List Char) : List Char × List Char :=
  let word := cs.takeWhile isScalar
  let rest := cs.dropWhile isScalar
  match rest with
  | ' ' :: more =>
    if date? word = some [] && (pair? more).isSome then
      (word ++ ' ' :: more.takeWhile isScalar, more.dropWhile isScalar)
    else (word, rest)
  | _ => (word, rest)

/-- The value of a scalar without quotes. -/
def scalarValue? (word : List Char) : Option Datum :=
  if word = ['t', 'r', 'u', 'e'] then some (.bool true)
  else if word = ['f', 'a', 'l', 's', 'e'] then some (.bool false)
  else if isMoment word then some .moment
  else float? word <|> integer? word

end CommandLanguage.Toml

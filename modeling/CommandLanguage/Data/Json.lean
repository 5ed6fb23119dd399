import CommandLanguage.Data.Datum
import CommandLanguage.Text.Numeral

/-!
# JSON

Reading and writing JSON texts.

A whole number without fraction and exponent is kept, and so is a text whose surrogates come in
pairs. Other numbers, negative zero, texts with unpaired surrogates and tables with such a name are
well written, but nothing holds them.
-/

namespace CommandLanguage.Json

/-- The characters that may stand around values. -/
def isBlank (c : Char) : Bool :=
  c = ' ' || c = '\t' || c = '\n' || c = '\r'

/-- The rest of a text after blanks. -/
def skipBlanks (cs : List Char) : List Char :=
  cs.dropWhile isBlank

/-- The value of a hexadecimal digit. -/
def hexValue? (c : Char) : Option Nat :=
  if '0' ≤ c ∧ c ≤ '9' then some (c.toNat - 48)
  else if 'a' ≤ c ∧ c ≤ 'f' then some (c.toNat - 87)
  else if 'A' ≤ c ∧ c ≤ 'F' then some (c.toNat - 55)
  else none

/-- The number that hexadecimal digits write. -/
def hexNumber? (digits : List Char) : Option Nat :=
  digits.foldlM (fun n c => (hexValue? c).map (16 * n + ·)) 0

/-- The character that a letter stands for after a backslash. -/
def escaped? : Char → Option Char
  | '"' => some '"'
  | '\\' => some '\\'
  | '/' => some '/'
  | 'b' => some '\x08'
  | 'f' => some '\x0c'
  | 'n' => some '\n'
  | 'r' => some '\r'
  | 't' => some '\t'
  | _ => none

/-- The code units of a text up to its closing quote, and the rest after it. -/
def units : List Char → Option (List Nat × List Char)
  | [] => none
  | '"' :: cs => some ([], cs)
  | '\\' :: 'u' :: a :: b :: c :: d :: cs => do
    let unit ← hexNumber? [a, b, c, d]
    let (more, rest) ← units cs
    return (unit :: more, rest)
  | '\\' :: c :: cs => do
    let char ← escaped? c
    let (more, rest) ← units cs
    return (char.toNat :: more, rest)
  | c :: cs =>
    if c.toNat < 0x20 || c = '\\' then none
    else do
      let (more, rest) ← units cs
      return (c.toNat :: more, rest)

/-- The characters of code units; nothing if a surrogate has no partner. -/
def characters? : List Nat → Option (List Char)
  | [] => some []
  | [u] => if 0xD800 ≤ u && u < 0xE000 then none else some [Char.ofNat u]
  | u :: v :: us =>
    if 0xD800 ≤ u && u < 0xDC00 then
      if 0xDC00 ≤ v && v < 0xE000 then
        (characters? us).map (Char.ofNat (0x10000 + (u - 0xD800) * 0x400 + (v - 0xDC00)) :: ·)
      else none
    else if 0xDC00 ≤ u && u < 0xE000 then none
    else (characters? (v :: us)).map (Char.ofNat u :: ·)

/-- A text after its opening quote, if its surrogates come in pairs, and the rest after it. -/
def string? (cs : List Char) : Option (Option String × List Char) :=
  (units cs).map fun (us, rest) => ((characters? us).map String.ofList, rest)

/-- Digits, at least one, and the rest after them. -/
def digits? (cs : List Char) : Option (List Char × List Char) :=
  let digits := cs.takeWhile Text.isDigit
  if digits.isEmpty then none else some (digits, cs.dropWhile Text.isDigit)

/-- The rest after a fraction; whether there is one. -/
def fraction? : List Char → Option (Bool × List Char)
  | '.' :: cs => (digits? cs).map fun (_, rest) => (true, rest)
  | cs => some (false, cs)

/-- The rest after an exponent; whether there is one. -/
def exponent? : List Char → Option (Bool × List Char)
  | c :: cs =>
    if c = 'e' || c = 'E' then (digits? (Text.takeSign cs).2).map fun (_, rest) => (true, rest)
    else some (false, c :: cs)
  | [] => some (false, [])

/-- A number, and the rest after it. -/
def number? (cs : List Char) : Option (Datum × List Char) := do
  let negative := cs.head? = some '-'
  let (digits, rest) ← digits? (if negative then cs.tail else cs)
  if digits.head? = some '0' && 1 < digits.length then none
  else
    let (hasFraction, rest) ← fraction? rest
    let (hasExponent, rest) ← exponent? rest
    let n := Text.digitsValue digits
    -- Negative zero is no whole number here: it keeps its sign.
    let whole := !hasFraction && !hasExponent && !(negative && n = 0)
    return (if whole then .int (Text.applySign negative n) else .other, rest)

/-- The rest of a text after a word that begins it. -/
def after? (word : String) (cs : List Char) : Option (List Char) :=
  if word.toList.isPrefixOf cs then some (cs.drop word.toList.length) else none

/-- The table of fields, if their names are texts. -/
def tableOf (fields : List (Option String × Datum)) : Datum :=
  let named : Option (List (String × Datum)) :=
    fields.mapM fun (name, content) => name.map (·, content)
  named.elim .other .table

mutual

/-- A value, and the rest after it. Each step uses up one of `fuel`. -/
def value? (fuel : Nat) (cs : List Char) : Option (Datum × List Char) :=
  match fuel with
  | 0 => none
  | fuel + 1 =>
    match skipBlanks cs with
    | '"' :: cs => (string? cs).map fun (s, rest) => (s.elim .other .text, rest)
    | '[' :: cs =>
      match skipBlanks cs with
      | ']' :: cs => some (.list [], cs)
      | cs => (items? fuel cs).map fun (items, rest) => (.list items, rest)
    | '{' :: cs =>
      match skipBlanks cs with
      | '}' :: cs => some (.table [], cs)
      | cs => (fields? fuel cs).map fun (fields, rest) => (tableOf fields, rest)
    | cs =>
      ((after? "null" cs).map fun rest => (.null, rest)) <|>
        ((after? "true" cs).map fun rest => (.bool true, rest)) <|>
        ((after? "false" cs).map fun rest => (.bool false, rest)) <|> number? cs

/-- The items of a list up to its closing bracket, and the rest after it. -/
def items? (fuel : Nat) (cs : List Char) : Option (List Datum × List Char) :=
  match fuel with
  | 0 => none
  | fuel + 1 => do
    let (item, cs) ← value? fuel cs
    match skipBlanks cs with
    | ']' :: cs => return ([item], cs)
    | ',' :: cs =>
      let (items, cs) ← items? fuel cs
      return (item :: items, cs)
    | _ => none

/-- The fields of a table up to its closing brace, and the rest after it. -/
def fields? (fuel : Nat) (cs : List Char) :
    Option (List (Option String × Datum) × List Char) :=
  match fuel with
  | 0 => none
  | fuel + 1 =>
    match skipBlanks cs with
    | '"' :: cs => do
      let (name, cs) ← string? cs
      match skipBlanks cs with
      | ':' :: cs =>
        let (content, cs) ← value? fuel cs
        match skipBlanks cs with
        | '}' :: cs => return ([(name, content)], cs)
        | ',' :: cs =>
          let (fields, cs) ← fields? fuel cs
          return ((name, content) :: fields, cs)
        | _ => none
      | _ => none
    | _ => none

end

/-- The value that a text writes, with nothing but blanks around it. -/
def read? (s : String) : Option Datum :=
  let cs := s.toList
  match value? (2 * cs.length + 2) cs with
  | some (d, rest) => if (skipBlanks rest).isEmpty then some d else none
  | none => none

/-! ## Writing -/

/-- A hexadecimal digit. -/
def hexDigit (n : Nat) : Char :=
  Char.ofNat (if n < 10 then 48 + n else 87 + n)

/-- A character as it is written between quotes. -/
def writeChar (c : Char) : List Char :=
  if c = '"' then ['\\', '"']
  else if c = '\\' then ['\\', '\\']
  else if c = '\n' then ['\\', 'n']
  else if c = '\r' then ['\\', 'r']
  else if c = '\t' then ['\\', 't']
  else if c = '\x08' then ['\\', 'b']
  else if c = '\x0c' then ['\\', 'f']
  else if c.toNat < 0x20 then
    ['\\', 'u', '0', '0', hexDigit (c.toNat / 16), hexDigit (c.toNat % 16)]
  else [c]

/-- A text between quotes. -/
def writeText (s : String) : String :=
  "\"" ++ String.ofList (s.toList.flatMap writeChar) ++ "\""

/-- The text of a value, without blanks. What nothing holds is written as null. -/
def write : Datum → String
  | .null | .moment | .other => "null"
  | .bool b => if b then "true" else "false"
  | .int n => toString n
  | .text s => writeText s
  | .list items => "[" ++ ",".intercalate (writeItems items) ++ "]"
  | .table fields => "\x7b" ++ ",".intercalate (writeFields fields) ++ "\x7d"
where
  writeItems : List Datum → List String
    | [] => []
    | d :: ds => write d :: writeItems ds
  writeFields : List (String × Datum) → List String
    | [] => []
    | (name, d) :: fields => (writeText name ++ ":" ++ write d) :: writeFields fields

end CommandLanguage.Json

import CommandLanguage.Data.Json

/-!
# TOML lexemes

Blanks, comments, ends of lines, quoted texts and keys of TOML 1.0.

Each reader takes the characters left and gives what it read with the rest after it.
-/

namespace CommandLanguage.Toml

/-- The blanks within a line. -/
def isBlank (c : Char) : Bool :=
  c = ' ' || c = '\t'

/-- The rest after blanks. -/
def skipBlanks (cs : List Char) : List Char :=
  cs.dropWhile isBlank

/-- The characters of comments and quoted texts: no control characters but the tab. -/
def isPrintable (c : Char) : Bool :=
  c = '\t' || (0x20 ≤ c.toNat && c.toNat != 0x7F)

/-- The rest after a comment, if one begins here. -/
def skipComment : List Char → List Char
  | '#' :: cs => cs.dropWhile isPrintable
  | cs => cs

/-- The rest after the end of a line. -/
def newline? : List Char → Option (List Char)
  | '\n' :: cs => some cs
  | '\r' :: '\n' :: cs => some cs
  | _ => none

/-- The rest after what may follow a statement: blanks, a comment, and the end of the line or of the
text. -/
def lineEnd? (cs : List Char) : Option (List Char) :=
  match skipComment (skipBlanks cs) with
  | [] => some []
  | cs => newline? cs

/-- Skip blanks, comments and ends of lines, each step using up one of `fuel`. -/
def skipLines (fuel : Nat) (cs : List Char) : List Char :=
  match fuel with
  | 0 => cs
  | fuel + 1 =>
    let cs := skipComment (skipBlanks cs)
    match newline? cs with
    | some cs => skipLines fuel cs
    | none => cs

/-! ## Quoted texts -/

/-- The character that hexadecimal digits name; nothing for a surrogate. -/
def scalar? (digits : List Char) : Option Char := do
  let n ← Json.hexNumber? digits
  if n < 0xD800 ∨ (0xE000 ≤ n ∧ n < 0x110000) then some (Char.ofNat n) else none

/-- The character that a letter stands for after a backslash. -/
def escaped? : Char → Option Char
  | '/' => none
  | c => Json.escaped? c

/-- Put a character in front of what was read after it. -/
def prepend (c : Char) (read : Option (List Char × List Char)) : Option (List Char × List Char) :=
  read.map fun (text, rest) => (c :: text, rest)

/-- A text up to its closing double quote. -/
def basic? : List Char → Option (List Char × List Char)
  | [] => none
  | '"' :: cs => some ([], cs)
  | '\\' :: 'u' :: a :: b :: c :: d :: cs =>
    (scalar? [a, b, c, d]).bind fun char => prepend char (basic? cs)
  | '\\' :: 'U' :: a :: b :: c :: d :: e :: f :: g :: h :: cs =>
    (scalar? [a, b, c, d, e, f, g, h]).bind fun char => prepend char (basic? cs)
  | '\\' :: c :: cs => (escaped? c).bind fun char => prepend char (basic? cs)
  | c :: cs => if isPrintable c && c != '\\' then prepend c (basic? cs) else none

/-- A text up to its closing single quote. -/
def literal? : List Char → Option (List Char × List Char)
  | [] => none
  | '\'' :: cs => some ([], cs)
  | c :: cs => if isPrintable c then prepend c (literal? cs) else none

/-- Up to two quotes that stand before three closing ones, and the rest after all of them. -/
def closing (quote : Char) (cs : List Char) : List Char × List Char :=
  let extra := (cs.takeWhile (· = quote)).take 2
  (extra, cs.drop extra.length)

/-- How a text of several lines goes on. -/
inductive LineState where
  /-- With its characters. -/
  | text
  /-- With the rest of a line that a backslash ended. -/
  | broken
  /-- With blanks and ends of lines that a backslash swallows. -/
  | swallowing
deriving DecidableEq, Repr

/-- A text of several lines up to three double quotes. -/
def basicLines? : LineState → List Char → Option (List Char × List Char)
  | _, [] => none
  | .broken, c :: cs =>
    if c = '\n' then basicLines? .swallowing cs
    else if c = '\r' && cs.head? = some '\n' then basicLines? .broken cs
    else if isBlank c then basicLines? .broken cs
    else none
  | _, '"' :: '"' :: '"' :: cs => some (closing '"' cs)
  | _, '\\' :: 'u' :: a :: b :: c :: d :: cs =>
    (scalar? [a, b, c, d]).bind fun char => prepend char (basicLines? .text cs)
  | _, '\\' :: 'U' :: a :: b :: c :: d :: e :: f :: g :: h :: cs =>
    (scalar? [a, b, c, d, e, f, g, h]).bind fun char => prepend char (basicLines? .text cs)
  | _, '\\' :: c :: cs =>
    match escaped? c with
    | some char => prepend char (basicLines? .text cs)
    | none =>
      if c = '\n' then basicLines? .swallowing cs
      else if isBlank c || (c = '\r' && cs.head? = some '\n') then basicLines? .broken cs
      else none
  | .swallowing, c :: cs =>
    if isBlank c || c = '\n' || (c = '\r' && cs.head? = some '\n') then basicLines? .swallowing cs
    else if isPrintable c then prepend c (basicLines? .text cs)
    else none
  | .text, c :: cs =>
    if c = '\r' && cs.head? = some '\n' then basicLines? .text cs
    else if c = '\n' || (isPrintable c && c != '\\') then prepend c (basicLines? .text cs)
    else none

/-- A text of several lines up to three single quotes. -/
def literalLines? : List Char → Option (List Char × List Char)
  | [] => none
  | '\'' :: '\'' :: '\'' :: cs => some (closing '\'' cs)
  | c :: cs =>
    if c = '\r' && cs.head? = some '\n' then literalLines? cs
    else if c = '\n' || isPrintable c then prepend c (literalLines? cs)
    else none

/-- A text of several lines after its opening quotes. A first end of line does not count. -/
def afterOpening (cs : List Char) : List Char :=
  (newline? cs).getD cs

/-- A quoted text; nothing if none begins here or it is malformed. -/
def quoted? : List Char → Option (String × List Char)
  | '"' :: '"' :: '"' :: cs => pack (basicLines? .text (afterOpening cs))
  | '"' :: cs => pack (basic? cs)
  | '\'' :: '\'' :: '\'' :: cs => pack (literalLines? (afterOpening cs))
  | '\'' :: cs => pack (literal? cs)
  | _ => none
where
  pack (read : Option (List Char × List Char)) : Option (String × List Char) :=
    read.map fun (text, rest) => (String.ofList text, rest)

/-! ## Keys -/

/-- The characters of keys without quotes. -/
def isBareKey (c : Char) : Bool :=
  Text.isDigit c || ('a' ≤ c && c ≤ 'z') || ('A' ≤ c && c ≤ 'Z') || c = '_' || c = '-'

/-- One part of a key. -/
def keyPart? : List Char → Option (String × List Char)
  | '"' :: cs => (basic? cs).map fun (text, rest) => (String.ofList text, rest)
  | '\'' :: cs => (literal? cs).map fun (text, rest) => (String.ofList text, rest)
  | cs =>
    let name := cs.takeWhile isBareKey
    if name.isEmpty then none else some (String.ofList name, cs.dropWhile isBareKey)

/-- How many parts a key must stay below, and how deep values may be nested. -/
def nestingLimit : Nat := 80

/-- A key of parts joined by points, with blanks around them. At most `room` parts are read. -/
def key? (room : Nat) (cs : List Char) : Option (List String × List Char) :=
  match room with
  | 0 => none
  | room + 1 => do
    let (part, cs) ← keyPart? (skipBlanks cs)
    match skipBlanks cs with
    | '.' :: cs =>
      let (parts, cs) ← key? room cs
      return (part :: parts, cs)
    | cs => return ([part], cs)

end CommandLanguage.Toml

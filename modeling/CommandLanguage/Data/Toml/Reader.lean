import CommandLanguage.Data.Toml.Scalar
import CommandLanguage.Data.Toml.Table

/-!
# TOML documents

Reading a TOML 1.0 document: its values, its statements line by line, and the table they build up.
A document with any fault has no value.
-/

namespace CommandLanguage.Toml

mutual

/-- A value inside `depth` lists and tables, and the rest after it. Each step uses up one of `fuel`. -/
def value? (fuel depth : Nat) (cs : List Char) : Option (Datum × List Char) :=
  match fuel with
  | 0 => none
  | fuel + 1 =>
    match cs with
    | '"' :: _ | '\'' :: _ => (quoted? cs).map fun (s, rest) => (.text s, rest)
    | '[' :: cs =>
      if nestingLimit ≤ depth + 1 then none
      else (items? fuel (depth + 1) cs).map fun (items, rest) => (.list items, rest)
    | '{' :: cs =>
      if nestingLimit ≤ depth + 1 then none
      else
        match skipBlanks cs with
        | '}' :: rest => some (.table [], rest)
        | cs =>
          (fields? fuel (depth + 1) [] cs).map fun (items, rest) => (.table items.toFields, rest)
    | cs =>
      let (word, rest) := scalarWord cs
      (scalarValue? word).map fun d => (d, rest)

/-- The items of a list up to its closing bracket, and the rest after it. -/
def items? (fuel depth : Nat) (cs : List Char) : Option (List Datum × List Char) :=
  match fuel with
  | 0 => none
  | fuel + 1 =>
    match skipLines cs.length cs with
    | ']' :: cs => some ([], cs)
    | cs => do
      let (item, cs) ← value? fuel depth cs
      match skipLines cs.length cs with
      | ']' :: cs => return ([item], cs)
      | ',' :: cs =>
        let (items, cs) ← items? fuel depth cs
        return (item :: items, cs)
      | _ => none

/-- The contents of a table in braces after `before`, and the rest after its closing brace. -/
def fields? (fuel depth : Nat) (before : Items) (cs : List Char) : Option (Items × List Char) :=
  match fuel with
  | 0 => none
  | fuel + 1 => do
    let (key, cs) ← key? (nestingLimit - 1) cs
    match cs with
    | '=' :: cs =>
      let (d, cs) ← value? fuel depth (skipBlanks cs)
      let items ← Items.assign .header before key d
      match skipBlanks cs with
      | '}' :: cs => return (items, cs)
      | ',' :: cs => fields? fuel depth items cs
      | _ => none
    | _ => none

end

/-- The key of a header after its opening bracket, and the rest after its closing one. -/
def headerKey? (closing : String) (cs : List Char) : Option (List String × List Char) := do
  let (key, cs) ← key? (nestingLimit - 1) cs
  let cs ← Json.after? closing cs
  return (key, cs)

/-- A statement, and the rest after it on its line. -/
def statement? (fuel : Nat) : List Char → Option (Statement × List Char)
  | '[' :: '[' :: cs => (headerKey? "]]" cs).map fun (key, rest) => (.element key, rest)
  | '[' :: cs => (headerKey? "]" cs).map fun (key, rest) => (.header key, rest)
  | cs => do
    let (key, cs) ← key? (nestingLimit - 1) cs
    let cs ← Json.after? "=" cs
    let (d, cs) ← value? fuel 0 (skipBlanks cs)
    return (.assign key d, cs)

/-- The statements of a text, each on a line of its own. Each step uses up one of `fuel`. -/
def statements? (fuel : Nat) (cs : List Char) : Option (List Statement) :=
  match fuel with
  | 0 => none
  | fuel + 1 =>
    match skipLines cs.length cs with
    | [] => some []
    | cs => do
      let (statement, cs) ← statement? (2 * cs.length + 2) cs
      let cs ← lineEnd? cs
      let statements ← statements? fuel cs
      return statement :: statements

/-- A text without the mark that may open it. -/
def dropMark : List Char → List Char
  | '\uFEFF' :: cs => cs
  | cs => cs

/-- The table that a document writes, or nothing if the document is malformed. -/
def read? (s : String) : Option Datum :=
  let cs := dropMark s.toList
  (statements? (cs.length + 1) cs).bind Statement.carryOut

end CommandLanguage.Toml

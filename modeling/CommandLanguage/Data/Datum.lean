import CommandLanguage.Priority

/-!
# Data

Values as they are written in JSON and TOML, and how records are read from them.

A record is written as a table of named fields, or as a list with its fields in their order. Fields
without a meaning are passed over, and a field may be named only once. What a list leaves out at its
end must have a default of its own; a table may also leave out what may be missing.
-/

namespace CommandLanguage

/-- A value of a data format. -/
inductive Datum where
  | null
  | bool (value : Bool)
  | int (value : Int)
  | text (value : String)
  | list (items : List Datum)
  | table (fields : List (String × Datum))
  /-- A date or a time. -/
  | moment
  /-- A value that is well written and that nothing can hold, such as a fraction. -/
  | other

/-- The formats that data come from. -/
inductive Format where
  | json
  | toml
deriving DecidableEq, Repr

/-- The fields of a record, by name. -/
structure Fields where
  entries : List (String × Datum)
  /-- Whether they were written by name, not in order. -/
  named : Bool

namespace Datum

/-- The truth value of a datum. -/
def toBool? : Datum → Option Bool
  | .bool b => some b
  | _ => none

/-- The text of a datum. -/
def toText? : Datum → Option String
  | .text s => some s
  | _ => none

/-- The whole number of a datum. -/
def toInt? : Datum → Option Int
  | .int n => some n
  | _ => none

/-- The items of a datum, each read in turn. -/
def toList? {α : Type} (read : Datum → Option α) : Datum → Option (List α)
  | .list items => items.mapM read
  | _ => none

/-- The texts of a datum. -/
def toTexts? : Datum → Option (List String) :=
  toList? toText?

/-- A whole number of 64 bits without sign. -/
def toSeconds? (d : Datum) : Option Nat :=
  d.toInt?.bind fun n => if 0 ≤ n ∧ n < Nat.pow 2 64 then some n.toNat else none

/-- A priority level. -/
def toPriority? (d : Datum) : Option Priority :=
  d.toInt?.bind Priority.ofLevel?

/-- Whether a datum can stand after the name of a choice that has no content. -/
def isUnit (format : Format) : Datum → Bool
  | .null => format = .json
  | .list items => format = .toml && items.isEmpty
  | .table fields => format = .toml && fields.isEmpty
  | _ => false

/-- The name of a choice without content: a text, or a table with that name alone. -/
def toChoice? (format : Format) : Datum → Option String
  | .text s => some s
  | .table [(name, content)] => if content.isUnit format then some name else none
  | _ => none

/-- The fields of a record that has fields of these names. JSON refuses a list that is too long. A date
or time has none of them. -/
def fields? (format : Format) (names : List String) : Datum → Option Fields
  | .table entries =>
    if names.all fun name => (entries.filter (·.1 == name)).length ≤ 1 then some ⟨entries, true⟩
    else none
  | .list items =>
    if items.length ≤ names.length || format = .toml then some ⟨names.zip items, false⟩ else none
  | .moment => some ⟨[], true⟩
  | _ => none

/-- The field of a table. -/
def field? (name : String) : Datum → Option Datum
  | .table entries => entries.lookup name
  | _ => none

/-- A text, or nothing. -/
def ofText? (s : Option String) : Datum :=
  s.elim .null .text

/-- A list of texts. -/
def ofTexts (ss : List String) : Datum :=
  .list (ss.map .text)

end Datum

namespace Fields

variable {α : Type}

/-- A field that has to be there. -/
def required (fs : Fields) (name : String) (read : Datum → Option α) : Option α :=
  (fs.entries.lookup name).bind read

/-- A field that may be missing or null. -/
def optional (fs : Fields) (name : String) (read : Datum → Option α) : Option (Option α) :=
  match fs.entries.lookup name with
  | none => if fs.named then some none else none
  | some .null => some none
  | some d => (read d).map some

/-- A field with a value to take if it is missing. -/
def withDefault (fs : Fields) (name : String) (value : α) (read : Datum → Option α) : Option α :=
  match fs.entries.lookup name with
  | none => some value
  | some d => read d

end Fields

end CommandLanguage

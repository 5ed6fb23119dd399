import CommandLanguage.Priority
import CommandLanguage.Text.AsciiCase

/-!
# Value types

The type of value that a parameter asks for. A type is known by its name alone: the library
compares names and hands them to whoever decides which words fit.
-/

namespace CommandLanguage

/-- The type of the values of a parameter. -/
structure ValueType where
  name : String
deriving DecidableEq, Repr

namespace ValueType

/-- Any text. -/
def string : ValueType := ⟨"string"⟩

/-- A whole number of 32 bits. -/
def int : ValueType := ⟨"int"⟩

/-- A whole number of 64 bits. -/
def long : ValueType := ⟨"long"⟩

/-- A finite number in single precision. -/
def float : ValueType := ⟨"float"⟩

/-- A finite number in double precision. -/
def double : ValueType := ⟨"double"⟩

/-- One of the words `true` and `false`. -/
def boolean : ValueType := ⟨"boolean"⟩

/-- The type that all literals share. -/
def literal : ValueType := ⟨"literal"⟩

/-- The type that a declaration names. The built-in types have several spellings, in any case; any
other name is a type of its own. -/
def ofName (name : String) : ValueType :=
  let folded := Text.foldCase name
  if folded ∈ ["string", "str", "text"] then string
  else if folded ∈ ["int", "integer"] then int
  else if folded = "long" then long
  else if folded = "float" then float
  else if folded ∈ ["double", "number"] then double
  else if folded ∈ ["bool", "boolean"] then boolean
  else if folded = "literal" then literal
  else ⟨name⟩

/-- The priority of a parameter that declares none: text comes last, and of two types of numbers the
wider one comes first. -/
def defaultPriority (t : ValueType) : Priority :=
  if t = string then .low
  else if t = long then Priority.normal.plus 1
  else if t = float then .high
  else if t = double then Priority.high.plus 1
  else if t = literal then .maximum
  else .normal

end ValueType

end CommandLanguage

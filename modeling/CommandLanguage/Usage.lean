import CommandLanguage.Parameter

/-!
# Usages

One way of invoking a command: a list of parameters bound to a handler. A default usage is what a
command or one of its literals falls back to.
-/

namespace CommandLanguage

/-- One way of invoking a command. -/
structure Usage where
  handler : String
  parameters : List Parameter
  permission : Option String
  description : Option String
  isDefault : Bool
deriving DecidableEq

namespace Usage

/-- Whether two usages ask for the same input: handlers and permissions take no part. -/
def sameForm (u v : Usage) : Bool :=
  u.isDefault == v.isDefault && u.parameters == v.parameters

/-- The parameters of a usage that are not flags. -/
def positional (u : Usage) : List Parameter :=
  u.parameters.filter (!·.isFlag)

/-- The flags of a usage. -/
def flags (u : Usage) : List Parameter :=
  u.parameters.filter (·.isFlag)

/-- The parameters of a usage as they are shown. -/
def display (u : Usage) : String :=
  " ".intercalate (u.parameters.map (·.format))

/-- A usage as it is shown after the name of its command. -/
def format (u : Usage) (command : String) : String :=
  " ".intercalate (command :: u.parameters.map (·.format))

theorem sameForm_iff {u v : Usage} :
    u.sameForm v = true ↔ u.isDefault = v.isDefault ∧ u.parameters = v.parameters := by
  simp [sameForm]

end Usage

/-- A usage with its place in the list of usages of its command. -/
structure NumberedUsage where
  number : Nat
  usage : Usage
deriving DecidableEq

end CommandLanguage

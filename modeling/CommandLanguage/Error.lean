/-!
# Errors and notices

Why a command is refused, and what is worth a warning while commands are built. Resolving and
completing a line never fails: their outcomes are ordinary values.
-/

namespace CommandLanguage

/-- What is wrong with one declared parameter. -/
inductive DeclarationFault where
  /-- A name of white space alone. -/
  | emptyName
  /-- A literal, flag or switch that takes every word left. -/
  | cannotBeGreedy (parameter : String)
  /-- A literal or switch with a value type. -/
  | cannotHaveType (parameter : String)
  /-- A flag beyond the longest run of flags. -/
  | longFlagRun (limit : Nat) (parameter : String)
  /-- A parameter that shares a node with one that is not as greedy. -/
  | greedyElsewhere (parameter : String)
deriving DecidableEq, Repr

/-- Why a command is refused. -/
inductive GrammarError where
  /-- Arguments below one node that no word can tell apart. -/
  | ambiguous (command parameter : String) (siblings : List String)
  /-- A greedy parameter with something after it. -/
  | greedyNotLast (command parameter : String)
  /-- A default usage with a parameter that is no literal. -/
  | invalidDefault (command parameter : String)
  /-- A name that another command has. -/
  | nameTaken (name : String)
  /-- A parameter that cannot be built. -/
  | invalidDeclaration (command : String) (fault : DeclarationFault)
deriving DecidableEq, Repr

/-- The wording of a fault. -/
def DeclarationFault.message : DeclarationFault → String
  | .emptyName => "parameter with an empty name"
  | .cannotBeGreedy p => "'" ++ p ++ "' cannot be greedy"
  | .cannotHaveType p => "'" ++ p ++ "' cannot declare a type"
  | .longFlagRun limit p =>
    "more than " ++ toString limit ++ " consecutive optional flags (at '" ++ p ++ "')"
  | .greedyElsewhere p => "parameter '" ++ p ++ "' is greedy in one usage but not in another"

/-- The wording of an error. -/
def GrammarError.message : GrammarError → String
  | .ambiguous command p siblings =>
    "ambiguous grammar in command '" ++ command ++ "': parameter '" ++ p ++
      "' has indistinguishable children [" ++ ", ".intercalate siblings ++ "]"
  | .greedyNotLast command p =>
    "greedy parameter '" ++ p ++ "' in command '" ++ command ++ "' must be the last parameter"
  | .invalidDefault command p =>
    "default usage of command '" ++ command ++ "' may only contain literals, found '" ++ p ++ "'"
  | .nameTaken name => "command '" ++ name ++ "' is already registered"
  | .invalidDeclaration command fault =>
    "invalid declaration in command '" ++ command ++ "': " ++ fault.message

/-- The command that an error is about. -/
def GrammarError.command : GrammarError → String
  | .ambiguous command _ _ => command
  | .greedyNotLast command _ => command
  | .invalidDefault command _ => command
  | .nameTaken name => name
  | .invalidDeclaration command _ => command

/-- Something to warn about while commands are built. -/
inductive Notice where
  /-- A command whose tree is refused. -/
  | rejected (command : String) (error : GrammarError)
  /-- A flag that wants a name that another flag has. -/
  | aliasTaken (name flag owner : String)
deriving DecidableEq, Repr

/-- The wording of a notice. -/
def Notice.message : Notice → String
  | .rejected command error => command ++ ": rejected: " ++ error.message
  | .aliasTaken name flag owner =>
    "flag alias '" ++ name ++ "' of '" ++ flag ++ "' already belongs to '" ++ owner ++ "'"

end CommandLanguage

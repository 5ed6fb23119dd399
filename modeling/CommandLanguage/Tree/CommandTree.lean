import CommandLanguage.Capabilities
import CommandLanguage.FlagTable
import CommandLanguage.Tree.Ambiguity
import CommandLanguage.Tree.Permission

/-!
# Command trees

A grammar that has been checked and sealed: it resolves and completes words, and no longer changes.
-/

namespace CommandLanguage

/-- How a sealed tree behaves. -/
structure TreeSettings where
  /-- Check the types of required arguments too, not only of optional ones. -/
  strict : Bool
  /-- Also suggest what can be typed once an optional argument is passed over. -/
  overlappingSuggestions : Bool
  /-- Give a permission to every node that declares none. -/
  autoPermissions : Bool
  permissionDelimiter : String
  /-- How long the positions reached by completion are kept, in seconds. -/
  suggestionTtl : Nat
deriving DecidableEq, Repr

/-- How long completion keeps its positions unless told otherwise, in seconds. -/
def defaultSuggestionTtl : Nat := 10

/-- The settings unless told otherwise. -/
def TreeSettings.default : TreeSettings where
  strict := false
  overlappingSuggestions := false
  autoPermissions := false
  permissionDelimiter := "."
  suggestionTtl := defaultSuggestionTtl

/-- A sealed grammar. -/
structure CommandTree where
  root : Node
  usages : List Usage
  flags : FlagTable
  settings : TreeSettings

/-- Seal a grammar: refuse it if it is ambiguous, give permissions if the settings say so, and gather
its flags. -/
def Grammar.seal (g : Grammar) (settings : TreeSettings) : Except GrammarError CommandTree :=
  match g.fault? with
  | some e => .error e
  | none =>
    let g := if settings.autoPermissions then g.assignPermissions settings.permissionDelimiter else g
    .ok ⟨g.root, g.usages, FlagTable.ofUsages g.usages, settings⟩

/-- What is said while a grammar is sealed. -/
def Grammar.notices (g : Grammar) : List Notice :=
  match g.fault? with
  | some e => [.rejected g.command e]
  | none => FlagTable.empty.allConflicts (FlagTable.declared g.usages)

namespace CommandTree

/-- The name of the command. -/
def name (t : CommandTree) : String := t.root.name

/-- The number of nodes below the root. -/
def size (t : CommandTree) : Nat := t.root.size - 1

end CommandTree

end CommandLanguage

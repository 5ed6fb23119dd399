import CommandLanguage.Declaration
import CommandLanguage.Tree.CommandTree

/-!
# Settings

The settings of a configuration, the configuration itself, and overlays: what a user's file changes
of the defaults.

An overlay first removes commands by name. A command that it declares then takes the place of the
first one of its name, or comes last. Names are compared without regard to the case of ASCII
letters. An overlay that replaces keeps none of the commands before it.
-/

namespace CommandLanguage

/-- The settings of a configuration. -/
structure Settings where
  strict : Bool
  overlappingSuggestions : Bool
  autoPermissions : Bool
  permissionDelimiter : String
  suggestionTtl : Nat
  logLevel : String
  /-- Where outcomes are logged; nowhere if it is blank. -/
  logFile : String
deriving DecidableEq, Repr

/-- The settings unless told otherwise. -/
def Settings.default : Settings where
  strict := false
  overlappingSuggestions := false
  autoPermissions := false
  permissionDelimiter := "."
  suggestionTtl := defaultSuggestionTtl
  logLevel := "warn"
  logFile := ""

/-- The settings that a tree is sealed with. -/
def Settings.forTrees (s : Settings) : TreeSettings where
  strict := s.strict
  overlappingSuggestions := s.overlappingSuggestions
  autoPermissions := s.autoPermissions
  permissionDelimiter := s.permissionDelimiter
  suggestionTtl := s.suggestionTtl

/-- Settings and commands. -/
structure Config where
  settings : Settings
  commands : List CommandDeclaration
deriving DecidableEq

/-- The settings that an overlay changes. -/
structure SettingsOverlay where
  strict : Option Bool
  overlappingSuggestions : Option Bool
  autoPermissions : Option Bool
  permissionDelimiter : Option String
  suggestionTtl : Option Nat
  logLevel : Option String
  logFile : Option String
deriving DecidableEq, Repr

/-- The overlay that changes no setting. -/
def SettingsOverlay.none : SettingsOverlay :=
  ⟨.none, .none, .none, .none, .none, .none, .none⟩

/-- What a user's file changes. -/
structure Overlay where
  /-- Drop every command before adding those of the overlay. -/
  replace : Bool
  removed : List String
  settings : SettingsOverlay
  commands : List CommandDeclaration
deriving DecidableEq

/-- Settings with those of an overlay in place of their own. -/
def Settings.overlaid (s : Settings) (o : SettingsOverlay) : Settings where
  strict := o.strict.getD s.strict
  overlappingSuggestions := o.overlappingSuggestions.getD s.overlappingSuggestions
  autoPermissions := o.autoPermissions.getD s.autoPermissions
  permissionDelimiter := o.permissionDelimiter.getD s.permissionDelimiter
  suggestionTtl := o.suggestionTtl.getD s.suggestionTtl
  logLevel := o.logLevel.getD s.logLevel
  logFile := o.logFile.getD s.logFile

namespace CommandDeclaration

/-- Whether a command is declared under a name. -/
def isNamed (d : CommandDeclaration) (name : String) : Bool :=
  Text.sameIgnoringCase d.name name

/-- Commands with one more: in place of the first of its name, or at the end. -/
def redeclare (d : CommandDeclaration) : List CommandDeclaration → List CommandDeclaration
  | [] => [d]
  | c :: cs => if c.isNamed d.name then d :: cs else c :: redeclare d cs

/-- Commands merged with those of an overlay. -/
def merge (base added : List CommandDeclaration) (removed : List String) (replace : Bool) :
    List CommandDeclaration :=
  if replace then added
  else
    let kept := base.filter fun c => !removed.any c.isNamed
    added.foldl (fun commands d => redeclare d commands) kept

end CommandDeclaration

namespace Config

/-- A configuration under an overlay. -/
def overlaid (c : Config) (o : Overlay) : Config where
  settings := c.settings.overlaid o.settings
  commands := CommandDeclaration.merge c.commands o.commands o.removed o.replace

/-- The first command declared under a name. -/
def command? (c : Config) (name : String) : Option CommandDeclaration :=
  c.commands.find? (·.isNamed name)

end Config

end CommandLanguage

import CommandLanguage.Settings
import CommandLanguage.Tree.Completion

/-!
# Registries

The commands that lines are resolved against. A command goes by its name and its aliases, without
regard to case, and no two commands share one. The first word of a line names the command, with or
without a leading slash; its tree takes the rest.
-/

namespace CommandLanguage

/-- A registered command: its tree, and the positions that completion reached lately. -/
structure Command (Source : Type) where
  tree : CommandTree
  cache : SuggestionCache Source

namespace Command

variable {Source : Type}

/-- A command for a sealed tree. -/
def ofTree (tree : CommandTree) : Command Source := ⟨tree, tree.emptyCache⟩

/-- The name of a command. -/
def name (c : Command Source) : String := c.tree.name

/-- The further names of a command. -/
def aliases (c : Command Source) : List String := c.tree.root.parameter.aliases

/-- The names of a command, its own first. -/
def names (c : Command Source) : List String := c.tree.root.parameter.names

/-- What a command is said to do. -/
def description (c : Command Source) : Option String := c.tree.root.parameter.description

/-- The names of a command in lower case. -/
def keys (c : Command Source) : List String := c.names.map Text.lowercase

/-- Whether a source may use a command at all. -/
def permits (c : Command Source) (caps : Capabilities Source) (source : Source) : Bool :=
  caps.permits source c.tree.root.permission

end Command

/-- The commands that lines are resolved against. -/
structure Registry (Source : Type) where
  commands : List (Command Source)
  settings : TreeSettings

/-- The answer to a line. -/
inductive Dispatch (Source : Type) where
  /-- The line has no words. -/
  | empty
  /-- The first word names no command. -/
  | unknownCommand (name : String)
  /-- The command of the first word was asked about the others. -/
  | matched (command : Command Source) (search : Search)

namespace Dispatch

variable {Source : Type}

/-- How the resolution of a line ended. -/
def status : Dispatch Source → Status
  | .empty => .unknown
  | .unknownCommand _ => .unknown
  | .matched _ search => search.status

/-- The command of a line. -/
def command? : Dispatch Source → Option (Command Source)
  | .matched command _ => some command
  | _ => none

/-- What the command of a line found. -/
def search? : Dispatch Source → Option Search
  | .matched _ search => some search
  | _ => none

end Dispatch

namespace Registry

variable {Source : Type}

/-- The registry without commands. -/
def empty (settings : TreeSettings) : Registry Source := ⟨[], settings⟩

/-- The command that has a key among its names in lower case. -/
def byKey? (r : Registry Source) (key : String) : Option (Command Source) :=
  r.commands.find? (·.keys.contains key)

/-- The command of a name, with or without a leading slash. -/
def get? (r : Registry Source) (name : String) : Option (Command Source) :=
  r.byKey? (Text.lowercase (dropSlash name))

/-- Add a command, unless one of its names is taken. -/
def register (r : Registry Source) (c : Command Source) : Except GrammarError (Registry Source) :=
  match c.keys.find? fun key => (r.byKey? key).isSome with
  | some taken => .error (.nameTaken taken)
  | none => .ok { r with commands := r.commands ++ [c] }

/-- Build a declared command and add it. -/
def declare (r : Registry Source) (d : CommandDeclaration) :
    Except GrammarError (Registry Source) := do
  let grammar ← d.grammar
  let tree ← grammar.seal r.settings
  r.register (.ofTree tree)

/-- Add declared commands in turn; the first that is refused refuses them all. -/
def declareAll (r : Registry Source) (ds : List CommandDeclaration) :
    Except GrammarError (Registry Source) :=
  ds.foldlM declare r

/-- The registry of a configuration. -/
def ofConfig (config : Config) : Except GrammarError (Registry Source) :=
  (empty config.settings.forTrees).declareAll config.commands

/-- What is said while commands are declared in turn, up to the first that is refused. -/
def notices (r : Registry Source) : List CommandDeclaration → List Notice
  | [] => []
  | d :: ds =>
    let said :=
      match d.grammar with
      | .ok grammar => grammar.notices
      | .error _ => []
    match r.declare d with
    | .ok r => said ++ notices r ds
    | .error _ => said

/-- Resolve a line that a splitter divides into words. -/
def dispatchWith (split : String → Option (List String)) (r : Registry Source)
    (caps : Capabilities Source) (source : Source) (line : String) : Dispatch Source :=
  match tokenizeWith split line with
  | [] => .empty
  | first :: tokens =>
    match r.get? first with
    | none => .unknownCommand (commandName line)
    | some command => .matched command (command.tree.dispatch caps source tokens)

/-- Resolve a line. -/
def dispatch (r : Registry Source) (caps : Capabilities Source) (source : Source) (line : String) :
    Dispatch Source :=
  r.dispatchWith Text.shellWords caps source line

/-- The texts that differ in lower case from all before them. Those in `seen` have come before. -/
def unseenNames (seen : List String) : List String → List String
  | [] => []
  | s :: ss =>
    let key := Text.lowercase s
    if key ∈ seen then unseenNames seen ss else s :: unseenNames (key :: seen) ss

/-- The names that complete a first word, for a source. -/
def completeName (r : Registry Source) (caps : Capabilities Source) (source : Source)
    (typed : String) : List String :=
  let names := (r.commands.filter (·.permits caps source)).flatMap (·.names)
  unseenNames [] (names.filter (beginsLike (dropSlash typed)))

/-- The registry with the command of a name changed. -/
def update (r : Registry Source) (name : String) (change : Command Source → Command Source) :
    Registry Source :=
  let key := Text.lowercase (dropSlash name)
  { r with
    commands := r.commands.map fun c => if c.keys.contains key then change c else c }

/-- Complete the last word of a line. The first word is completed to names of commands, later ones by
the tree of their command. -/
def complete [DecidableEq Source] (r : Registry Source) (caps : Capabilities Source) (now : Nat)
    (source : Source) (line : String) : List String × Registry Source :=
  let input := splitForCompletion line
  -- The tree of a command does not see its name, so its words and the target move up by one.
  match input.target, input.tokens with
  | target + 1, first :: tokens =>
    match r.get? first with
    | none => ([], r)
    | some command =>
      let (found, cache) :=
        command.tree.complete caps command.cache now source tokens target input.typed
      (found, r.update first fun c => { c with cache := cache })
  | _, _ => (r.completeName caps source input.typed, r)

end Registry

/-! ## The log of outcomes -/

/-- How many characters of a line are logged. -/
def loggedLength : Nat := 200

/-- What is logged of a line: its status, its command, the handler of its usage or of the closest one,
and its beginning, with tabs between them. -/
def Dispatch.logEntry {Source : Type} (d : Dispatch Source) (line : String) : String :=
  let usage := d.search?.bind fun search => search.usage <|> search.closest
  "\t".intercalate [
    d.status.name,
    (d.command?.map (·.name)).getD "-",
    (usage.map (·.usage.handler)).getD "-",
    String.ofList (line.toList.take loggedLength)]

end CommandLanguage

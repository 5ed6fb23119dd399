import CommandLanguage.Registry

/-!
# Directories

A registry that is kept in place. Its commands stand at numbers, and an index tells for a name in
lower case which of them goes by it. A command is registered in steps: its names are looked up, then
each of them is made to lead to the number that the command will have, and at last the command is
added. What a registration has done when it is refused stays done.
-/

namespace CommandLanguage

/-- The numbers of commands by their names in lower case, the latest entry first. -/
abbrev NameIndex := List (String × Nat)

/-- The commands that lines are resolved against, with the index of their names. -/
structure Directory (Source : Type) where
  commands : List (Command Source)
  index : NameIndex
  settings : TreeSettings

/-- A change to a directory. What it has done when it is refused stays done. -/
abbrev Registration (Source : Type) := EStateM GrammarError (Directory Source)

/-- The command that is declared, built and sealed. -/
def CommandDeclaration.command {Source : Type} (d : CommandDeclaration) (settings : TreeSettings) :
    Except GrammarError (Command Source) := do
  let grammar ← d.grammar
  let tree ← grammar.seal settings
  return .ofTree tree

namespace Directory

variable {Source : Type}

/-- The directory without commands. -/
def empty (settings : TreeSettings) : Directory Source := ⟨[], [], settings⟩

/-- The command of a name, with or without a leading slash. -/
def get? (d : Directory Source) (name : String) : Option (Command Source) :=
  (d.index.lookup (Text.lowercase (dropSlash name))).bind (d.commands[·]?)

/-- Let a name in lower case lead to a number. -/
def link (number : Nat) (key : String) : Registration Source Unit :=
  modify fun d => { d with index := (key, number) :: d.index }

/-- Add a command, unless one of its names is taken. -/
def register (c : Command Source) : Registration Source (Command Source) := do
  let d ← get
  match c.keys.find? fun key => (d.index.lookup key).isSome with
  | some taken => throw (.nameTaken taken)
  | none =>
    c.keys.forM (link d.commands.length)
    modify fun d => { d with commands := d.commands ++ [c] }
    return c

/-- Build a declared command and add it. -/
def declare (declaration : CommandDeclaration) : Registration Source (Command Source) := do
  let d ← get
  match declaration.command d.settings with
  | .error e => throw e
  | .ok c => register c

/-- The directory that declaring a command leaves, whether it is registered or refused. -/
def afterOne (d : Directory Source) (declaration : CommandDeclaration) : Directory Source :=
  match (declare declaration).run d with
  | .ok _ after => after
  | .error _ after => after

/-- The directory that declaring commands in turn leaves. One that is refused keeps no other from
being declared. -/
def afterEach (d : Directory Source) (declarations : List CommandDeclaration) : Directory Source :=
  declarations.foldl afterOne d

/-- A directory without its index. -/
def registry (d : Directory Source) : Registry Source := ⟨d.commands, d.settings⟩

end Directory

end CommandLanguage

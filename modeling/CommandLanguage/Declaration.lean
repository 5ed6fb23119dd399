import CommandLanguage.Error
import CommandLanguage.Text.WhiteSpace
import CommandLanguage.Tree.Grammar

/-!
# Declarations

Commands as a configuration declares them, and the grammars built from them.

A parameter with a blank name is refused, and so are literals, switches and flags that are greedy,
and literals and switches with a value type. A value without a type is a text.
-/

namespace CommandLanguage

/-- The kinds of parameter that can be declared. -/
inductive DeclaredKind where
  | literal
  | required
  | optional
  /-- A flag with a value. -/
  | flag
  /-- A flag without one. -/
  | switch
deriving DecidableEq, Repr

/-- The name of a kind in a configuration. -/
def DeclaredKind.name : DeclaredKind → String
  | .literal => "literal"
  | .required => "required"
  | .optional => "optional"
  | .flag => "flag"
  | .switch => "switch"

/-- A declared parameter. -/
structure ParameterDeclaration where
  name : String
  kind : DeclaredKind
  valueType : Option String
  greedy : Bool
  priority : Option Priority
  permission : Option String
  description : Option String
  aliases : List String
  suggestions : List String
  ignoreCompletionPermission : Bool
deriving DecidableEq

/-- A declared usage. -/
structure UsageDeclaration where
  handler : String
  permission : Option String
  description : Option String
  isDefault : Bool
  parameters : List ParameterDeclaration
deriving DecidableEq

/-- A declared command. -/
structure CommandDeclaration where
  name : String
  aliases : List String
  permission : Option String
  description : Option String
  usages : List UsageDeclaration
deriving DecidableEq

namespace ParameterDeclaration

/-- What is wrong with a declared parameter. -/
def fault? (d : ParameterDeclaration) : Option DeclarationFault :=
  if Text.isBlank d.name then some .emptyName
  else if d.greedy && d.kind ∈ [.literal, .flag, .switch] then some (.cannotBeGreedy d.name)
  else if d.valueType.isSome && d.kind ∈ [.literal, .switch] then some (.cannotHaveType d.name)
  else none

/-- The kind of parameter that is declared. -/
def parameterKind (d : ParameterDeclaration) : ParameterKind :=
  let type := (d.valueType.map ValueType.ofName).getD .string
  match d.kind with
  | .literal => .literal d.aliases d.ignoreCompletionPermission
  | .required => .argument type false
  | .optional => .argument type true
  | .flag => .flag d.aliases (some type)
  | .switch => .flag d.aliases none

/-- The parameter that is declared, for a command. -/
def build (d : ParameterDeclaration) (command : String) : Except GrammarError Parameter :=
  match d.fault? with
  | some fault => .error (.invalidDeclaration command fault)
  | none =>
    let plain := Parameter.ofKind d.name d.parameterKind
    .ok { plain with
      greedy := d.greedy
      priority := d.priority.getD plain.priority
      permission := d.permission
      description := d.description
      suggestions := d.suggestions }

end ParameterDeclaration

namespace UsageDeclaration

/-- The usage that is declared, for a command. -/
def build (d : UsageDeclaration) (command : String) : Except GrammarError Usage := do
  let parameters ← d.parameters.mapM (·.build command)
  return ⟨d.handler, parameters, d.permission, d.description, d.isDefault⟩

end UsageDeclaration

namespace CommandDeclaration

/-- The literal at the root of a declared command. -/
def root (d : CommandDeclaration) : Parameter :=
  { Parameter.literal d.name d.aliases with
    permission := d.permission
    description := d.description }

/-- The grammar of a declared command. Each usage is built and inserted before the next is built. -/
def grammar (d : CommandDeclaration) : Except GrammarError Grammar :=
  d.usages.foldlM
    (fun g u => do
      let usage ← u.build d.name
      return (← g.insert usage).2)
    (Grammar.new d.root)

end CommandDeclaration

end CommandLanguage

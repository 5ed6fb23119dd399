import CommandLanguage.Parameter
import CommandLanguage.Text.Numeral

/-!
# Capabilities

What the library asks of its host: which words fit a parameter, which permissions a source has, and
what could be typed for a parameter. Built-in answers cover the common cases.
-/

namespace CommandLanguage

/-- What is known of a completion when suggestions are asked for: who asks, the words after the
command name, and the place of the one to complete. -/
structure SuggestionContext (Source : Type) where
  source : Source
  tokens : List String
  target : Nat

/-- What has been typed of the word to complete. -/
def SuggestionContext.typed {Source : Type} (ctx : SuggestionContext Source) : String :=
  ctx.tokens.getD ctx.target ""

/-- The host's answers. -/
structure Capabilities (Source : Type) where
  /-- Whether a word can be read as the value of a parameter. -/
  fits : String → Parameter → Bool
  /-- Whether a source has a permission. -/
  grants : Source → String → Bool
  /-- What could be typed for a parameter. -/
  suggest : SuggestionContext Source → Parameter → List String

/-- Whether a word is a value of a type. Types without a rule take every word. -/
def ValueType.admits (t : ValueType) (token : String) : Bool :=
  if t = int then Text.isWhole 32 token
  else if t = long then Text.isWhole 64 token
  else if t = float then Text.isSingle token
  else if t = double then Text.isDouble token
  else if t = boolean then
    Text.sameIgnoringCase token "true" || Text.sameIgnoringCase token "false"
  else true

namespace Parameter

/-- Whether a word fits a parameter by the rules of the built-in types. -/
def admits (token : String) (p : Parameter) : Bool :=
  match p.kind with
  | .literal _ _ => p.answersTo token
  | _ => p.valueType.admits token

/-- What a parameter itself offers: the names of literals and flags, and for an argument its
suggestions, or the two truth values. -/
def offers (p : Parameter) : List String :=
  match p.kind with
  | .literal _ _ => p.names
  | .flag _ _ => p.names.map ("-" ++ ·)
  | .argument type _ =>
    if !p.suggestions.isEmpty then p.suggestions
    else if type = .boolean then ["true", "false"]
    else []

end Parameter

namespace Capabilities

variable {Source : Type}

/-- The built-in types, every permission, and declared suggestions. -/
def builtin : Capabilities Source where
  fits := Parameter.admits
  grants _ _ := true
  suggest _ p := p.offers

/-- Whether a source passes a gate; one without a permission lets everyone pass. -/
def permits (caps : Capabilities Source) (source : Source) (permission : Option String) : Bool :=
  permission.all (caps.grants source)

/-- A source with every permission passes every gate. -/
theorem permits_of_grants {caps : Capabilities Source} {source : Source}
    (h : ∀ permission, caps.grants source permission = true) (gate : Option String) :
    caps.permits source gate = true := by
  cases gate with
  | none => rfl
  | some permission => exact h permission

end Capabilities

end CommandLanguage

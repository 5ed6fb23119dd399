import CommandLanguage.ValueType

/-!
# Parameters

One place in a usage. A literal is a word that stands for itself, an argument takes a value, and a
flag is typed with dashes wherever flags are allowed. Flags are always optional, literals never.

Two parameters are in the same slot when a tree may keep them in one node: their names agree up to
the case of ASCII letters, and so do their value types and their being a literal or a flag.
Whether they are optional does not matter.
-/

namespace CommandLanguage

/-- What a parameter is, with what only that kind has. -/
inductive ParameterKind where
  /-- A word matched by name. A listed one is completed whatever its permission. -/
  | literal (aliases : List String) (alwaysListed : Bool)
  /-- A value. -/
  | argument (type : ValueType) (optional : Bool)
  /-- A flag, followed by a value of the given type; a switch if there is none. -/
  | flag (aliases : List String) (input : Option ValueType)
deriving DecidableEq, Repr

/-- One place in a usage. -/
structure Parameter where
  name : String
  kind : ParameterKind
  /-- Takes every word that is left. -/
  greedy : Bool
  priority : Priority
  permission : Option String
  description : Option String
  suggestions : List String
deriving DecidableEq

/-- The type of the values of a kind of parameter. -/
def ParameterKind.valueType : ParameterKind → ValueType
  | .literal _ _ => .literal
  | .argument type _ => type
  | .flag _ input => input.getD .boolean

namespace Parameter

/-- A parameter of a kind, with the priority of its type and nothing else declared. -/
def ofKind (name : String) (kind : ParameterKind) : Parameter where
  name := name
  kind := kind
  greedy := false
  priority := kind.valueType.defaultPriority
  permission := none
  description := none
  suggestions := []

/-- A word that stands for itself. -/
def literal (name : String) (aliases : List String) : Parameter :=
  ofKind name (.literal aliases false)

/-- A value that has to be given. -/
def required (name : String) (type : ValueType) : Parameter :=
  ofKind name (.argument type false)

/-- A value that may be left out. -/
def optional (name : String) (type : ValueType) : Parameter :=
  ofKind name (.argument type true)

/-- A flag without a value. -/
def switch (name : String) (aliases : List String) : Parameter :=
  ofKind name (.flag aliases none)

/-- A flag with a value. -/
def valueFlag (name : String) (aliases : List String) (input : ValueType) : Parameter :=
  ofKind name (.flag aliases (some input))

/-- The type of the values of a parameter. -/
def valueType (p : Parameter) : ValueType :=
  p.kind.valueType

/-- Whether a parameter is a word matched by name. -/
def isLiteral (p : Parameter) : Bool :=
  match p.kind with
  | .literal _ _ => true
  | _ => false

/-- Whether a parameter is a flag. -/
def isFlag (p : Parameter) : Bool :=
  match p.kind with
  | .flag _ _ => true
  | _ => false

/-- Whether a parameter may be left out. -/
def isOptional (p : Parameter) : Bool :=
  match p.kind with
  | .literal _ _ => false
  | .argument _ optional => optional
  | .flag _ _ => true

/-- Whether a parameter has to be given. -/
def isRequired (p : Parameter) : Bool :=
  !p.isOptional

/-- The type of the value after a flag; none for a switch, and for what is no flag. -/
def input? (p : Parameter) : Option ValueType :=
  match p.kind with
  | .flag _ input => input
  | _ => none

/-- Whether completion lists a parameter whatever its permission. -/
def isAlwaysListed (p : Parameter) : Bool :=
  match p.kind with
  | .literal _ alwaysListed => alwaysListed
  | _ => false

/-- The further names of a literal or flag. -/
def aliases (p : Parameter) : List String :=
  match p.kind with
  | .literal aliases _ => aliases
  | .argument _ _ => []
  | .flag aliases _ => aliases

/-- Every name of a parameter, its own first. -/
def names (p : Parameter) : List String :=
  p.name :: p.aliases

/-- Whether a word names a parameter. -/
def answersTo (p : Parameter) (word : String) : Bool :=
  p.names.any (Text.sameIgnoringCase · word)

/-- Whether two parameters may share a node. -/
def sameSlot (p q : Parameter) : Bool :=
  Text.sameIgnoringCase p.name q.name && p.valueType == q.valueType &&
    p.isLiteral == q.isLiteral && p.isFlag == q.isFlag

/-- How many words a parameter takes when it is typed as a flag. -/
def flagSpan (p : Parameter) : Nat :=
  if p.input?.isSome then 2 else 1

/-- The key that orders siblings: literals first, then by priority, and at one priority required
arguments before flags before optional ones. -/
def siblingPriority (p : Parameter) : Priority :=
  match p.kind with
  | .literal _ _ => .maximum
  | .argument _ false => p.priority.plus 5
  | .flag _ _ => p.priority.plus 4
  | .argument _ true => p.priority.plus 3

/-- A parameter as it is shown in a usage. -/
def format (p : Parameter) : String :=
  match p.kind with
  | .literal _ _ => p.name
  | .flag _ none => "[-" ++ p.name ++ "]"
  | .flag _ (some input) => "[-" ++ p.name ++ " <" ++ input.name ++ ">]"
  | .argument _ optional =>
    let body := p.name ++ (if p.greedy then "..." else "")
    if optional then "[" ++ body ++ "]" else "<" ++ body ++ ">"

/-! ## Laws of slots -/

theorem sameSlot_iff {p q : Parameter} :
    p.sameSlot q = true ↔
      Text.foldCase p.name = Text.foldCase q.name ∧ p.valueType = q.valueType ∧
        p.isLiteral = q.isLiteral ∧ p.isFlag = q.isFlag := by
  simp [sameSlot, Text.sameIgnoringCase_iff, and_assoc]

theorem sameSlot_refl (p : Parameter) : p.sameSlot p = true :=
  sameSlot_iff.2 ⟨rfl, rfl, rfl, rfl⟩

theorem sameSlot_comm (p q : Parameter) : p.sameSlot q = q.sameSlot p := by
  rw [Bool.eq_iff_iff, sameSlot_iff, sameSlot_iff]
  exact ⟨fun ⟨h₁, h₂, h₃, h₄⟩ => ⟨h₁.symm, h₂.symm, h₃.symm, h₄.symm⟩,
    fun ⟨h₁, h₂, h₃, h₄⟩ => ⟨h₁.symm, h₂.symm, h₃.symm, h₄.symm⟩⟩

theorem sameSlot_trans {p q r : Parameter} (hpq : p.sameSlot q = true)
    (hqr : q.sameSlot r = true) : p.sameSlot r = true := by
  obtain ⟨h₁, h₂, h₃, h₄⟩ := sameSlot_iff.1 hpq
  obtain ⟨k₁, k₂, k₃, k₄⟩ := sameSlot_iff.1 hqr
  exact sameSlot_iff.2 ⟨h₁.trans k₁, h₂.trans k₂, h₃.trans k₃, h₄.trans k₄⟩

end Parameter

end CommandLanguage

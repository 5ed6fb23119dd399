import CommandLanguage.Tree.Grammar

/-!
# Ambiguous grammars

A grammar is refused when one of its nodes cannot be matched deterministically: a greedy node with
children, or a node whose arguments no word tells apart. Literals and flags are matched by name and
never count. The arguments of a node are indistinct when there are at least two, all required or all
optional, and two of them share a value type or a priority.

The error is about the first such node, where a node comes before those below it and of two siblings
the later one comes first.
-/

namespace CommandLanguage

namespace Node

/-- The children of a node that take values. -/
def arguments (n : Node) : List Node :=
  n.children.filter (·.isArgument)

/-- Whether nodes are all optional, or all required. -/
def ofOneNature (ns : List Node) : Bool :=
  ns.all (·.isOptional) || ns.all (!·.isOptional)

/-- Whether some value occurs twice. -/
def repeats {α : Type} [DecidableEq α] : List α → Bool
  | [] => false
  | x :: xs => xs.contains x || repeats xs

/-- Whether the arguments of a node cannot be told apart. -/
def hasIndistinctArguments (n : Node) : Bool :=
  let arguments := n.arguments
  2 ≤ arguments.length && ofOneNature arguments &&
    (repeats (arguments.map (·.parameter.valueType)) ||
      repeats (arguments.map (·.parameter.priority)))

/-- What is wrong with a node itself. -/
def fault? (command : String) (n : Node) : Option GrammarError :=
  if n.isGreedy && !n.isLeaf then some (.greedyNotLast command n.name)
  else if n.hasIndistinctArguments then
    some (.ambiguous command n.parameter.format (n.arguments.map (·.parameter.format)))
  else none

/-- The first fault of a tree. -/
def firstFault? (command : String) : Node → Option GrammarError
  | node@⟨_, children⟩ => node.fault? command <|> faultBelow? command children
where
  faultBelow? (command : String) : List Node → Option GrammarError
    | [] => none
    | c :: cs => faultBelow? command cs <|> c.firstFault? command

/-! ### The check as a loop

The nodes that are still to be looked at can be kept on a stack instead. The latest is taken off and
its children are put on in their order, so that the last of them is the next one. -/

/-- How many different values there are. -/
def countDistinct {α : Type} [DecidableEq α] : List α → Nat
  | [] => 0
  | x :: xs => if xs.contains x then countDistinct xs else countDistinct xs + 1

/-- What is wrong with the arguments of a node. Nothing is if there are fewer than two or if not all
are like the first one; else there have to be as many value types and priorities as arguments. -/
def indistinctArguments? (command : String) (n : Node) : Option GrammarError :=
  let arguments := n.arguments
  match arguments with
  | first :: _ :: _ =>
    if arguments.any (·.isOptional != first.isOptional) then none
    else if countDistinct (arguments.map (·.parameter.valueType)) < arguments.length ||
        countDistinct (arguments.map (·.parameter.priority)) < arguments.length then
      some (.ambiguous command n.parameter.format (arguments.map (·.parameter.format)))
    else none
  | _ => none

theorem size_eq_add_sizes (n : Node) : n.size = 1 + size.sizes n.children := by
  rcases n with ⟨data, children⟩
  rw [size]

theorem sizes_append (cs ds : List Node) :
    size.sizes (cs ++ ds) = size.sizes cs + size.sizes ds := by
  induction cs with
  | nil => simp [size.sizes]
  | cons c cs ih => rw [List.cons_append, size.sizes, size.sizes, ih, Nat.add_assoc]

theorem sizes_reverse (cs : List Node) : size.sizes cs.reverse = size.sizes cs := by
  induction cs with
  | nil => rfl
  | cons c cs ih =>
    rw [List.reverse_cons, sizes_append, ih]
    simp only [size.sizes]
    omega

/-- The first fault of the trees of a stack, the latest node first. -/
def inspect (command : String) : List Node → Option GrammarError
  | [] => none
  | n :: stack =>
    if n.isGreedy && !n.isLeaf then some (.greedyNotLast command n.name)
    else
      match n.indistinctArguments? command with
      | some e => some e
      | none => inspect command (n.children.reverse ++ stack)
termination_by stack => size.sizes stack
decreasing_by
  rw [List.unattach_reverse, List.unattach_attach, sizes_append, sizes_reverse, size.sizes,
    size_eq_add_sizes]
  omega

end Node

namespace Grammar

/-- Why a grammar cannot be sealed. -/
def fault? (g : Grammar) : Option GrammarError :=
  g.root.firstFault? g.command

/-- Why a grammar cannot be sealed, as the loop finds it. -/
def inspect (g : Grammar) : Option GrammarError :=
  Node.inspect g.command [g.root]

end Grammar

end CommandLanguage

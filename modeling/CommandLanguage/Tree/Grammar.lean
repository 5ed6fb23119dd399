import CommandLanguage.Error
import CommandLanguage.Tree.Expansion
import CommandLanguage.Tree.Node

/-!
# Grammars

A command under construction: a tree and the usages that have been inserted into it.

Inserting a usage walks each of its expansions down from the root, through the children in the slots
of its parameters, and makes the children that are missing. The last node of an expansion completes
the usage, unless it completes one with fewer parameters already. A default usage is a path of
literals, and only becomes what the last of them falls back to.

A usage is refused as a whole, and then the grammar is what it was before. A usage of the same form
as one that is present changes nothing.
-/

namespace CommandLanguage

namespace Node

/-- Siblings with one more, before the first of a lower priority. -/
def insertSibling (c : Node) : List Node → List Node
  | [] => [c]
  | s :: ss => if s.siblingPriority < c.siblingPriority then c :: s :: ss else s :: insertSibling c ss

/-- Siblings with the one in the slot of `p` replaced. -/
def replaceSibling (p : Parameter) (c : Node) : List Node → List Node
  | [] => []
  | s :: ss => if s.parameter.sameSlot p then c :: ss else s :: replaceSibling p c ss

/-- A change to a node and what is below it that may make nodes. It is given the number of the next
new node and gives back the one after its own. -/
abbrev Growth := Node → Nat → Except GrammarError (Node × Nat)

/-- Change the child in the slot of a parameter, after making it if it is missing. -/
def growChild (p : Parameter) (grow : Growth) : Growth := fun n next =>
  match n.child? p with
  | some c => do
    let (c, next) ← grow c next
    return ({ n with children := replaceSibling p c n.children }, next)
  | none => do
    let (c, next) ← grow (leaf next p) (next + 1)
    return ({ n with children := insertSibling c n.children }, next)

/-- Change the node at the end of a path, after making what is missing of the path. -/
def growPath : List Parameter → Growth → Growth
  | [], grow => grow
  | p :: ps, grow => growChild p (growPath ps grow)

/-- Let a node complete a usage, unless it completes it already or completes one with fewer
parameters. -/
def bind (u : NumberedUsage) (n : Node) : Node :=
  match n.terminal with
  | some held =>
    if held.number = u.number ∨ held.usage.parameters.length < u.usage.parameters.length then n
    else { n with terminal := some u }
  | none => { n with terminal := some u }

/-- Let a node complete a usage, without further growth. -/
def bindHere (u : NumberedUsage) : Growth := fun n next =>
  .ok (n.bind u, next)

/-- Let a node fall back to a usage, without further growth. -/
def fallHere (u : NumberedUsage) : Growth := fun n next =>
  .ok ({ n with fallback := some u }, next)

/-- Insert what is left of a usage below a node. -/
def insert (command : String) (u : NumberedUsage) : List Segment → Growth
  | [], n, next => bindHere u n next
  | segment :: rest, n, next =>
    if n.isGreedy then .error (.greedyNotLast command n.name)
    else
      match segment with
      | .run flags =>
        (Arrangement.selections flags).foldlM
          (fun (n, next) chosen => growPath chosen (insert command u rest) n next) (n, next)
      | .single p =>
        if (n.child? p).any (·.isGreedy != p.greedy) then
          .error (.invalidDeclaration command (.greedyElsewhere p.name))
        else do
          -- First the ways of typing that keep `p`, then those that leave it out.
          let (n, next) ← growChild p (if p.greedy then bindHere u else insert command u rest) n next
          if p.isOptional then insert command u rest n next else return (n, next)

end Node

namespace Usage

/-- What is wrong with a usage on its own: a greedy parameter before the end, a run of flags that is
too long, or an argument in a default usage. -/
def fault? (command : String) (u : Usage) : Option GrammarError :=
  let greedy := u.parameters.dropLast.reverse.find? (·.greedy)
  let long := (Segment.ofParameters u.parameters).findSome? fun
    | .run flags => flags[Arrangement.maxRun]?
    | .single _ => none
  let argument := if u.isDefault then u.parameters.find? (!·.isLiteral) else none
  (greedy.map fun p => .greedyNotLast command p.name) <|>
    (long.map fun p => .invalidDeclaration command (.longFlagRun Arrangement.maxRun p.name)) <|>
    (argument.map fun p => .invalidDefault command p.name)

end Usage

/-- A command under construction. -/
structure Grammar where
  root : Node
  usages : List Usage

namespace Grammar

/-- A command without usages. -/
def new (root : Parameter) : Grammar :=
  ⟨Node.leaf 0 root, []⟩

/-- The name of the command. -/
def command (g : Grammar) : String := g.root.name

/-- The number of nodes below the root. -/
def size (g : Grammar) : Nat := g.root.size - 1

/-- The tree of a grammar with the paths of one more usage. -/
def grow (g : Grammar) (u : NumberedUsage) : Except GrammarError (Node × Nat) :=
  if u.usage.isDefault then Node.growPath u.usage.parameters (Node.fallHere u) g.root g.root.size
  else Node.insert g.command u (Segment.ofParameters u.usage.parameters) g.root g.root.size

/-- Insert a usage: its number, and the grammar with it. -/
def insert (g : Grammar) (u : Usage) : Except GrammarError (Nat × Grammar) :=
  match u.fault? g.command with
  | some e => .error e
  | none =>
    match g.usages.findIdx? (·.sameForm u) with
    | some number => .ok (number, g)
    | none => do
      let (root, _) ← g.grow ⟨g.usages.length, u⟩
      return (g.usages.length, ⟨root, g.usages ++ [u]⟩)

/-- Insert usages in turn; the first that is refused refuses them all. -/
def insertAll (g : Grammar) (us : List Usage) : Except GrammarError Grammar :=
  us.foldlM (fun g u => (g.insert u).map (·.2)) g

end Grammar

end CommandLanguage

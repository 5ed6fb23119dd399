import CommandLanguage.Usage

/-!
# Nodes

A tree of parameters, in which usages that begin alike share their first nodes. Each node stands
for the path of parameters that leads to it. It may complete a usage (its terminal) and may have a
default usage to fall back to.

Nodes are numbered in the order in which they were made. A node together with those above it is a
`Place`; the number of nodes above it is its depth.
-/

namespace CommandLanguage

/-- What a node holds beside its children. -/
structure NodeData where
  id : Nat
  parameter : Parameter
  permission : Option String
  terminal : Option NumberedUsage
  fallback : Option NumberedUsage
deriving DecidableEq

/-- A parameter with what may follow it. -/
structure Node extends NodeData where
  children : List Node

namespace Node

/-- A new node for a parameter. -/
def leaf (id : Nat) (p : Parameter) : Node where
  id := id
  parameter := p
  permission := p.permission
  terminal := none
  fallback := none
  children := []

/-- The name of the parameter of a node. -/
def name (n : Node) : String := n.parameter.name

/-- Whether a node is a word matched by name. -/
def isLiteral (n : Node) : Bool := n.parameter.isLiteral

/-- Whether a node is a flag. -/
def isFlag (n : Node) : Bool := n.parameter.isFlag

/-- Whether a node takes a value that is no flag's. -/
def isArgument (n : Node) : Bool := !n.isLiteral && !n.isFlag

/-- Whether a node may be passed over. -/
def isOptional (n : Node) : Bool := n.parameter.isOptional

/-- Whether a node takes every word left. -/
def isGreedy (n : Node) : Bool := n.parameter.greedy

/-- Whether nothing follows a node. -/
def isLeaf (n : Node) : Bool := n.children.isEmpty

/-- Whether a node can be skipped by a walk: optional, and no flag. -/
def isSkippable (n : Node) : Bool := n.isOptional && !n.isFlag

/-- The key that orders a node among its siblings. -/
def siblingPriority (n : Node) : Priority := n.parameter.siblingPriority

/-- The usage that a path ending here completes: the terminal, else a literal's fallback. -/
def resolved? (n : Node) : Option NumberedUsage :=
  n.terminal <|> if n.isLiteral then n.fallback else none

/-- The child of a node in the slot of a parameter. -/
def child? (n : Node) (p : Parameter) : Option Node :=
  n.children.find? (·.parameter.sameSlot p)

/-! ## Walks over the whole tree -/

/-- The number of nodes of a tree. -/
def size : Node → Nat
  | ⟨_, children⟩ => 1 + sizes children
where
  sizes : List Node → Nat
    | [] => 0
    | c :: cs => c.size + sizes cs

/-- Levels put side by side. -/
def joinLevels {α : Type} : List (List α) → List (List α) → List (List α)
  | [], ys => ys
  | xs, [] => xs
  | x :: xs, y :: ys => (x ++ y) :: joinLevels xs ys

/-- The nodes of a tree by depth, each level in sibling order. -/
def levels : Node → List (List Node)
  | node@⟨_, children⟩ => [node] :: levelsBelow children
where
  levelsBelow : List Node → List (List Node)
    | [] => []
    | c :: cs => joinLevels c.levels (levelsBelow cs)

/-- The nodes of a tree, nearer ones first, in sibling order at each depth. -/
def byDepth (n : Node) : List Node :=
  n.levels.flatten

end Node

/-- A node with the nodes above it, nearest first. -/
structure Place where
  node : Node
  above : List Node

namespace Place

/-- The place of a root. -/
def root (n : Node) : Place := ⟨n, []⟩

/-- The place of a child. -/
def child (p : Place) (n : Node) : Place := ⟨n, p.node :: p.above⟩

/-- The node of a place and those above it, nearest first. -/
def lineage (p : Place) : List Node := p.node :: p.above

/-- How far a place lies below the children of the root; the root lies at -1. -/
def depth (p : Place) : Int := p.above.length - 1

/-- The node above a place. -/
def parent? (p : Place) : Option Node := p.above.head?

end Place

namespace Node

/-- The places of a subtree, each before those below it, in sibling order. -/
def placesFrom (above : List Node) : Node → List Place
  | node@⟨_, children⟩ => ⟨node, above⟩ :: placesBelow (node :: above) children
where
  placesBelow (above : List Node) : List Node → List Place
    | [] => []
    | c :: cs => placesFrom above c ++ placesBelow above cs

/-- The places of a tree, each before those below it, in sibling order. -/
def places (n : Node) : List Place :=
  placesFrom [] n

/-- The place of the node with a number. -/
def place? (n : Node) (id : Nat) : Option Place :=
  n.places.find? (·.node.id == id)

/-- The places of a tree in the order in which their nodes were made. -/
def numbered (n : Node) : List Place :=
  n.places.mergeSort fun p q => p.node.id ≤ q.node.id

/-- One line for each node: its parameter, indented by its depth, a mark if it completes a usage, and
its place among siblings. -/
def render (n : Node) : String :=
  "".intercalate <| n.places.map fun p =>
    "".intercalate (List.replicate p.above.length "  ") ++ p.node.parameter.format ++
      (if p.node.terminal.isSome then " [executable]" else "") ++
      " P=" ++ toString p.node.siblingPriority.level ++ "\n"

end Node

end CommandLanguage

import CommandLanguage.Tree.Grammar

/-!
# Builders

A grammar that is built in place. Its nodes are the cells of an arena: each cell stands at its number,
and refers to the cells around it by theirs. Inserting a usage changes cells one at a time and adds
new ones at the end, so an insertion that is refused half way has left its marks. It is rolled back:
a journal tells what the changed cells held before, and the new cells are dropped and unlinked.
-/

namespace CommandLanguage

/-- A node with the numbers of the nodes around it. -/
structure Cell extends NodeData where
  parent : Option Nat
  depth : Int
  children : List Nat
deriving DecidableEq

/-- Cells by their numbers. -/
abbrev Arena := List Cell

/-- What a cell held before it was changed. -/
inductive Undo where
  | terminal (cell : Nat) (before : Option NumberedUsage)
  | fallback (cell : Nat) (before : Option NumberedUsage)
deriving DecidableEq

/-- An arena in the course of an insertion, with what to undo, the latest change first. -/
structure Draft where
  arena : Arena
  journal : List Undo

/-- A change to a draft. What it has done when it is refused stays done. -/
abbrev Edit := EStateM GrammarError Draft

/-! ## Cells -/

namespace Cell

/-- A new cell for a parameter, without relations. -/
def leaf (id : Nat) (p : Parameter) (parent : Option Nat) (depth : Int) : Cell :=
  ⟨(Node.leaf id p).toNodeData, parent, depth, []⟩

/-- The key that orders a cell among its siblings. -/
def siblingPriority (c : Cell) : Priority := c.parameter.siblingPriority

end Cell

namespace Arena

/-- The children of the cell at a number. -/
def childrenOf (a : Arena) (n : Nat) : List Nat :=
  (a[n]?.map (·.children)).getD []

/-- The child of a cell in the slot of a parameter. -/
def child? (a : Arena) (n : Nat) (p : Parameter) : Option Nat :=
  (a.childrenOf n).find? fun c => a[c]?.any (·.parameter.sameSlot p)

/-- Whether the cell at a number is greedy. -/
def isGreedy (a : Arena) (n : Nat) : Bool :=
  a[n]?.any (·.parameter.greedy)

/-- The name of the cell at a number. -/
def nameOf (a : Arena) (n : Nat) : String :=
  (a[n]?.map (·.parameter.name)).getD ""

/-- The depth of what is below the cell at a number. -/
def depthBelow (a : Arena) (n : Nat) : Int :=
  (a[n]?.map (·.depth + 1)).getD (-1)

/-- Siblings with one more, before the first of a lower priority. -/
def placeSibling (a : Arena) (c : Nat) (priority : Priority) : List Nat → List Nat
  | [] => [c]
  | s :: ss =>
    if a[s]?.any (·.siblingPriority < priority) then c :: s :: ss
    else s :: placeSibling a c priority ss

/-- An arena with a new child of a cell at the end. -/
def addChild (a : Arena) (n : Nat) (p : Parameter) : Arena :=
  (a ++ [Cell.leaf a.length p (some n) (a.depthBelow n)]).modify n fun above =>
    { above with children := a.placeSibling a.length p.siblingPriority above.children }

/-- The first cells of an arena, none of which refers to those dropped. -/
def truncate (a : Arena) (length : Nat) : Arena :=
  if a.length ≤ length then a
  else (a.take length).map fun c => { c with children := c.children.filter (· < length) }

/-- Undo a change to a cell, unless it is a new one. -/
def undo (mark : Nat) (a : Arena) : Undo → Arena
  | .terminal n before => if n < mark then a.modify n ({ · with terminal := before }) else a
  | .fallback n before => if n < mark then a.modify n ({ · with fallback := before }) else a

end Arena

/-! ## Edits -/

namespace Draft

/-- The child of a cell in the slot of a parameter, made if it is missing, and whether it was. -/
def childFor (n : Nat) (p : Parameter) : Edit (Nat × Bool) := do
  let d ← get
  match d.arena.child? n p with
  | some c => return (c, false)
  | none =>
    set { d with arena := d.arena.addChild n p }
    return (d.arena.length, true)

/-- The cell at the end of a path, with what was missing of the path made. -/
def walk : List Parameter → Nat → Edit Nat
  | [], n => return n
  | p :: ps, n => do
    let (c, _) ← childFor n p
    walk ps c

/-- Let a cell complete a usage, unless it completes it already or completes one with fewer
parameters. -/
def bind (u : NumberedUsage) (n : Nat) : Edit Unit :=
  modify fun d =>
    let before := d.arena[n]?.bind (·.terminal)
    if before.any fun held => held.number = u.number ∨
        held.usage.parameters.length < u.usage.parameters.length then d
    else
      ⟨d.arena.modify n ({ · with terminal := some u }), .terminal n before :: d.journal⟩

/-- Let a cell fall back to a usage. -/
def fall (u : NumberedUsage) (n : Nat) : Edit Unit :=
  modify fun d =>
    let before := d.arena[n]?.bind (·.fallback)
    ⟨d.arena.modify n ({ · with fallback := some u }), .fallback n before :: d.journal⟩

/-- Insert what is left of a usage below a cell. -/
def insert (command : String) (u : NumberedUsage) : List Segment → Nat → Edit Unit
  | [], n => bind u n
  | segment :: rest, n => do
    let d ← get
    if d.arena.isGreedy n then throw (.greedyNotLast command (d.arena.nameOf n))
    else
      match segment with
      | .run flags =>
        (Arrangement.selections flags).forM fun chosen => do
          let last ← walk chosen n
          insert command u rest last
      | .single p =>
        let (c, made) ← childFor n p
        let d ← get
        if !made && d.arena.isGreedy c != p.greedy then
          throw (.invalidDeclaration command (.greedyElsewhere p.name))
        else
          (if p.greedy then bind u c else insert command u rest c)
          if p.isOptional then insert command u rest n

/-- The arena as it was when it had `mark` cells. -/
def rollback (mark : Nat) (d : Draft) : Arena :=
  (d.journal.foldl (·.undo mark) d.arena).truncate mark

end Draft

/-! ## Builders -/

/-- A command under construction, in place. -/
structure Builder where
  arena : Arena
  usages : List Usage
deriving DecidableEq

namespace Builder

/-- A command without usages. -/
def new (root : Parameter) : Builder :=
  ⟨[Cell.leaf 0 root none (-1)], []⟩

/-- The name of the command. -/
def command (b : Builder) : String := b.arena.nameOf 0

/-- The paths of a usage, made or followed from the root. -/
def grow (command : String) (u : NumberedUsage) : Edit Unit :=
  if u.usage.isDefault then do
    let last ← Draft.walk u.usage.parameters 0
    Draft.fall u last
  else Draft.insert command u (Segment.ofParameters u.usage.parameters) 0

/-- Insert a usage: its number or why it is refused, and the builder afterwards. -/
def insert (b : Builder) (u : Usage) : Except GrammarError Nat × Builder :=
  match u.fault? b.command with
  | some e => (.error e, b)
  | none =>
    match b.usages.findIdx? (·.sameForm u) with
    | some number => (.ok number, b)
    | none =>
      let number := b.usages.length
      let usages := b.usages ++ [u]
      match (grow b.command ⟨number, u⟩).run ⟨b.arena, []⟩ with
      | .ok _ d => (.ok number, ⟨d.arena, usages⟩)
      | .error e d => (.error e, ⟨d.rollback b.arena.length, usages.dropLast⟩)

end Builder

/-! ## Grammars as builders -/

/-- The node of a place with the numbers of the nodes around it. -/
def Place.cell (p : Place) : Cell :=
  ⟨p.node.toNodeData, p.parent?.map (·.id), p.depth, p.node.children.map (·.id)⟩

/-- The nodes of a tree as cells, in the order in which they were made. -/
def Node.arena (n : Node) : Arena :=
  n.numbered.map Place.cell

/-- A grammar in place. -/
def Grammar.builder (g : Grammar) : Builder :=
  ⟨g.root.arena, g.usages⟩

end CommandLanguage

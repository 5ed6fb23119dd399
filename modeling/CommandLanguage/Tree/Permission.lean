import CommandLanguage.Text.Lowercase
import CommandLanguage.Tree.Builder

/-!
# Derived permissions

A grammar can give a permission to every node that declares none. The root's is the name of the
command; below it, the names of the required nodes on the way are joined by a delimiter, and last
comes the node's own name. An optional node has a part of its own but adds none to those below it.
A declared permission is kept, and plays no part in those below it.

A builder gives them in place. It goes through its cells with a stack of those that have a permission,
each with what it hands down.
-/

namespace CommandLanguage

namespace Node

/-- The permission that a node is given when those on the way to it give `base`. -/
def derivedPermission (delimiter base : String) (n : Node) : String :=
  base ++ delimiter ++ Text.lowercase n.name

/-- The permission that a node hands down to those below it. -/
def handedDown (delimiter base : String) (n : Node) : String :=
  if n.isOptional then base else n.derivedPermission delimiter base

/-- Give permissions to a node that is not the root, and to those below it. -/
def permit (delimiter base : String) : Node → Node
  | node@⟨data, children⟩ =>
    let own := node.derivedPermission delimiter base
    { data with
      permission := some (data.permission.getD own)
      children := permitAll delimiter (node.handedDown delimiter base) children }
where
  permitAll (delimiter base : String) : List Node → List Node
    | [] => []
    | c :: cs => c.permit delimiter base :: permitAll delimiter base cs

end Node

/-- Give a permission to every node without one. -/
def Grammar.assignPermissions (g : Grammar) (delimiter : String) : Grammar :=
  let base := g.root.permission.getD (Text.lowercase g.command)
  { g with
    root := { g.root with
      permission := some base
      children := Node.permit.permitAll delimiter base g.root.children } }

/-! ## In place -/

/-- Give a permission to the cell at a number, and put the cell on a stack. -/
def Arena.grant (delimiter base : String) : Arena × List (Nat × String) → Nat →
    Option (Arena × List (Nat × String))
  | (a, stack), n => do
    let c ← a[n]?
    let own := base ++ delimiter ++ Text.lowercase c.parameter.name
    let a := a.set n { c with permission := some (c.permission.getD own) }
    return (a, (n, if c.parameter.isOptional then base else own) :: stack)

/-- Give permissions to the cells below those on a stack, of which one is taken in each round. There is
no result if a number has no cell, or if after all rounds there is something left on the stack. -/
def Arena.permitBelow (delimiter : String) :
    (rounds : Nat) → Arena → List (Nat × String) → Option Arena
  | _, a, [] => some a
  | 0, _, _ :: _ => none
  | rounds + 1, a, (n, base) :: stack => do
    let c ← a[n]?
    let (a, stack) ← c.children.foldlM (Arena.grant delimiter base) (a, stack)
    permitBelow delimiter rounds a stack

/-- Give a permission to every cell without one. Each cell comes on the stack once, so there are as
many rounds as cells. -/
def Builder.assignPermissions (b : Builder) (delimiter : String) : Option Builder := do
  let c ← b.arena[0]?
  let base := c.permission.getD (Text.lowercase b.command)
  let arena ← Arena.permitBelow delimiter b.arena.length
    (b.arena.set 0 { c with permission := some base }) [(0, base)]
  return { b with arena }

end CommandLanguage

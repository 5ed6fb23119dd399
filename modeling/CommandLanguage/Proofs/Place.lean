import CommandLanguage.Proofs.Answer

/-!
# Places on the way

Trails lead from the root to places of the tree: every place that steps lead to is one of
`Node.places`, and the nodes on the way to it are the nodes of the steps.
-/

namespace CommandLanguage

namespace Node

theorem placesBelow_eq_flatMap (above : List Node) (cs : List Node) :
    placesFrom.placesBelow above cs = cs.flatMap (placesFrom above) := by
  induction cs with
  | nil => rfl
  | cons c cs ih => simp [placesFrom.placesBelow, ih]

/-- The places of a subtree are its root and the places below its children. -/
theorem mem_placesFrom {above : List Node} {n : Node} {p : Place} :
    p ∈ n.placesFrom above ↔
      p = ⟨n, above⟩ ∨ ∃ c ∈ n.children, p ∈ c.placesFrom (n :: above) := by
  rcases n with ⟨data, children⟩
  simp [placesFrom, placesBelow_eq_flatMap]

/-- What passes from a node to its children holds at every place of a subtree if it holds at its
root. -/
theorem of_mem_placesFrom {P : Node → Prop} (hchild : ∀ {n c : Node}, P n → c ∈ n.children → P c)
    {n : Node} {above : List Node} {p : Place} (h : P n) (hp : p ∈ n.placesFrom above) :
    P p.node := by
  induction n using Node.induction generalizing above with
  | step n ih =>
    rcases mem_placesFrom.1 hp with rfl | ⟨c, hc, hp⟩
    · exact h
    · exact ih c hc (hchild h hc) hp

/-- Below a place of a tree there are only places of the tree. -/
theorem child_mem_placesFrom {n : Node} {above : List Node} {p : Place} {c : Node}
    (hp : p ∈ n.placesFrom above) (hc : c ∈ p.node.children) : p.child c ∈ n.placesFrom above := by
  induction n using Node.induction generalizing above with
  | step n ih =>
    rcases mem_placesFrom.1 hp with rfl | ⟨d, hd, hp⟩
    · exact mem_placesFrom.2 (.inr ⟨c, hc, mem_placesFrom.2 (.inl rfl)⟩)
    · exact mem_placesFrom.2 (.inr ⟨d, hd, ih d hd hp⟩)

theorem root_mem_places (n : Node) : Place.root n ∈ n.places :=
  mem_placesFrom.2 (.inl rfl)

end Node

namespace Place

/-- The nodes on the way to a place, from the top; the root is not one of them. -/
def path (p : Place) : List Node :=
  p.lineage.dropLast.reverse

theorem lineage_along (p : Place) (steps : List Step) :
    (p.along steps).lineage = (steps.map Step.node).reverse ++ p.lineage := by
  induction steps generalizing p with
  | nil => rfl
  | cons s steps ih =>
    rw [along, ih]
    simp [child, lineage]

/-- The nodes on the way to where steps lead are the nodes of the steps. -/
@[simp] theorem path_along_root (n : Node) (steps : List Step) :
    ((root n).along steps).path = steps.map Step.node := by
  rw [path, lineage_along]
  simp [lineage, root]

/-- Steps lead to the node of the last of them. -/
theorem node_along_of_getLast? {p : Place} {steps : List Step} {s : Step}
    (h : s ∈ steps.getLast?) : (p.along steps).node = s.node := by
  rcases List.getLast?_eq_some_iff.1 h with ⟨front, rfl⟩
  clear h
  induction front generalizing p with
  | nil => rfl
  | cons s' front ih => exact ih (p := p.child s'.node)

end Place

/-- Steps that lead down from a place of a tree lead to a place of the tree. -/
theorem Judge.Follows.along_mem_places {j : Judge} {root : Node} {p : Place} {steps : List Step}
    {left : List String} (h : j.Follows p.node steps left) (hp : p ∈ root.places) :
    p.along steps ∈ root.places := by
  induction steps generalizing p with
  | nil => exact hp
  | cons s steps ih =>
    cases h with
    | cons hmem _ hrest =>
      exact ih (p := p.child s.node) hrest (Node.child_mem_placesFrom hp hmem)

end CommandLanguage

import CommandLanguage.Proofs.Linked
import CommandLanguage.Proofs.Rollback
import Mathlib.Data.List.Flatten

/-!
# Inserting in place

A builder does to its cells what a grammar does to its tree. A subtree stands in an arena if at the
number of each of its nodes is a cell with what the node holds and the numbers of the nodes around it
(`Arena.Stands`). An edit mirrors a growth if it gives the same error, or else leaves an arena in which
the subtree that has grown stands, and changes no cell outside of it (`Draft.Mirrors`). Insertion in
place mirrors insertion into a tree (`Draft.insert_mirrors`).

So a builder does the same with a usage as a grammar (`Grammar.Reachable.builder_insert`). If it
refuses the usage, it is rolled back.
-/

namespace CommandLanguage

/-! ## Subtrees in an arena -/

namespace Arena

/-- Whether an arena has the cells of a subtree. -/
inductive Shows (a : Arena) : Option Nat → Int → Node → Prop where
  | intro {parent : Option Nat} {depth : Int} {n : Node} :
      a[n.id]? = some ⟨n.toNodeData, parent, depth, n.children.map (·.id)⟩ →
        (∀ c ∈ n.children, Shows a (some n.id) (depth + 1) c) → Shows a parent depth n

variable {a a' : Arena} {parent : Option Nat} {depth : Int} {n n' c c' : Node} {p : Parameter}

theorem Shows.cell (h : a.Shows parent depth n) :
    a[n.id]? = some ⟨n.toNodeData, parent, depth, n.children.map (·.id)⟩ := by
  cases h
  assumption

theorem Shows.child (h : a.Shows parent depth n) (hc : c ∈ n.children) :
    a.Shows (some n.id) (depth + 1) c := by
  cases h with
  | intro _ hchildren => exact hchildren c hc

/-- An arena with the same cells at the numbers of a subtree shows it too. -/
theorem Shows.of_agree (h : a.Shows parent depth n) (hagree : ∀ i ∈ n.ids, a'[i]? = a[i]?) :
    a'.Shows parent depth n := by
  induction h with
  | @intro parent depth n hcell _ ih =>
    refine .intro ?_ ?_
    · rw [hagree _ n.id_mem_ids]
      exact hcell
    · intro c hc
      exact ih c hc fun i hi => hagree i (Node.mem_ids_of_mem hc hi)

/-- A sibling goes to the same place among numbers as among the nodes that have them, if the cells at
the numbers have the parameters of the nodes. -/
theorem placeSibling_map_id {cs : List Node} (c : Node)
    (hcs : ∀ s ∈ cs, a[s.id]?.map (·.parameter) = some s.parameter) :
    a.placeSibling c.id c.siblingPriority (cs.map (·.id)) =
      (Node.insertSibling c cs).map (·.id) := by
  induction cs with
  | nil => rfl
  | cons s cs ih =>
    rcases List.forall_mem_cons.1 hcs with ⟨hs, hcs⟩
    rcases Option.map_eq_some_iff.1 hs with ⟨x, hx, hparameter⟩
    have hpriority : x.siblingPriority = s.siblingPriority :=
      congrArg Parameter.siblingPriority hparameter
    rw [List.map_cons, placeSibling, Node.insertSibling, hx, Option.any_some, hpriority]
    by_cases hlower : s.siblingPriority < c.siblingPriority
    · simp [hlower]
    · simp [hlower, ih hcs]

/-- Whether a subtree stands in an arena: the arena shows it, at numbers of their own. -/
structure Stands (a : Arena) (parent : Option Nat) (depth : Int) (n : Node) : Prop where
  shows : a.Shows parent depth n
  nodup : n.ids.Nodup
  lt : ∀ i ∈ n.ids, i < a.length

namespace Stands

theorem child (h : a.Stands parent depth n) (hc : c ∈ n.children) :
    a.Stands (some n.id) (depth + 1) c := by
  refine ⟨h.shows.child hc, ?_, fun i hi => h.lt i (Node.mem_ids_of_mem hc hi)⟩
  have hnodup := h.nodup
  rw [Node.ids_eq, List.nodup_cons, List.nodup_flatMap] at hnodup
  exact hnodup.2.1 c hc

/-- The number of a node is none of those below it. -/
theorem id_not_mem (h : a.Stands parent depth n) (hc : c ∈ n.children) : n.id ∉ c.ids := by
  have hnodup := h.nodup
  rw [Node.ids_eq, List.nodup_cons] at hnodup
  intro hmem
  exact hnodup.1 (List.mem_flatMap.2 ⟨c, hc, hmem⟩)

/-- The number of a node below leads to its cell. -/
theorem cell_of_child (h : a.Stands parent depth n) (hc : c ∈ n.children) :
    a[c.id]? = some ⟨c.toNodeData, some n.id, depth + 1, c.children.map (·.id)⟩ :=
  (h.child hc).shows.cell

/-- The child in a slot is found by the numbers of the children. -/
theorem child?_eq (h : a.Stands parent depth n) (p : Parameter) :
    a.child? n.id p = (n.child? p).map (·.id) := by
  have hslots : ∀ c ∈ n.children, (a[c.id]?.any (·.parameter.sameSlot p)) = c.parameter.sameSlot p := by
    intro c hc
    rw [h.cell_of_child hc]
    rfl
  have hchildren : a.childrenOf n.id = n.children.map (·.id) := by
    simp [childrenOf, h.shows.cell]
  rw [child?, hchildren, List.find?_map, Node.child?]
  congr 1
  generalize n.children = cs at hslots
  induction cs with
  | nil => rfl
  | cons c cs ih =>
    rcases List.forall_mem_cons.1 hslots with ⟨hc, hcs⟩
    rw [List.find?_cons, List.find?_cons, Function.comp_apply, hc, ih hcs]

theorem isGreedy_eq (h : a.Stands parent depth n) : a.isGreedy n.id = n.isGreedy := by
  simp [isGreedy, h.shows.cell, Node.isGreedy]

theorem nameOf_eq (h : a.Stands parent depth n) : a.nameOf n.id = n.name := by
  simp [nameOf, h.shows.cell, Node.name]

/-- A sibling goes to the same place in the list of numbers. -/
theorem placeSibling_eq (h : a.Stands parent depth n) (c : Node) :
    a.placeSibling c.id c.siblingPriority (n.children.map (·.id)) =
      (Node.insertSibling c n.children).map (·.id) := by
  refine placeSibling_map_id c ?_
  intro s hs
  rw [h.cell_of_child hs]
  rfl

/-- A new child stands in an arena to which it has been added. -/
theorem addChild (h : a.Stands parent depth n) (p : Parameter) :
    (a.addChild n.id p).Stands (some n.id) (depth + 1) (.leaf a.length p) := by
  have hne : n.id ≠ a.length := Nat.ne_of_lt (h.lt _ n.id_mem_ids)
  have hdepth : a.depthBelow n.id = depth + 1 := by simp [depthBelow, h.shows.cell]
  refine ⟨.intro ?_ (by simp [Node.leaf]), by simp, by simp [length_addChild]⟩
  show (a.addChild n.id p)[a.length]? = _
  rw [getElem?_addChild]
  simp [hne, hdepth, Cell.leaf, Node.leaf]

end Stands

/-! ## Arenas that follow a growth -/

/-- Whether an arena has become another by the growth of a subtree. -/
structure Follows (a a' : Arena) (parent : Option Nat) (depth : Int) (n n' : Node) : Prop where
  stands : a'.Stands parent depth n'
  id : n'.id = n.id
  parameter : n'.parameter = n.parameter
  length : a.length ≤ a'.length
  /-- New nodes have new numbers. -/
  ids : ∀ i ∈ n'.ids, i ∈ n.ids ∨ a.length ≤ i
  /-- Cells outside of the subtree are what they were. -/
  kept : ∀ i < a.length, i ∉ n.ids → a'[i]? = a[i]?

namespace Follows

theorem refl (h : a.Stands parent depth n) : a.Follows a parent depth n n :=
  ⟨h, rfl, rfl, Nat.le_refl _, fun _ hi => .inl hi, fun _ _ _ => rfl⟩

theorem trans {a'' : Arena} {n'' : Node} (h : a.Follows a' parent depth n n')
    (h' : a'.Follows a'' parent depth n' n'') : a.Follows a'' parent depth n n'' := by
  have hlength := h.length
  refine ⟨h'.stands, h'.id.trans h.id, h'.parameter.trans h.parameter, Nat.le_trans hlength h'.length, ?_, ?_⟩
  · intro i hi
    rcases h'.ids i hi with hi | hi
    · exact h.ids i hi
    · exact .inr (Nat.le_trans hlength hi)
  · intro i hi hn
    have hn' : i ∉ n'.ids := by
      intro hmem
      rcases h.ids i hmem with hmem | hle
      · exact hn hmem
      · omega
    rw [h'.kept i (Nat.lt_of_lt_of_le hi hlength) hn', h.kept i hi hn]

/-- A node that has come to hold something else. -/
theorem hold (h : a.Stands parent depth n) {f : Cell → Cell} (hid : n'.id = n.id)
    (hparameter : n'.parameter = n.parameter)
    (hchildren : n'.children = n.children)
    (hcell : f ⟨n.toNodeData, parent, depth, n.children.map (·.id)⟩ =
      ⟨n'.toNodeData, parent, depth, n.children.map (·.id)⟩) :
    a.Follows (a.modify n.id f) parent depth n n' := by
  have hids : n'.ids = n.ids := by rw [Node.ids_eq, hid, hchildren, ← Node.ids_eq]
  have hother : ∀ i, i ≠ n.id → (a.modify n.id f)[i]? = a[i]? := by
    intro i hi
    simp [Ne.symm hi]
  refine ⟨⟨.intro ?_ ?_, ?_, ?_⟩, hid, hparameter, by simp, ?_, ?_⟩
  · rw [hid, hchildren, List.getElem?_modify, h.shows.cell]
    simp [hcell]
  · intro c hc
    rw [hchildren] at hc
    rw [hid]
    refine (h.shows.child hc).of_agree fun i hi => hother i ?_
    rintro rfl
    exact h.id_not_mem hc hi
  · rw [hids]
    exact h.nodup
  · rw [hids, List.length_modify]
    exact h.lt
  · intro i hi
    rw [hids] at hi
    exact .inl hi
  · intro i _ hn
    refine hother i ?_
    rintro rfl
    exact hn n.id_mem_ids

/-- A subtree of which one child is another now, while the others are what they were. -/
theorem below (h : a.Stands parent depth n) (others : List Node) {siblings : List Node}
    (hlength : a.length ≤ a'.length)
    (hcell : a'[n.id]? = some ⟨n.toNodeData, parent, depth, siblings.map (·.id)⟩)
    (hsiblings : siblings.Perm (c' :: others)) (hothers : others.Sublist n.children)
    (hc : a'.Stands (some n.id) (depth + 1) c')
    (hnew : ∀ i ∈ c'.ids, (i ∈ n.ids ∨ a.length ≤ i) ∧ i ∉ n.id :: others.flatMap Node.ids)
    (hkept : ∀ i < a.length, i ∉ n.ids ∨ i ∈ others.flatMap Node.ids → a'[i]? = a[i]?) :
    a.Follows a' parent depth n { n with children := siblings } := by
  have hsublist : (n.id :: others.flatMap Node.ids).Sublist n.ids := by
    rw [Node.ids_eq]
    exact (hothers.flatMap Node.ids).cons_cons _
  have hids : (Node.ids { n with children := siblings }).Perm
      (c'.ids ++ (n.id :: others.flatMap Node.ids)) := by
    rw [Node.ids_eq]
    refine ((hsiblings.flatMap_right Node.ids).cons _).trans ?_
    rw [List.flatMap_cons]
    exact List.perm_middle.symm
  refine ⟨⟨.intro hcell ?_, ?_, ?_⟩, rfl, rfl, hlength, ?_, fun i hi hn => hkept i hi (.inl hn)⟩
  · intro d hd
    rcases List.mem_cons.1 (hsiblings.subset hd) with rfl | hd
    · exact hc.shows
    · have hmem := hothers.subset hd
      refine (h.shows.child hmem).of_agree fun i hi => ?_
      exact hkept i (h.lt i (Node.mem_ids_of_mem hmem hi)) (.inr (List.mem_flatMap.2 ⟨d, hd, hi⟩))
  · rw [hids.nodup_iff, List.nodup_append]
    refine ⟨hc.nodup, hsublist.nodup h.nodup, ?_⟩
    rintro i hi j hj rfl
    exact (hnew i hi).2 hj
  · intro i hi
    rcases List.mem_append.1 (hids.subset hi) with hi | hi
    · exact hc.lt i hi
    · exact Nat.lt_of_lt_of_le (h.lt i (hsublist.subset hi)) hlength
  · intro i hi
    rcases List.mem_append.1 (hids.subset hi) with hi | hi
    · exact (hnew i hi).1
    · exact .inl (hsublist.subset hi)

/-- A subtree of which the child in a slot has grown. -/
theorem replace (h : a.Stands parent depth n) (hchild : n.child? p = some c)
    (hc : a.Follows a' (some n.id) (depth + 1) c c') :
    a.Follows a' parent depth n { n with children := Node.replaceSibling p c' n.children } := by
  rcases Node.exists_replaceSibling_eq hchild with ⟨front, back, hchildren, hreplace⟩
  have hmem : c ∈ n.children := List.mem_of_find?_eq_some hchild
  have hparts : n.ids.Perm (c.ids ++ (n.id :: (front ++ back).flatMap Node.ids)) := by
    rw [Node.ids_eq, hchildren]
    refine ((List.perm_middle.flatMap_right Node.ids).cons _).trans ?_
    rw [List.flatMap_cons]
    exact List.perm_middle.symm
  have hnodup := hparts.nodup_iff.1 h.nodup
  rw [List.nodup_append] at hnodup
  rcases hnodup with ⟨-, -, hapart⟩
  have hrest : ∀ i ∈ n.id :: (front ++ back).flatMap Node.ids, i < a.length ∧ i ∉ c.ids := by
    intro i hi
    refine ⟨h.lt i (hparts.symm.subset (List.mem_append_right _ hi)), ?_⟩
    intro hci
    exact hapart i hci i hi rfl
  have hcell : a'[n.id]? = a[n.id]? := by
    rcases hrest n.id List.mem_cons_self with ⟨hlt, hnot⟩
    exact hc.kept _ hlt hnot
  refine below h (front ++ back) hc.length ?_ ?_ ?_ hc.stands ?_ ?_
  · rw [hcell, h.shows.cell, hreplace, hchildren]
    simp [hc.id]
  · rw [hreplace]
    exact List.perm_middle
  · rw [hchildren]
    exact (List.Sublist.refl front).append (List.sublist_cons_self c back)
  · intro i hi
    rcases hc.ids i hi with hold | hle
    · exact ⟨.inl (Node.mem_ids_of_mem hmem hold), fun hmem => (hrest i hmem).2 hold⟩
    · refine ⟨.inr hle, fun hmem => ?_⟩
      have hlt := (hrest i hmem).1
      omega
  · rintro i hi (hn | hother)
    · exact hc.kept i hi fun hci => hn (Node.mem_ids_of_mem hmem hci)
    · exact hc.kept i hi (hrest i (List.mem_cons_of_mem _ hother)).2

/-- A subtree to which a child has been added that then has grown. -/
theorem make (h : a.Stands parent depth n)
    (hc : (a.addChild n.id p).Follows a' (some n.id) (depth + 1) (.leaf a.length p) c') :
    a.Follows a' parent depth n { n with children := Node.insertSibling c' n.children } := by
  have hlength : a.length + 1 ≤ a'.length := by
    rw [← length_addChild n.id p]
    exact hc.length
  have hid : c'.id = a.length := hc.id
  have hpriority : c'.siblingPriority = p.siblingPriority := congrArg Parameter.siblingPriority hc.parameter
  have hold : ∀ i < a.length, a'[i]? = (a.addChild n.id p)[i]? := by
    intro i hi
    refine hc.kept i ?_ ?_
    · rw [length_addChild]
      omega
    · rw [Node.ids_leaf, List.mem_singleton]
      omega
  -- Of the cells that there were, making one changes only the one above it.
  have hother : ∀ i < a.length, i ≠ n.id → a'[i]? = a[i]? := by
    intro i hi hne
    rw [hold i hi, getElem?_addChild, if_neg (Nat.ne_of_lt hi)]
    cases a[i]? <;> simp [Ne.symm hne]
  have hbelow : ∀ i ∈ n.children.flatMap Node.ids, i ≠ n.id := by
    rintro i hi rfl
    rcases List.mem_flatMap.1 hi with ⟨d, hd, hi⟩
    exact h.id_not_mem hd hi
  have hlt := h.lt _ n.id_mem_ids
  refine below h n.children (by omega) ?_ (Node.insertSibling_perm c' _) (.refl _) hc.stands ?_ ?_
  · rw [hold _ hlt, getElem?_addChild, if_neg (Nat.ne_of_lt hlt), h.shows.cell]
    simp only [Option.map_some, if_true, ← h.placeSibling_eq, hid, hpriority]
  · intro i hi
    have hle : a.length ≤ i := by
      rcases hc.ids i hi with hi | hi
      · rw [Node.ids_leaf, List.mem_singleton] at hi
        omega
      · rw [length_addChild] at hi
        omega
    refine ⟨.inr hle, fun hmem => ?_⟩
    rw [← Node.ids_eq] at hmem
    have hlt := h.lt i hmem
    omega
  · rintro i hi (hn | hbelow')
    · refine hother i hi ?_
      rintro rfl
      exact hn n.id_mem_ids
    · exact hother i hi (hbelow i hbelow')

end Follows

end Arena

/-! ## Edits that mirror growth -/

/-- What growing a subtree gives, beside what an edit of an arena gives: the same error, or an arena
that follows, whose length is the next number. -/
def Arena.Agrees (a : Arena) (parent : Option Nat) (depth : Int) (n : Node) :
    Except GrammarError (Node × Nat) → EStateM.Result GrammarError Draft Unit → Prop
  | .ok (n', next), .ok _ d' => a.Follows d'.arena parent depth n n' ∧ d'.arena.length = next
  | .error e, .error e' _ => e' = e
  | _, _ => False

namespace Arena.Agrees

variable {a : Arena} {parent : Option Nat} {depth : Int} {n : Node}
  {result : Except GrammarError (Node × Nat)} {edited : EStateM.Result GrammarError Draft Unit}

/-- What agrees goes on to agree. -/
theorem bind {edit : Edit Unit} {d₀ : Draft} (h : a.Agrees parent depth n result (edit.run d₀))
    {grow : Node × Nat → Except GrammarError (Node × Nat)} {edit' : Unit → Edit Unit}
    (hnext : ∀ (d : Draft) n', a.Follows d.arena parent depth n n' →
      d.arena.Agrees parent depth n' (grow (n', d.arena.length)) ((edit' ()).run d)) :
    a.Agrees parent depth n (result >>= grow) ((edit >>= edit').run d₀) := by
  rw [EStateM.run_bind]
  generalize edit.run d₀ = edited at h
  cases result with
  | error e =>
    cases edited with
    | error e' d => exact h
    | ok x d => exact h.elim
  | ok s =>
    rcases s with ⟨n', k⟩
    cases edited with
    | error e d => exact h.elim
    | ok x d =>
      rcases h with ⟨hfollows, rfl⟩
      have hafter := hnext d n' hfollows
      show a.Agrees parent depth n (grow (n', d.arena.length)) ((edit' ()).run d)
      generalize grow (n', d.arena.length) = result' at hafter
      generalize (edit' ()).run d = edited' at hafter
      cases result' with
      | error e =>
        cases edited' with
        | error e' d' => exact hafter
        | ok x d' => exact hafter
      | ok s =>
        cases edited' with
        | error e' d' => exact hafter
        | ok x d' => exact ⟨hfollows.trans hafter.1, hafter.2⟩

/-- Growing the child that is in a slot. -/
theorem replace (h : a.Stands parent depth n) {p : Parameter} {c : Node}
    (hchild : n.child? p = some c) {grow : Node.Growth} {edited}
    (hc : a.Agrees (some n.id) (depth + 1) c (grow c a.length) edited) :
    a.Agrees parent depth n (Node.growChild p grow n a.length) edited := by
  unfold Node.growChild
  rw [hchild]
  dsimp only
  cases hgrow : grow c a.length with
  | error e =>
    rw [hgrow] at hc
    cases edited with
    | error e' d => exact hc
    | ok x d => exact hc
  | ok s =>
    rw [hgrow] at hc
    cases edited with
    | error e d => exact hc
    | ok x d => exact ⟨.replace h hchild hc.1, hc.2⟩

/-- Growing a child that has been added to a slot. -/
theorem make (h : a.Stands parent depth n) {p : Parameter} (hchild : n.child? p = none)
    {grow : Node.Growth} {edited}
    (hc : (a.addChild n.id p).Agrees (some n.id) (depth + 1) (.leaf a.length p)
      (grow (.leaf a.length p) (a.addChild n.id p).length) edited) :
    a.Agrees parent depth n (Node.growChild p grow n a.length) edited := by
  rw [length_addChild] at hc
  unfold Node.growChild
  rw [hchild]
  dsimp only
  cases hgrow : grow (.leaf a.length p) (a.length + 1) with
  | error e =>
    rw [hgrow] at hc
    cases edited with
    | error e' d => exact hc
    | ok x d => exact hc
  | ok s =>
    rw [hgrow] at hc
    cases edited with
    | error e d => exact hc
    | ok x d => exact ⟨.make h hc.1, hc.2⟩

end Arena.Agrees

namespace Draft

/-- Whether an edit at a number does what a growth does to the subtree that stands there. -/
def Mirrors (edit : Nat → Edit Unit) (grow : Node.Growth) : Prop :=
  ∀ (d : Draft) parent depth n, d.arena.Stands parent depth n →
    d.arena.Agrees parent depth n (grow n d.arena.length) ((edit n.id).run d)

variable {edit : Nat → Edit Unit} {grow : Node.Growth}

theorem bind_mirrors (u : NumberedUsage) : Mirrors (bind u) (Node.bindHere u) := by
  intro d parent depth n h
  rw [bind, EStateM.run_modify]
  have hcell := h.shows.cell
  simp only [hcell, Option.bind_some, Node.bindHere, Node.bind]
  cases hterminal : n.terminal with
  | none => exact ⟨.hold h rfl rfl rfl rfl, by simp⟩
  | some held =>
    by_cases hkeep : held.number = u.number ∨
        held.usage.parameters.length < u.usage.parameters.length
    · simp only [Option.any_some, hkeep, decide_true, if_true]
      exact ⟨.refl h, rfl⟩
    · simp only [Option.any_some, hkeep, decide_false, if_false, Bool.false_eq_true]
      exact ⟨.hold h rfl rfl rfl rfl, by simp⟩

theorem fall_mirrors (u : NumberedUsage) : Mirrors (fall u) (Node.fallHere u) := by
  intro d parent depth n h
  rw [fall, EStateM.run_modify]
  exact ⟨.hold h rfl rfl rfl rfl, by simp⟩

section Child

variable {d : Draft} {parent : Option Nat} {depth : Int} {n c : Node} {p : Parameter}

/-- The child that is in a slot is found. -/
theorem run_childFor_of_some (hn : d.arena.Stands parent depth n) (hchild : n.child? p = some c) :
    (childFor n.id p).run d = .ok (c.id, false) d := by
  rw [childFor, EStateM.run_bind, EStateM.run_get]
  simp only [hn.child?_eq, hchild, Option.map]
  rfl

/-- A child that is in no slot is made. -/
theorem run_childFor_of_none (hn : d.arena.Stands parent depth n) (hchild : n.child? p = none) :
    (childFor n.id p).run d =
      .ok (d.arena.length, true) ⟨d.arena.addChild n.id p, d.journal⟩ := by
  rw [childFor, EStateM.run_bind, EStateM.run_get]
  simp only [hn.child?_eq, hchild, Option.map]
  rfl

end Child

/-- An edit of the child in a slot, made if it is missing, mirrors growing that child. -/
theorem child_mirrors (h : Mirrors edit grow) (p : Parameter) :
    Mirrors (fun k => childFor k p >>= fun c => edit c.1) (Node.growChild p grow) := by
  intro d parent depth n hn
  rw [EStateM.run_bind]
  cases hchild : n.child? p with
  | some c =>
    rw [run_childFor_of_some hn hchild]
    exact .replace hn hchild (h d _ _ c (hn.child (List.mem_of_find?_eq_some hchild)))
  | none =>
    rw [run_childFor_of_none hn hchild]
    exact .make hn hchild (h ⟨d.arena.addChild n.id p, d.journal⟩ _ _ _ (hn.addChild p))

/-- An edit at the end of a path mirrors growing there. -/
theorem walk_mirrors (h : Mirrors edit grow) (ps : List Parameter) :
    Mirrors (fun k => walk ps k >>= edit) (Node.growPath ps grow) := by
  induction ps with
  | nil =>
    intro d parent depth n hn
    simpa [walk, Node.growPath] using h d parent depth n hn
  | cons p ps ih =>
    have hassoc : (fun k => walk (p :: ps) k >>= edit) =
        fun k => childFor k p >>= fun c => walk ps c.1 >>= edit := by
      funext k
      simp [walk, bind_assoc]
    rw [hassoc]
    exact child_mirrors ih p

/-- Edits in turn mirror growth in turn. -/
theorem forM_mirrors {α : Type} {edits : α → Nat → Edit Unit} {grows : α → Node.Growth}
    (xs : List α) (h : ∀ x, Mirrors (edits x) (grows x)) :
    Mirrors (fun k => xs.forM fun x => edits x k)
      fun n next => xs.foldlM (fun (s : Node × Nat) x => grows x s.1 s.2) (n, next) := by
  induction xs with
  | nil =>
    intro d parent depth n hn
    exact ⟨.refl hn, rfl⟩
  | cons x xs ih =>
    intro d parent depth n hn
    dsimp only
    rw [List.foldlM_cons]
    change d.arena.Agrees parent depth n _
      ((edits x n.id >>= fun _ => xs.forM fun x => edits x n.id).run d)
    refine .bind (h x d parent depth n hn) ?_
    intro d' n' hfollows
    rw [← hfollows.id]
    exact ih d' parent depth n' hfollows.stands

/-- **Insertion in place** mirrors insertion into a tree. -/
theorem insert_mirrors (command : String) (u : NumberedUsage) (segments : List Segment) :
    Mirrors (insert command u segments) (Node.insert command u segments) := by
  induction segments with
  | nil => exact bind_mirrors u
  | cons segment rest ih =>
    intro d parent depth n hn
    rw [insert.eq_def]
    dsimp only
    rw [EStateM.run_bind, EStateM.run_get]
    simp only [Node.insert, hn.isGreedy_eq, hn.nameOf_eq]
    by_cases hgreedy : n.isGreedy = true
    · rw [if_pos hgreedy, if_pos hgreedy]
      exact rfl
    · rw [if_neg hgreedy, if_neg hgreedy]
      cases segment with
      | run flags =>
        exact forM_mirrors (Arrangement.selections flags) (fun chosen => walk_mirrors ih chosen)
          d parent depth n hn
      | single p =>
        -- What is done in the slot of `p`, and then beside it if `p` may be left out.
        have hbelow : Mirrors (fun c => if p.greedy then bind u c else insert command u rest c)
            (if p.greedy then Node.bindHere u else Node.insert command u rest) := by
          split
          · exact bind_mirrors u
          · exact ih
        have hbeside : ∀ (d' : Draft) n', d.arena.Follows d'.arena parent depth n n' →
            d'.arena.Agrees parent depth n'
              (if p.isOptional then Node.insert command u rest n' d'.arena.length
                else .ok (n', d'.arena.length))
              ((if p.isOptional then insert command u rest n.id else pure ()).run d') := by
          intro d' n' hfollows
          rw [← hfollows.id]
          split
          · exact ih d' parent depth n' hfollows.stands
          · exact ⟨.refl hfollows.stands, rfl⟩
        rw [EStateM.run_bind]
        cases hchild : n.child? p with
        | some c =>
          have hc := hn.child (List.mem_of_find?_eq_some hchild)
          rw [run_childFor_of_some hn hchild]
          dsimp only
          rw [EStateM.run_bind, EStateM.run_get]
          simp only [hchild, hc.isGreedy_eq, Bool.not_false, Bool.true_and, Option.any_some]
          by_cases hagree : (c.isGreedy != p.greedy) = true
          · simp only [hagree, if_true]
            exact rfl
          · simp only [hagree, if_false, Bool.false_eq_true]
            refine .bind (.replace hn hchild (hbelow d _ _ c hc)) ?_
            exact hbeside
        | none =>
          rw [run_childFor_of_none hn hchild]
          dsimp only
          rw [EStateM.run_bind, EStateM.run_get]
          simp only [hchild, Bool.not_true, Bool.false_and, Option.any_none, Bool.false_eq_true,
            if_false]
          refine .bind (.make hn hchild
            (hbelow ⟨d.arena.addChild n.id p, d.journal⟩ _ _ _ (hn.addChild p))) ?_
          exact hbeside

end Draft

/-! ## Builders and grammars -/

namespace Usage

/-- What is wrong with a usage depends on its form alone. -/
theorem fault?_eq_of_sameForm {u v : Usage} (h : u.sameForm v = true) (command : String) :
    u.fault? command = v.fault? command := by
  rcases sameForm_iff.1 h with ⟨hdefault, hparameters⟩
  simp only [fault?, hdefault, hparameters]

theorem sameForm_comm (u v : Usage) : u.sameForm v = v.sameForm u := by
  rw [Bool.eq_iff_iff, sameForm_iff, sameForm_iff, eq_comm, @eq_comm _ u.parameters]

theorem sameForm_trans {u v w : Usage} (huv : u.sameForm v = true) (hvw : v.sameForm w = true) :
    u.sameForm w = true := by
  rcases sameForm_iff.1 huv with ⟨h₁, h₂⟩
  rcases sameForm_iff.1 hvw with ⟨h₃, h₄⟩
  exact sameForm_iff.2 ⟨h₁.trans h₃, h₂.trans h₄⟩

end Usage

namespace Grammar

variable {root : Parameter} {g : Grammar}

/-- The tree of a numbered grammar stands in its arena. -/
theorem Numbered.stands (hg : g.Numbered) : g.root.arena.Stands none (-1) g.root := by
  have hshows : ∀ (n : Node) above, (⟨n, above⟩ : Place) ∈ g.root.places →
      g.root.arena.Shows (above.head?.map (·.id)) (above.length - 1) n := by
    intro n
    induction n using Node.induction with
    | step n ih =>
      intro above hn
      refine .intro (hg.getElem?_arena_of_mem hn) ?_
      intro c hc
      have hchild := ih c hc (n :: above) (Node.child_mem_placesFrom hn hc)
      simpa using hchild
  refine ⟨?_, hg.nodup, ?_⟩
  · simpa using hshows g.root [] (Node.root_mem_places g.root)
  · intro i hi
    rw [hg.length_arena]
    exact hg.lt_size i hi

/-- An arena that shows the tree of a numbered grammar and no more is that of the grammar. -/
theorem Numbered.eq_arena (hg : g.Numbered) {a : Arena} (ha : a.Shows none (-1) g.root)
    (hlength : a.length = g.root.size) : a = g.root.arena := by
  have hcells : ∀ (n : Node) above, a.Shows (above.head?.map (·.id)) (above.length - 1) n →
      ∀ p ∈ n.placesFrom above, a[p.node.id]? = some p.cell := by
    intro n
    induction n using Node.induction with
    | step n ih =>
      intro above hn p hp
      rcases Node.mem_placesFrom.1 hp with rfl | ⟨c, hc, hp⟩
      · exact hn.cell
      · refine ih c hc (n :: above) ?_ p hp
        simpa using hn.child hc
  exact hg.eq_map_numbered hlength (hcells g.root [] (by simpa using ha))

theorem Numbered.command_builder (hg : g.Numbered) : g.builder.command = g.command := by
  have hname := hg.stands.nameOf_eq
  rw [hg.root] at hname
  exact hname

/-- Growing in place does what growing does. -/
theorem Numbered.agrees (hg : g.Numbered) (u : NumberedUsage) :
    g.root.arena.Agrees none (-1) g.root (g.grow u)
      ((Builder.grow g.command u).run ⟨g.root.arena, []⟩) := by
  have hstands := hg.stands
  unfold Grammar.grow Builder.grow
  rw [← hg.root, ← hg.length_arena]
  split
  · exact Draft.walk_mirrors (Draft.fall_mirrors u) u.usage.parameters ⟨g.root.arena, []⟩ _ _ _ hstands
  · exact Draft.insert_mirrors g.command u _ ⟨g.root.arena, []⟩ _ _ _ hstands

/-- The cells of a numbered grammar refer to its cells. -/
theorem Numbered.closed (hg : g.Numbered) (i : Nat) (c : Cell) (hc : g.root.arena[i]? = some c) :
    ∀ k ∈ c.children, k < g.root.arena.length := by
  intro k hk
  rcases hg.getElem?_arena_iff.1 hc with ⟨p, hp, rfl, rfl⟩
  rcases List.mem_map.1 hk with ⟨n, hn, rfl⟩
  have hcell := hg.getElem?_arena_of_mem (Node.child_mem_placesFrom hp hn)
  exact (List.getElem?_eq_some_iff.1 hcell).1

namespace Reachable

/-- The usages of a grammar are fit to be inserted. -/
theorem fault?_eq_none (hg : Reachable root g) : ∀ u ∈ g.usages, u.fault? root.name = none := by
  induction hg with
  | new => simp [Grammar.new]
  | @insert g g' u number hg hinsert ih =>
    have hcommand : g.command = root.name := congrArg Parameter.name hg.root_parameter
    rcases insert_number_cases hinsert with ⟨-, rfl⟩ | ⟨-, -, husages⟩
    · exact ih
    · rw [husages]
      intro v hv
      rcases List.mem_append.1 hv with hv | hv
      · exact ih v hv
      · obtain rfl := List.mem_singleton.1 hv
        unfold Grammar.insert at hinsert
        split at hinsert
        · cases hinsert
        · rename_i hfault
          rw [← hcommand]
          exact hfault
  | assignPermissions _ _ ih => exact ih

/-- **Builders and grammars.** Inserting a usage in place gives what inserting it gives. If it is
refused, the builder is what it was. -/
theorem builder_insert (hg : Reachable root g) (u : Usage) :
    g.builder.insert u =
      match g.insert u with
      | .ok (number, g') => (.ok number, g'.builder)
      | .error e => (.error e, g.builder) := by
  have hnumbered := hg.numbered
  unfold Builder.insert Grammar.insert
  rw [hnumbered.command_builder]
  cases hfault : u.fault? g.command with
  | some e => rfl
  | none =>
    have husages : g.builder.usages = g.usages := rfl
    simp only [husages]
    cases hfind : g.usages.findIdx? (·.sameForm u) with
    | some number => rfl
    | none =>
      -- Growing in place fails as growing the tree does, or else leaves the tree that has grown.
      have hagrees := hnumbered.agrees ⟨g.usages.length, u⟩
      have hkeeps := Builder.grow_keeps g.command ⟨g.usages.length, u⟩ ⟨g.root.arena, []⟩
        (Draft.Revertible.start hnumbered.closed)
      have harena : g.builder.arena = g.root.arena := rfl
      simp only [harena]
      unfold Edit.leaves at hkeeps
      cases hgrow : g.grow ⟨g.usages.length, u⟩ with
      | error e =>
        rw [hgrow] at hagrees
        cases hrun : (Builder.grow g.command ⟨g.usages.length, u⟩).run ⟨g.root.arena, []⟩ with
        | ok x d => exact absurd hagrees (by rw [hrun]; exact id)
        | error e' d =>
          rw [hrun] at hagrees hkeeps
          obtain rfl : e' = e := hagrees
          have hrollback : d.rollback g.root.arena.length = g.root.arena :=
            Draft.rollback_of_revertible hkeeps rfl
          simp [hrollback, builder, Bind.bind, Except.bind]
      | ok s =>
        rcases s with ⟨root', next⟩
        rw [hgrow] at hagrees
        cases hrun : (Builder.grow g.command ⟨g.usages.length, u⟩).run ⟨g.root.arena, []⟩ with
        | error e d => exact absurd hagrees (by rw [hrun]; exact id)
        | ok x d =>
          rw [hrun] at hagrees
          rcases hagrees with ⟨hfollows, hlength⟩
          have hu := Usage.wellFormed_of_fault?_eq_none hfault
          have hnumbers := grow_law Node.numbers_law (Node.receive_numbers _) hu hgrow
          rcases hnumbered.grow hnumbers (g.usages ++ [u]) with ⟨hsize, hnumbered'⟩
          have harena' : d.arena = root'.arena :=
            hnumbered'.eq_arena hfollows.stands.shows (hlength.trans hsize.symm)
          simp [harena', builder, Bind.bind, Except.bind, pure, Except.pure]

/-- A usage of a form that is present is inserted under the number of that one. -/
theorem insert_of_sameForm (hg : Reachable root g) {u v : Usage} {i : Nat}
    (hv : g.usages[i]? = some v) (hsame : v.sameForm u = true) : g.insert u = .ok (i, g) := by
  have hmem : v ∈ g.usages := List.mem_of_getElem? hv
  have hcommand : g.command = root.name := congrArg Parameter.name hg.root_parameter
  have hfault : u.fault? g.command = none := by
    rw [← Usage.fault?_eq_of_sameForm hsame, hcommand]
    exact hg.fault?_eq_none v hmem
  have hsome : (g.usages.findIdx? (·.sameForm u)).isSome = true := by
    rw [List.findIdx?_isSome]
    exact List.any_eq_true.2 ⟨v, hmem, hsame⟩
  rcases Option.isSome_iff_exists.1 hsome with ⟨k, hk⟩
  rcases List.findIdx?_eq_some_iff_getElem.1 hk with ⟨hlt, hksame, hfirst⟩
  rcases List.getElem?_eq_some_iff.1 hv with ⟨hilt, rfl⟩
  -- Usages of one form would be two if they had two numbers.
  have hki : k = i := by
    rcases Nat.lt_trichotomy k i with hlt' | heq | hgt
    · have hne := List.pairwise_iff_getElem.1 hg.pairwise_usages k i hlt hilt hlt'
      rw [Usage.sameForm_comm] at hsame
      simp [Usage.sameForm_trans hksame hsame] at hne
    · exact heq
    · simp [hfirst i hgt] at hsame
  unfold Grammar.insert
  rw [hfault]
  simp only [hk, hki]

/-- **Insertion in place is atomic and idempotent.** If a usage is refused, the builder is what it
was. If there is one of the same form, its number is given back and the builder is what it was. Else
the number is that of the usages there were, and the usage comes last. -/
theorem builder_insert_atomic (hg : Reachable root g) (u : Usage) :
    (∀ e, (g.builder.insert u).1 = .error e → (g.builder.insert u).2 = g.builder) ∧
      (∀ i v, g.usages[i]? = some v → v.sameForm u = true →
        g.builder.insert u = (.ok i, g.builder)) ∧
      ((∀ v ∈ g.usages, v.sameForm u = false) → ∀ number,
        (g.builder.insert u).1 = .ok number → number = g.usages.length ∧
          (g.builder.insert u).2.usages = g.usages ++ [u]) ∧
      (∀ number g', g.insert u = .ok (number, g') →
        g.builder.insert u = (.ok number, g'.builder)) ∧
      ∀ e, g.insert u = .error e → g.builder.insert u = (.error e, g.builder) := by
  rw [hg.builder_insert]
  refine ⟨?_, ?_, ?_, ?_, ?_⟩
  · intro e
    cases g.insert u with
    | error e' => exact fun _ => rfl
    | ok s => exact fun h => by cases h
  · intro i v hv hsame
    rw [hg.insert_of_sameForm hv hsame]
  · intro hnew number h
    cases hinsert : g.insert u with
    | error e => simp [hinsert] at h
    | ok s =>
      rcases s with ⟨k, g'⟩
      obtain rfl : k = number := by simpa [hinsert] using h
      rcases insert_number_cases hinsert with ⟨hfind, -⟩ | ⟨-, hnumber, husages⟩
      · rw [List.findIdx?_eq_none_iff.2 hnew] at hfind
        cases hfind
      · exact ⟨hnumber, husages⟩
  · intro number g' hinsert
    rw [hinsert]
  · intro e hinsert
    rw [hinsert]

/-- A usage that is refused after cells have been made, and one that is present. -/
theorem builder_insert_atomic_ban :
    let who := Parameter.required "who" .string
    let why := { Parameter.optional "why" .string with greedy := true }
    let u : Usage := ⟨"ban", [who, why], none, none, false⟩
    let refused : Usage :=
      ⟨"warn", [.optional "times" .int, who, { why with greedy := false }], none, none, false⟩
    let g := (Grammar.new (.literal "ban" [])).changeAll [.insert u]
    (g.builder.insert refused).1 =
        .error (.invalidDeclaration "ban" (.greedyElsewhere "why")) ∧
      (g.builder.insert refused).2 = g.builder ∧
      g.builder.insert { u with handler := "again" } = (.ok 0, g.builder) := by
  intro who why u refused g
  have hg : Reachable (.literal "ban" []) g := Reachable.new.changeAll [.insert u]
  rcases hg.builder_insert_atomic refused with ⟨hrefused, -, -, -, herror⟩
  rcases hg.builder_insert_atomic { u with handler := "again" } with ⟨-, hpresent, -, -, -⟩
  have hinsert : g.insert refused =
      .error (.invalidDeclaration "ban" (.greedyElsewhere "why")) := by
    dsimp only [g, refused, u, why, who]
    rfl
  have hresult := congrArg Prod.fst (herror _ hinsert)
  exact ⟨hresult, hrefused _ hresult, hpresent 0 u rfl (by decide)⟩

end Reachable

end Grammar

end CommandLanguage

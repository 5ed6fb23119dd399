import CommandLanguage.Proofs.InPlace
import Mathlib.Data.List.Perm.Basic

/-!
# Derived permissions

A builder that gives permissions goes through its cells with a stack. The entry of a cell on top of
the stack comes to permissions for all that is below the cell, whatever else is on the stack
(`Arena.handles`). So a builder gives its cells the permissions that a grammar gives to its tree.

The permission that is due to a place below the root is made of that of the root, the names of the
required nodes on the way, and its own (`Place.duePermission`).
`Builder.Reachable.assignPermissions_law` says that a cell without a permission gets the one that is
due, that nothing else changes, and that giving permissions again changes nothing.
-/

namespace CommandLanguage

variable {delimiter base : String} {n c : Node}

/-! ## Giving permissions to nodes -/

namespace Node

@[simp] theorem id_permit : (n.permit delimiter base).id = n.id :=
  (repermitted_permit delimiter base n).id_eq

@[simp] theorem ids_permit : (n.permit delimiter base).ids = n.ids :=
  (repermitted_permit delimiter base n).ids_eq

theorem toNodeData_permit : (n.permit delimiter base).toNodeData =
    { n.toNodeData with permission := some (n.permission.getD (n.derivedPermission delimiter base)) } := by
  rcases n with ⟨data, children⟩
  rfl

theorem children_permit : (n.permit delimiter base).children =
    n.children.map (permit delimiter (n.handedDown delimiter base)) := by
  rcases n with ⟨data, children⟩
  rw [← permitAll_eq_map]
  rfl

/-- What is below another node is not the root of its tree. -/
theorem above_ne_nil_of_mem_placesFrom {above : List Node} {p : Place} (habove : above ≠ [])
    (hp : p ∈ n.placesFrom above) : p.above ≠ [] := by
  induction n using Node.induction generalizing above with
  | step n ih =>
    rcases mem_placesFrom.1 hp with rfl | ⟨c, hc, hp⟩
    · exact habove
    · exact ih c hc (List.cons_ne_nil n above) hp

theorem map_id_map_permit (cs : List Node) :
    (cs.map (permit delimiter base)).map (·.id) = cs.map (·.id) := by
  simp [Function.comp_def]

/-- The numbers of the nodes below a node. -/
def idsBelow (n : Node) : List Nat :=
  n.children.flatMap ids

/-- The numbers of some trees are those of their roots and those below them. -/
theorem flatMap_ids_perm (cs : List Node) :
    (cs.flatMap ids).Perm (cs.map (·.id) ++ cs.flatMap idsBelow) := by
  have hids : ids = fun c => c.id :: c.idsBelow := funext ids_eq
  rw [hids]
  exact (List.map_append_flatMap_perm cs _ _).symm

theorem mem_ids_of_mem_idsBelow {i : Nat} (h : i ∈ n.idsBelow) : i ∈ n.ids := by
  rw [ids_eq]
  exact List.mem_cons_of_mem _ h

/-- Children have numbers of their own if the nodes of a tree have. -/
theorem nodup_children (h : n.ids.Nodup) :
    (n.children.map (·.id) ++ n.children.flatMap idsBelow).Nodup := by
  rw [ids_eq, List.nodup_cons] at h
  exact (flatMap_ids_perm n.children).nodup_iff.1 h.2

end Node

/-! ## Going through cells -/

namespace Arena

variable {a a' : Arena} {depth : Int}

/-- Whether an arena has the cells below a node, and the cell of the node refers to them. -/
structure ShowsBelow (a : Arena) (depth : Int) (n : Node) : Prop where
  listed : ∃ cell, a[n.id]? = some cell ∧ cell.children = n.children.map (·.id)
  below : ∀ c ∈ n.children, a.Shows (some n.id) (depth + 1) c

theorem ShowsBelow.of_agree (h : a.ShowsBelow depth n) (hagree : ∀ i ∈ n.ids, a'[i]? = a[i]?) :
    a'.ShowsBelow depth n := by
  refine ⟨?_, ?_⟩
  · rw [hagree _ n.id_mem_ids]
    exact h.listed
  · intro c hc
    exact (h.below c hc).of_agree fun i hi => hagree i (Node.mem_ids_of_mem hc hi)

/-- What giving permissions to siblings makes of an arena. -/
structure Grants (delimiter base : String) (a a' : Arena) (depth : Int) (parent : Option Nat)
    (cs : List Node) : Prop where
  length : a'.length = a.length
  cell : ∀ c ∈ cs, a'[c.id]? =
    some ⟨(c.permit delimiter base).toNodeData, parent, depth, c.children.map (·.id)⟩
  kept : ∀ i ∉ cs.map (·.id), a'[i]? = a[i]?

theorem grant_eq {parent : Option Nat} {stack : List (Nat × String)}
    (hcell : a[c.id]? = some ⟨c.toNodeData, parent, depth, c.children.map (·.id)⟩) :
    grant delimiter base (a, stack) c.id =
      some (a.set c.id ⟨(c.permit delimiter base).toNodeData, parent, depth, c.children.map (·.id)⟩,
        (c.id, c.handedDown delimiter base) :: stack) := by
  rw [Node.toNodeData_permit]
  simp only [grant, hcell]
  rfl

/-- Giving permissions to siblings puts them on the stack, the last one on top. -/
theorem foldlM_grant (delimiter base : String) {parent : Option Nat} {cs : List Node}
    (hcells : ∀ c ∈ cs, a[c.id]? = some ⟨c.toNodeData, parent, depth, c.children.map (·.id)⟩)
    (hnodup : (cs.map (·.id)).Nodup) :
    ∃ a', Grants delimiter base a a' depth parent cs ∧
      ∀ stack, (cs.map (·.id)).foldlM (grant delimiter base) (a, stack) =
        some (a', (cs.reverse.map fun c => (c.id, c.handedDown delimiter base)) ++ stack) := by
  induction cs generalizing a with
  | nil => exact ⟨a, ⟨rfl, by simp, fun _ _ => rfl⟩, fun _ => rfl⟩
  | cons c cs ih =>
    rw [List.map_cons, List.nodup_cons] at hnodup
    rcases List.forall_mem_cons.1 hcells with ⟨hc, hcs⟩
    let a₁ := a.set c.id
      ⟨(c.permit delimiter base).toNodeData, parent, depth, c.children.map (·.id)⟩
    have hother : ∀ i, i ≠ c.id → a₁[i]? = a[i]? := by
      intro i hi
      exact List.getElem?_set_ne (Ne.symm hi)
    have hcs₁ : ∀ d ∈ cs, a₁[d.id]? = some ⟨d.toNodeData, parent, depth, d.children.map (·.id)⟩ := by
      intro d hd
      rw [hother, hcs d hd]
      intro heq
      exact hnodup.1 (heq ▸ List.mem_map_of_mem hd)
    rcases ih hcs₁ hnodup.2 with ⟨a', hgrants, hrun⟩
    refine ⟨a', ⟨?_, ?_, ?_⟩, ?_⟩
    · rw [hgrants.length, List.length_set]
    · refine List.forall_mem_cons.2 ⟨?_, hgrants.cell⟩
      rw [hgrants.kept c.id hnodup.1]
      exact List.getElem?_set_self (List.getElem?_eq_some_iff.1 hc).1
    · intro i hi
      rw [List.map_cons, List.mem_cons, not_or] at hi
      rw [hgrants.kept i hi.2, hother i hi.1]
    · intro stack
      rw [List.map_cons, List.foldlM_cons, grant_eq hc]
      refine (hrun _).trans ?_
      simp

/-- What giving permissions to all that is below some nodes makes of an arena. -/
structure Permits (delimiter : String) (handed : Node → String) (a a' : Arena) (depth : Int)
    (ns : List Node) : Prop where
  length : a'.length = a.length
  shows : ∀ n ∈ ns, ∀ c ∈ n.children,
    a'.Shows (some n.id) (depth + 1) (c.permit delimiter (handed n))
  kept : ∀ i ∉ ns.flatMap Node.idsBelow, a'[i]? = a[i]?

/-- Whether the entry of a node on top of a stack comes to permissions for all that is below the
node, in a round for each node. -/
def Handles (delimiter : String) (n : Node) : Prop :=
  ∀ (handed : Node → String) (a : Arena) (depth : Int), a.ShowsBelow depth n → n.ids.Nodup →
    ∃ a', Permits delimiter handed a a' depth [n] ∧
      ∀ rounds stack, permitBelow delimiter (n.size + rounds) a ((n.id, handed n) :: stack) =
        permitBelow delimiter rounds a' stack

/-- The entries of siblings on top of a stack are handled one after the other, as none of them
touches what is below the others. -/
theorem permitBelow_append {handed : Node → String} {cs : List Node}
    (hcs : ∀ c ∈ cs, Handles delimiter c) {a : Arena} (hshows : ∀ c ∈ cs, a.ShowsBelow depth c)
    (hnodup : (cs.flatMap Node.ids).Nodup) :
    ∃ a', Permits delimiter handed a a' depth cs ∧
      ∀ rounds stack, permitBelow delimiter (Node.size.sizes cs + rounds) a
          (cs.map (fun c => (c.id, handed c)) ++ stack) =
        permitBelow delimiter rounds a' stack := by
  induction cs generalizing a with
  | nil => exact ⟨a, ⟨rfl, by simp, fun _ _ => rfl⟩, fun rounds _ => by simp [Node.size.sizes]⟩
  | cons c cs ih =>
    rcases List.forall_mem_cons.1 hcs with ⟨hc, hcs⟩
    rcases List.forall_mem_cons.1 hshows with ⟨hcshows, hshows⟩
    rw [List.flatMap_cons, List.nodup_append] at hnodup
    rcases hnodup with ⟨hcnodup, hnodup, hapart⟩
    rcases hc handed a depth hcshows hcnodup with ⟨a₁, hfirst, hrun⟩
    have hkept : ∀ i ∉ c.idsBelow, a₁[i]? = a[i]? := by simpa using hfirst.kept
    have hshows₁ : ∀ d ∈ cs, a₁.ShowsBelow depth d := by
      intro d hd
      refine (hshows d hd).of_agree fun i hi => hkept i fun hi' => ?_
      exact hapart i (Node.mem_ids_of_mem_idsBelow hi') i (List.mem_flatMap.2 ⟨d, hd, hi⟩) rfl
    rcases ih hcs hshows₁ hnodup with ⟨a', hothers, hrest⟩
    refine ⟨a', ⟨hothers.length.trans hfirst.length, ?_, ?_⟩, ?_⟩
    · refine List.forall_mem_cons.2 ⟨?_, hothers.shows⟩
      intro d hd
      have hshown := hfirst.shows c List.mem_cons_self d hd
      refine hshown.of_agree fun i hi => hothers.kept i fun hi' => ?_
      have hcs' := (Node.flatMap_ids_perm cs).symm.subset (List.mem_append_right _ hi')
      rw [Node.ids_permit] at hi
      exact hapart i (Node.mem_ids_of_mem hd hi) i hcs' rfl
    · intro i hi
      rw [List.flatMap_cons, List.mem_append, not_or] at hi
      rw [hothers.kept i hi.2, hkept i hi.1]
    · intro rounds stack
      rw [Node.size.sizes, Nat.add_assoc, List.map_cons, List.cons_append, hrun, hrest]

/-- Where siblings have been given permissions, what is below them is what it was. -/
theorem Grants.showsBelow {a₁ : Arena}
    (h : Grants delimiter base a a₁ depth (some n.id) n.children) (hnodup : n.ids.Nodup)
    (hc : c ∈ n.children) (hshows : a.Shows (some n.id) depth c) : a₁.ShowsBelow depth c := by
  have hparts := Node.nodup_children hnodup
  rw [List.nodup_append] at hparts
  refine ⟨⟨_, h.cell c hc, rfl⟩, ?_⟩
  intro d hd
  refine (hshows.child hd).of_agree fun i hi => h.kept i fun hi' => ?_
  have hbelow : i ∈ n.children.flatMap Node.idsBelow :=
    List.mem_flatMap.2 ⟨c, hc, List.mem_flatMap.2 ⟨d, hd, hi⟩⟩
  exact hparts.2.2 i hi' i hbelow rfl

/-- All that is below a node has permissions when its children have been given theirs, and then all
that is below the children. -/
theorem Grants.permits {a₁ : Arena} {handed : Node → String}
    (hgrants : Grants delimiter (handed n) a a₁ (depth + 1) (some n.id) n.children)
    (hpermits : Permits delimiter (Node.handedDown delimiter (handed n)) a₁ a' (depth + 1)
      n.children.reverse) (hnodup : n.ids.Nodup) :
    Permits delimiter handed a a' depth [n] := by
  have hparts := Node.nodup_children hnodup
  rw [List.nodup_append] at hparts
  have hkept : ∀ i ∉ n.children.flatMap Node.idsBelow, a'[i]? = a₁[i]? := by
    intro i hi
    refine hpermits.kept i fun hi' => hi ?_
    exact ((List.reverse_perm n.children).flatMap_right Node.idsBelow).subset hi'
  refine ⟨hpermits.length.trans hgrants.length, ?_, ?_⟩
  · intro m hm c hc
    obtain rfl := List.mem_singleton.1 hm
    have hown : c.id ∉ m.children.flatMap Node.idsBelow :=
      fun hi => hparts.2.2 c.id (List.mem_map_of_mem hc) c.id hi rfl
    refine .intro ?_ ?_
    · rw [Node.id_permit, hkept _ hown, hgrants.cell c hc, Node.children_permit,
        Node.map_id_map_permit]
    · intro d' hd'
      rw [Node.children_permit] at hd'
      rcases List.mem_map.1 hd' with ⟨d, hd, rfl⟩
      rw [Node.id_permit]
      exact hpermits.shows c (List.mem_reverse.2 hc) d hd
  · intro i hi
    have hi' : i ∉ n.children.map (·.id) ++ n.children.flatMap Node.idsBelow := by
      intro hmem
      have hbelow : i ∈ n.idsBelow := (Node.flatMap_ids_perm n.children).symm.subset hmem
      exact hi (by simpa using hbelow)
    rw [List.mem_append, not_or] at hi'
    rw [hkept i hi'.2, hgrants.kept i hi'.1]

/-- **Going through cells.** The entry of a node on top of a stack comes to permissions for all that
is below the node. -/
theorem handles (delimiter : String) (n : Node) : Handles delimiter n := by
  induction n using Node.induction with
  | step n ih =>
    intro handed a depth hshows hnodup
    have hparts := Node.nodup_children hnodup
    rw [List.nodup_append] at hparts
    rcases hshows.listed with ⟨cell, hcell, hlisted⟩
    rcases foldlM_grant delimiter (handed n) (fun c hc => (hshows.below c hc).cell) hparts.1 with
      ⟨a₁, hgrants, hgranted⟩
    -- The last child is on top of the stack.
    have hchildren : ∀ c ∈ n.children.reverse, Handles delimiter c ∧ a₁.ShowsBelow (depth + 1) c := by
      intro c hc
      rw [List.mem_reverse] at hc
      exact ⟨ih c hc, hgrants.showsBelow hnodup hc (hshows.below c hc)⟩
    have hreverse : (n.children.reverse.flatMap Node.ids).Nodup := by
      rw [Node.ids_eq, List.nodup_cons] at hnodup
      exact ((List.reverse_perm n.children).flatMap_right Node.ids).nodup_iff.2 hnodup.2
    rcases permitBelow_append (fun c hc => (hchildren c hc).1) (fun c hc => (hchildren c hc).2)
      hreverse with ⟨a', hpermits, hrest⟩
    refine ⟨a', hgrants.permits hpermits hnodup, ?_⟩
    intro rounds stack
    have hrounds : n.size + rounds = Node.size.sizes n.children.reverse + rounds + 1 := by
      rw [Node.size_eq_add_sizes, Node.sizes_reverse]
      omega
    rw [hrounds, permitBelow, hcell, Option.bind_eq_bind, Option.bind_some, hlisted, hgranted,
      Option.bind_eq_bind, Option.bind_some]
    exact hrest rounds stack

end Arena

/-! ## The permission that is due -/

theorem intercalate_concat (delimiter base : String) (ws : List String) (w : String) :
    delimiter.intercalate (base :: (ws ++ [w])) =
      delimiter.intercalate (base :: ws) ++ delimiter ++ w := by
  rw [← List.cons_append, String.intercalate_append_of_ne_nil (List.cons_ne_nil _ _)
    (List.cons_ne_nil _ _), String.intercalate_singleton]

namespace Place

/-- The required nodes above a place other than the root, from the top. -/
def requiredAbove (p : Place) : List Node :=
  p.above.dropLast.reverse.filter (!·.isOptional)

/-- The permission that is due to a place below a root with a permission. -/
def duePermission (delimiter base : String) (p : Place) : String :=
  delimiter.intercalate (base :: (p.requiredAbove ++ [p.node]).map (Text.lowercase ·.name))

theorem requiredAbove_cons {above : List Node} (h : above ≠ []) (n c : Node) :
    requiredAbove ⟨c, n :: above⟩ =
      requiredAbove ⟨n, above⟩ ++ if n.isOptional then [] else [n] := by
  simp only [requiredAbove, List.dropLast_cons_of_ne_nil h, List.reverse_cons, List.filter_append]
  cases hoptional : n.isOptional <;> simp [hoptional]

/-- What is handed down to a place below the root. -/
def handed (delimiter base : String) (p : Place) : String :=
  delimiter.intercalate (base :: p.requiredAbove.map (Text.lowercase ·.name))

theorem duePermission_eq (delimiter base : String) (p : Place) :
    p.duePermission delimiter base =
      p.node.derivedPermission delimiter (p.handed delimiter base) := by
  rw [duePermission, List.map_append, List.map_singleton, intercalate_concat]
  rfl

theorem handed_cons {above : List Node} (h : above ≠ []) (n c : Node) :
    handed delimiter base ⟨c, n :: above⟩ =
      n.handedDown delimiter (handed delimiter base ⟨n, above⟩) := by
  rw [handed, requiredAbove_cons h, Node.handedDown]
  cases n.isOptional with
  | true => rw [if_pos rfl, if_pos rfl, List.append_nil, handed]
  | false =>
    rw [if_neg Bool.false_ne_true, if_neg Bool.false_ne_true, List.map_append, List.map_singleton,
      intercalate_concat]
    rfl

end Place

/-- The cells of a subtree to whose nodes permissions are given have those that are due. -/
theorem Arena.Shows.cell_of_permit {a : Arena} {above : List Node} (habove : above ≠ [])
    (h : a.Shows (above.head?.map (·.id)) (above.length - 1)
      (n.permit delimiter (Place.handed delimiter base ⟨n, above⟩))) :
    ∀ p ∈ n.placesFrom above, a[p.node.id]? =
      some { p.cell with permission := some (p.node.permission.getD (p.duePermission delimiter base)) } := by
  induction n using Node.induction generalizing above with
  | step n ih =>
    intro p hp
    rcases Node.mem_placesFrom.1 hp with rfl | ⟨c, hc, hp⟩
    · have hcell := h.cell
      rw [Node.id_permit, Node.toNodeData_permit, Node.children_permit, Node.map_id_map_permit] at hcell
      rw [hcell, Place.duePermission_eq]
      rfl
    · refine ih c hc (List.cons_ne_nil n above) ?_ p hp
      have hchild := h.child (by rw [Node.children_permit]; exact List.mem_map_of_mem hc)
      rw [← Place.handed_cons habove n c] at hchild
      simpa using hchild

namespace Grammar

variable {g : Grammar}

/-- The permission of the root of a grammar, once it has one. -/
def rootPermission (g : Grammar) : String :=
  g.root.permission.getD (Text.lowercase g.command)

/-- The permission that is due to a place of a grammar. -/
def duePermission (g : Grammar) (delimiter : String) (p : Place) : String :=
  if p.above.isEmpty then Text.lowercase g.command
  else p.duePermission delimiter g.rootPermission

/-- The cell of a place of a grammar, once it has a permission. -/
def permittedCell (g : Grammar) (delimiter : String) (p : Place) : Cell :=
  { p.cell with permission := some (p.node.permission.getD (g.duePermission delimiter p)) }

theorem children_assignPermissions (g : Grammar) (delimiter : String) :
    (g.assignPermissions delimiter).root.children =
      g.root.children.map (Node.permit delimiter g.rootPermission) :=
  Node.permitAll_eq_map delimiter g.rootPermission g.root.children

theorem size_assignPermissions (g : Grammar) (delimiter : String) :
    (g.assignPermissions delimiter).root.size = g.root.size := by
  rw [Node.size_eq, Node.size_eq, (g.repermitted_assignPermissions delimiter).ids_eq]

namespace Numbered

/-- The cells of a grammar to which permissions have been given. -/
theorem arena_assignPermissions (hg : g.Numbered) (delimiter : String) :
    (g.assignPermissions delimiter).root.arena = g.root.numbered.map (g.permittedCell delimiter) := by
  have hg' := hg.assignPermissions delimiter
  have hshows := hg'.stands.shows
  refine hg.eq_map_numbered ?_ ?_
  · rw [hg'.length_arena, size_assignPermissions]
  · intro p hp
    rcases Node.mem_placesFrom.1 hp with rfl | ⟨c, hc, hp⟩
    · have hcell := hshows.cell
      rw [children_assignPermissions, Node.map_id_map_permit] at hcell
      exact hcell
    · have hchild : c.permit delimiter g.rootPermission ∈
          (g.assignPermissions delimiter).root.children := by
        rw [children_assignPermissions]
        exact List.mem_map_of_mem hc
      have hfirst : Place.handed delimiter g.rootPermission ⟨c, [g.root]⟩ = g.rootPermission := by
        simp [Place.handed, Place.requiredAbove]
      have hbelow : p.above.isEmpty = false := by
        rw [List.isEmpty_eq_false_iff]
        exact Node.above_ne_nil_of_mem_placesFrom (List.cons_ne_nil g.root []) hp
      have hc' := hshows.child hchild
      rw [← hfirst] at hc'
      rw [Arena.Shows.cell_of_permit (List.cons_ne_nil g.root []) hc' p hp, permittedCell,
        duePermission, hbelow]
      rfl

/-- What is below the root shows in the cells, whatever permission the root is given. -/
theorem showsBelow_set (hg : g.Numbered) {cell : Cell}
    (hchildren : cell.children = g.root.children.map (·.id)) :
    Arena.ShowsBelow (g.root.arena.set 0 cell) (-1) g.root := by
  have hshows := hg.stands.shows
  have hlength : 0 < g.root.arena.length := by
    rw [← hg.root]
    exact (List.getElem?_eq_some_iff.1 hshows.cell).1
  refine ⟨⟨cell, ?_, hchildren⟩, ?_⟩
  · rw [hg.root]
    exact List.getElem?_set_self hlength
  · intro c hc
    refine (hshows.child hc).of_agree fun i hi => List.getElem?_set_ne ?_
    rintro rfl
    rw [← hg.root] at hi
    exact hg.stands.id_not_mem hc hi

/-- **Giving permissions in place.** A builder gives its cells the permissions that a grammar gives to
its tree. -/
theorem builder_assignPermissions (hg : g.Numbered) (delimiter : String) :
    g.builder.assignPermissions delimiter = some (g.assignPermissions delimiter).builder := by
  have hcell := hg.stands.shows.cell
  rw [hg.root] at hcell
  -- The root has its permission before the stack is gone through.
  let first : Cell :=
    ⟨{ g.root.toNodeData with permission := some g.rootPermission }, none, -1, g.root.children.map (·.id)⟩
  have hfirst : (g.root.arena.set 0 first)[0]? = some first :=
    List.getElem?_set_self (List.getElem?_eq_some_iff.1 hcell).1
  have hshows : Arena.ShowsBelow (g.root.arena.set 0 first) (-1) g.root := hg.showsBelow_set rfl
  rcases Arena.handles delimiter g.root (fun _ => g.rootPermission) _ (-1) hshows hg.nodup with
    ⟨a, hpermits, hrun⟩
  have hroot : a[0]? = some first := by
    rw [hpermits.kept 0 ?_, hfirst]
    intro hi
    have hnodup := hg.nodup
    rw [Node.ids_eq, hg.root, List.nodup_cons] at hnodup
    rw [List.flatMap_singleton] at hi
    exact hnodup.1 hi
  have harena : a = (g.assignPermissions delimiter).root.arena := by
    refine (hg.assignPermissions delimiter).eq_arena (.intro ?_ ?_) ?_
    · rw [(g.repermitted_assignPermissions delimiter).id_eq, hg.root, hroot,
        children_assignPermissions, Node.map_id_map_permit]
      rfl
    · intro c' hc'
      rw [children_assignPermissions] at hc'
      rcases List.mem_map.1 hc' with ⟨c, hc, rfl⟩
      exact hpermits.shows g.root List.mem_cons_self c hc
    · rw [hpermits.length, List.length_set, hg.length_arena, size_assignPermissions]
  have hall : Arena.permitBelow delimiter g.root.arena.length (g.root.arena.set 0 first)
      [(0, g.rootPermission)] = some a := by
    rw [hg.root] at hrun
    rw [hg.length_arena]
    exact hrun 0 []
  have hget : g.builder.arena[0]? = _ := hcell
  rw [Builder.assignPermissions, hget, hg.command_builder, Option.bind_eq_bind, Option.bind_some,
    Option.bind_eq_bind]
  refine (congrArg (Option.bind · _) hall).trans ?_
  rw [harena]
  rfl

/-- Giving permissions again changes nothing. -/
theorem builder_assignPermissions_again (hg : g.Numbered) (delimiter delimiter' : String) :
    ((g.assignPermissions delimiter).assignPermissions delimiter').builder =
      (g.assignPermissions delimiter).builder := by
  have hg' := hg.assignPermissions delimiter
  have hcells : ∀ p ∈ (g.assignPermissions delimiter).root.numbered,
      (g.assignPermissions delimiter).permittedCell delimiter' p = p.cell := by
    intro p hp
    have hmem : p.cell ∈ (g.assignPermissions delimiter).root.arena := List.mem_map_of_mem hp
    rw [hg.arena_assignPermissions] at hmem
    rcases List.mem_map.1 hmem with ⟨q, -, hq⟩
    obtain ⟨permission, hpermission⟩ : ∃ permission, p.node.permission = some permission :=
      ⟨_, congrArg (·.permission) hq.symm⟩
    rw [permittedCell, hpermission, Option.getD_some, ← hpermission]
    rfl
  have harena := hg'.arena_assignPermissions delimiter'
  rw [List.map_congr_left hcells] at harena
  rw [builder, harena]
  rfl

end Numbered

/-- Whether it accepts a usage or not, a builder becomes what the grammar becomes. -/
theorem Reachable.snd_builder_insert {root : Parameter} (hg : Reachable root g) (u : Usage) :
    (g.builder.insert u).2 = (g.change (.insert u)).builder := by
  rw [hg.builder_insert, Grammar.change]
  cases g.insert u <;> rfl

theorem builder_new (root : Parameter) : (new root).builder = Builder.new root := by
  have hplaces : (new root).root.places = [Place.root (new root).root] := rfl
  rw [builder, Node.arena, Node.numbered, hplaces, List.mergeSort_singleton]
  rfl

end Grammar

/-! ## Builders -/

namespace Builder

/-- Whether a builder can be made from a root, by inserting usages, refused ones among them, and by
giving permissions. -/
inductive Reachable (root : Parameter) : Builder → Prop where
  | new : Reachable root (new root)
  | insert {b : Builder} (u : Usage) : Reachable root b → Reachable root (b.insert u).2
  | assignPermissions {b b' : Builder} {delimiter : String} :
      Reachable root b → b.assignPermissions delimiter = some b' → Reachable root b'

namespace Reachable

variable {root : Parameter} {b : Builder}

/-- Every builder is a grammar in place. -/
theorem exists_grammar (hb : Reachable root b) : ∃ g, Grammar.Reachable root g ∧ g.builder = b := by
  induction hb with
  | new => exact ⟨.new root, .new, Grammar.builder_new root⟩
  | insert u _ ih =>
    rcases ih with ⟨g, hg, rfl⟩
    exact ⟨_, hg.change (.insert u), (hg.snd_builder_insert u).symm⟩
  | assignPermissions _ hassign ih =>
    rcases ih with ⟨g, hg, rfl⟩
    rw [hg.numbered.builder_assignPermissions] at hassign
    exact ⟨_, hg.assignPermissions _, Option.some.inj hassign⟩

/-- **Derived permissions.** A builder is a grammar in place. When it gives permissions, each of its
cells stays what it is but for the permission: a cell that has one keeps it, and any other gets the
one that is due. So does the tree of the grammar. When it gives permissions again, with whatever
delimiter, nothing changes. -/
theorem assignPermissions_law (hb : Reachable root b) (delimiter : String) :
    (∃ g, Grammar.Reachable root g ∧ b = ⟨g.root.numbered.map Place.cell, g.usages⟩) ∧
      ∃ b', b.assignPermissions delimiter = some b' ∧
        (∀ g, Grammar.Reachable root g → b = ⟨g.root.numbered.map Place.cell, g.usages⟩ →
          b' = ⟨g.root.numbered.map (g.permittedCell delimiter), g.usages⟩ ∧
            b' = (g.assignPermissions delimiter).builder) ∧
        ∀ delimiter', b'.assignPermissions delimiter' = some b' := by
  rcases hb.exists_grammar with ⟨g, hg, rfl⟩
  have hgiven := hg.numbered.builder_assignPermissions delimiter
  refine ⟨⟨g, hg, rfl⟩, _, hgiven, ?_, ?_⟩
  · intro g' hg' heq
    have hgiven' := hg'.numbered.builder_assignPermissions delimiter
    rw [show g'.builder = g.builder from heq.symm, hgiven] at hgiven'
    rw [Option.some.inj hgiven', Grammar.builder, hg'.numbered.arena_assignPermissions]
    exact ⟨rfl, rfl⟩
  · intro delimiter'
    rw [(hg.numbered.assignPermissions delimiter).builder_assignPermissions,
      hg.numbered.builder_assignPermissions_again]

/-- An optional node, whose name is not handed down, and a declared permission, which is kept but plays
no part below. -/
theorem assignPermissions_law_kit :
    let give : Usage := ⟨"give", [.literal "give" [], .optional "amount" .int,
      .required "player" .string], none, none, false⟩
    let reload : Usage := ⟨"reload", [{ Parameter.literal "reload" [] with
      permission := some "admin.reload" }, .optional "Now" .boolean], none, none, false⟩
    let b := (((Builder.new (.literal "kit" [])).insert give).2.insert reload).2
    Reachable (.literal "kit" []) b ∧
      ∃ b', b.assignPermissions "." = some b' ∧
        b'.arena.map (·.permission) =
          ["kit", "kit.give", "kit.give.amount", "kit.give.player", "kit.give.player",
            "admin.reload", "kit.reload.now"].map some ∧
        b'.assignPermissions "/" = some b' := by
  intro give reload b
  have hb : Reachable (.literal "kit" []) b := (Reachable.new.insert give).insert reload
  have hnew : Grammar.Reachable (.literal "kit" []) _ := .new
  have hgive := hnew.change (.insert give)
  let g := ((Grammar.new (.literal "kit" [])).change (.insert give)).change (.insert reload)
  have hbuilder : b = g.builder := by
    rw [← hgive.snd_builder_insert, ← hnew.snd_builder_insert, Grammar.builder_new]
  -- The places stand in the order of their numbers.
  have hnumbered : g.root.numbered = g.root.places := List.mergeSort_of_pairwise (by decide +kernel)
  rcases hb.assignPermissions_law "." with ⟨-, b', hassign, hcells, hagain⟩
  refine ⟨hb, b', hassign, ?_, hagain "/"⟩
  rw [(hcells g (hgive.change (.insert reload)) hbuilder).1, hnumbered]
  decide +kernel

end Reachable

end Builder

end CommandLanguage

import CommandLanguage.Proofs.View

/-!
# The numbers of nodes

Nodes are numbered in the order in which they are made, so a tree that has grown has the numbers that
it had and those of the new nodes (`Node.Numbers.ids`). As a new node has a higher number than all
there were, numbers rise from a node to those below it and along siblings of one priority
(`Node.Arranged`). The numbers of the tree of a grammar that can be built are those below its size
(`Grammar.Reachable.numbered`).
-/

namespace CommandLanguage

namespace Node

/-! ## The nodes of a tree -/

/-- The numbers of the nodes of a tree, each before those below it. -/
def ids (n : Node) : List Nat :=
  n.places.map (·.node.id)

theorem map_id_placesFrom (n : Node) (above : List Node) :
    (n.placesFrom above).map (·.node.id) = n.ids := by
  unfold ids places
  -- What is above plays no part, so it is as good to compare any two.
  suffices h : ∀ above above', (n.placesFrom above).map (·.node.id) =
      (n.placesFrom above').map (·.node.id) from h above []
  induction n using Node.induction with
  | step n ih =>
    intro above above'
    rcases n with ⟨data, children⟩
    simp only [placesFrom, placesBelow_eq_flatMap, List.map_cons, List.map_flatMap]
    congr 1
    exact List.flatMap_congr fun c hc => ih c hc _ _

theorem ids_eq (n : Node) : n.ids = n.id :: n.children.flatMap ids := by
  rcases n with ⟨data, children⟩
  simp only [ids, places, placesFrom, placesBelow_eq_flatMap, List.map_cons, List.map_flatMap]
  congr 1
  exact List.flatMap_congr fun c _ => map_id_placesFrom c _

theorem id_mem_ids (n : Node) : n.id ∈ n.ids := by
  rw [ids_eq]
  exact List.mem_cons_self

theorem mem_ids_of_mem {n c : Node} {i : Nat} (hc : c ∈ n.children) (hi : i ∈ c.ids) :
    i ∈ n.ids := by
  rw [ids_eq]
  exact List.mem_cons_of_mem _ (List.mem_flatMap.2 ⟨c, hc, hi⟩)

@[simp] theorem ids_leaf (id : Nat) (p : Parameter) : (leaf id p).ids = [id] := by
  rw [ids_eq]
  rfl

theorem size_eq (n : Node) : n.size = n.ids.length := by
  induction n using Node.induction with
  | step n ih =>
    have hsizes : ∀ cs : List Node, (∀ c ∈ cs, c.size = c.ids.length) →
        size.sizes cs = (cs.flatMap ids).length := by
      intro cs hcs
      induction cs with
      | nil => rfl
      | cons c cs ihcs =>
        rcases List.forall_mem_cons.1 hcs with ⟨hc, hcs⟩
        simp [size.sizes, hc, ihcs hcs]
    rw [ids_eq, size_eq_add_sizes, hsizes n.children ih, List.length_cons, Nat.add_comm]

/-! ## Siblings in order -/

/-- Whether a sibling stands before another: the higher priority comes first, and of two equal ones
the lower number. -/
def Before (c d : Node) : Prop :=
  d.siblingPriority < c.siblingPriority ∨ d.siblingPriority = c.siblingPriority ∧ c.id < d.id

theorem siblingPriority_eq_of_parameter_eq {c d : Node} (h : c.parameter = d.parameter) :
    c.siblingPriority = d.siblingPriority :=
  congrArg Parameter.siblingPriority h

/-- Where a sibling stands depends on its parameter and its number alone. -/
theorem before_congr {c c' d d' : Node} (hc : c'.parameter = c.parameter) (hid : c'.id = c.id)
    (hd : d'.parameter = d.parameter) (hid' : d'.id = d.id) : c'.Before d' ↔ c.Before d := by
  unfold Before
  rw [siblingPriority_eq_of_parameter_eq hc, siblingPriority_eq_of_parameter_eq hd, hid, hid']

/-- A sibling with the highest number goes where it belongs. -/
theorem pairwise_before_insertSibling {c : Node} {cs : List Node} (h : cs.Pairwise Before)
    (hnew : ∀ d ∈ cs, d.id < c.id) : (insertSibling c cs).Pairwise Before := by
  induction cs with
  | nil => simp [insertSibling]
  | cons s cs ih =>
    rcases List.pairwise_cons.1 h with ⟨hs, hcs⟩
    rcases List.forall_mem_cons.1 hnew with ⟨hsid, hnew⟩
    rw [insertSibling]
    split
    · rename_i hlower
      refine List.pairwise_cons.2 ⟨?_, h⟩
      refine List.forall_mem_cons.2 ⟨.inl hlower, ?_⟩
      intro d hd
      -- What stands after `s` has no higher priority than `s`.
      refine .inl ?_
      rcases hs d hd with hds | ⟨hds, -⟩
      · exact Int.lt_trans hds hlower
      · rw [hds]
        exact hlower
    · rename_i hnotLower
      refine List.pairwise_cons.2 ⟨?_, ih hcs hnew⟩
      intro d hd
      rcases mem_insertSibling_iff.1 hd with rfl | hd
      · rcases Int.lt_or_eq_of_le (Int.not_lt.1 hnotLower) with hlt | heq
        · exact .inl hlt
        · exact .inr ⟨Priority.ext_level heq, hsid⟩
      · exact hs d hd

/-- The sibling in a slot is replaced where it stands. -/
theorem exists_replaceSibling_eq {p : Parameter} {c : Node} {cs : List Node}
    (h : cs.find? (·.parameter.sameSlot p) = some c) :
    ∃ front back, cs = front ++ c :: back ∧
      ∀ c', replaceSibling p c' cs = front ++ c' :: back := by
  induction cs with
  | nil => cases h
  | cons s cs ih =>
    rw [List.find?_cons] at h
    split at h
    · rename_i hs
      obtain rfl := Option.some.inj h
      exact ⟨[], cs, rfl, fun c' => by simp [replaceSibling, hs]⟩
    · rename_i hs
      rcases ih h with ⟨front, back, rfl, hreplace⟩
      exact ⟨s :: front, back, rfl, fun c' => by simp [replaceSibling, hs, hreplace c']⟩

/-- Whether siblings stand in order all over a tree, and numbers rise from a node to those below. -/
inductive Arranged : Node → Prop where
  | intro {n : Node} : n.children.Pairwise Before → (∀ c ∈ n.children, n.id < c.id) →
      (∀ c ∈ n.children, Arranged c) → Arranged n

namespace Arranged

variable {n c : Node}

theorem pairwise (h : n.Arranged) : n.children.Pairwise Before := by
  cases h
  assumption

theorem id_lt (h : n.Arranged) (hc : c ∈ n.children) : n.id < c.id := by
  cases h with
  | intro _ hids _ => exact hids c hc

theorem child (h : n.Arranged) (hc : c ∈ n.children) : c.Arranged := by
  cases h with
  | intro _ _ hchildren => exact hchildren c hc

theorem leaf (id : Nat) (p : Parameter) : (Node.leaf id p).Arranged :=
  .intro .nil (by simp [Node.leaf]) (by simp [Node.leaf])

end Arranged

/-! ## Growing -/

/-- What growing does to the numbers of nodes. -/
structure Numbers (s s' : Node × Nat) : Prop where
  parameter : s'.1.parameter = s.1.parameter
  id : s'.1.id = s.1.id
  next : s.2 ≤ s'.2
  ids : s'.1.ids.Perm (s.1.ids ++ List.range' s.2 (s'.2 - s.2))
  arranged : s.1.Arranged → (∀ i ∈ s.1.ids, i < s.2) → s'.1.Arranged

namespace Numbers

variable {s s' : Node × Nat}

theorem lt_next (h : Numbers s s') (hlt : ∀ i ∈ s.1.ids, i < s.2) : ∀ i ∈ s'.1.ids, i < s'.2 := by
  intro i hi
  have hnext := h.next
  rcases List.mem_append.1 (h.ids.subset hi) with hold | hnew
  · exact Nat.lt_of_lt_of_le (hlt i hold) hnext
  · rw [List.mem_range'_1] at hnew
    omega

theorem refl (s : Node × Nat) : Numbers s s :=
  ⟨rfl, rfl, Nat.le_refl _, by simp, fun harranged _ => harranged⟩

theorem trans {s'' : Node × Nat} (h : Numbers s s') (h' : Numbers s' s'') : Numbers s s'' := by
  have hnext := h.next
  have hnext' := h'.next
  refine ⟨h'.parameter.trans h.parameter, h'.id.trans h.id, Nat.le_trans hnext hnext', ?_, ?_⟩
  · have hrange : List.range' s.2 (s''.2 - s.2) =
        List.range' s.2 (s'.2 - s.2) ++ List.range' s'.2 (s''.2 - s'.2) := by
      have hlength : s''.2 - s.2 = (s'.2 - s.2) + (s''.2 - s'.2) := by omega
      have hstart : s.2 + (s'.2 - s.2) = s'.2 := by omega
      rw [hlength, ← List.range'_append_1, hstart]
    rw [hrange, ← List.append_assoc]
    exact h'.ids.trans (h.ids.append_right _)
  · intro harranged hlt
    exact h'.arranged (h.arranged harranged hlt) (h.lt_next hlt)

end Numbers

/-- Numbering new nodes in their order is a law of growth. -/
theorem numbers_law : Growth.Law fun _ s s' => Numbers s s' where
  refl := Numbers.refl
  trans := fun h h' => h.trans h'
  replace := by
    intro _ p n c c' next next' _ hchild _ hc
    rcases exists_replaceSibling_eq hchild with ⟨front, back, hchildren, hreplace⟩
    have hmem : c ∈ n.children := List.mem_of_find?_eq_some hchild
    refine ⟨rfl, rfl, hc.next, ?_, ?_⟩
    · have hsiblings : ((replaceSibling p c' n.children).flatMap ids).Perm
          (n.children.flatMap ids ++ List.range' next (next' - next)) := by
        rw [hreplace, hchildren]
        simp only [List.flatMap_append, List.flatMap_cons, List.append_assoc]
        -- The new numbers move past those of the later siblings.
        refine .append_left _ ((hc.ids.append_right _).trans ?_)
        rw [List.append_assoc]
        exact .append_left _ List.perm_append_comm
      rw [ids_eq, ids_eq n]
      exact hsiblings.cons _
    · intro harranged hlt
      have hc' := hc.arranged (harranged.child hmem) fun i hi => hlt i (mem_ids_of_mem hmem hi)
      have hbefore := harranged.pairwise
      rw [hchildren] at hbefore
      have hkept : ∀ d ∈ replaceSibling p c' n.children, d = c' ∨ d ∈ n.children :=
        fun d hd => (mem_or_eq_of_mem_replaceSibling hd).symm
      refine .intro ?_ ?_ ?_
      · rw [hreplace]
        rw [List.pairwise_append, List.pairwise_cons] at hbefore ⊢
        rcases hbefore with ⟨hfront, ⟨hcback, hback⟩, hcross⟩
        have hcongr : ∀ d, (c'.Before d ↔ c.Before d) ∧ (d.Before c' ↔ d.Before c) := by
          intro d
          exact ⟨before_congr hc.parameter hc.id rfl rfl, before_congr rfl rfl hc.parameter hc.id⟩
        refine ⟨hfront, ⟨fun d hd => (hcongr d).1.2 (hcback d hd), hback⟩, ?_⟩
        intro d hd
        refine List.forall_mem_cons.2 ⟨?_, ?_⟩
        · exact (hcongr d).2.2 (hcross d hd c List.mem_cons_self)
        · intro e he
          exact hcross d hd e (List.mem_cons_of_mem _ he)
      · intro d hd
        rcases hkept d hd with rfl | hd
        · rw [hc.id]
          exact harranged.id_lt hmem
        · exact harranged.id_lt hd
      · intro d hd
        rcases hkept d hd with rfl | hd
        · exact hc'
        · exact harranged.child hd
  make := by
    intro _ p n c' next next' _ hchild hc
    have hid : c'.id = next := hc.id
    have hnext : next + 1 ≤ next' := hc.next
    refine ⟨rfl, rfl, by omega, ?_, ?_⟩
    · have hsiblings := (insertSibling_perm c' n.children).flatMap_right ids
      have hrange : List.range' next (next' - next) =
          [next] ++ List.range' (next + 1) (next' - (next + 1)) := by
        have hlength : next' - next = next' - (next + 1) + 1 := by omega
        rw [hlength, List.range'_succ]
        rfl
      have hnew := hc.ids
      rw [ids_leaf] at hnew
      rw [ids_eq, ids_eq n, hrange, List.cons_append]
      refine .cons _ (hsiblings.trans ?_)
      rw [List.flatMap_cons]
      exact (hnew.append_right _).trans List.perm_append_comm
    · intro harranged hlt
      have hleaf : ∀ i ∈ (leaf next p).ids, i < next + 1 := by simp
      refine .intro ?_ ?_ ?_
      · refine pairwise_before_insertSibling harranged.pairwise ?_
        intro d hd
        rw [hid]
        exact hlt _ (mem_ids_of_mem hd d.id_mem_ids)
      · intro d hd
        rcases mem_insertSibling_iff.1 hd with rfl | hd
        · rw [hid]
          exact hlt _ n.id_mem_ids
        · exact harranged.id_lt hd
      · intro d hd
        rcases mem_insertSibling_iff.1 hd with rfl | hd
        · exact hc.arranged (.leaf next p) hleaf
        · exact harranged.child hd

theorem receive_numbers (u : NumberedUsage) (n : Node) (next : Nat) :
    Numbers (n, next) (n.receive u, next) := by
  have hchildren := children_receive u n
  have hid : (n.receive u).id = n.id := by
    unfold receive bind
    split
    · rfl
    · split
      · split <;> rfl
      · rfl
  have hparameter : (n.receive u).parameter = n.parameter := (receive_extends u n).parameter
  refine ⟨hparameter, hid, Nat.le_refl _, ?_, ?_⟩
  · rw [ids_eq, hchildren, hid, ← ids_eq]
    simp
  · rintro harranged -
    refine .intro ?_ ?_ ?_
    · rw [hchildren]
      exact harranged.pairwise
    · intro c hc
      rw [hchildren] at hc
      rw [hid]
      exact harranged.id_lt hc
    · intro c hc
      rw [hchildren] at hc
      exact harranged.child hc

/-! ## Giving permissions -/

theorem Repermitted.id_eq {n n' : Node} (h : n.Repermitted n') : n'.id = n.id := by
  rcases h with ⟨own, delimiter, base, rfl⟩
  rfl

theorem Repermitted.ids_eq {n n' : Node} (h : n.Repermitted n') : n'.ids = n.ids := by
  induction n using Node.induction generalizing n' with
  | step n ih =>
    rcases h with ⟨own, delimiter, base, rfl⟩
    rw [Node.ids_eq, Node.ids_eq n, permitAll_eq_map, List.flatMap_map]
    congr 1
    exact List.flatMap_congr fun c hc => ih c hc (repermitted_permit delimiter base c)

theorem Repermitted.arranged {n n' : Node} (h : n.Repermitted n') (hn : n.Arranged) :
    n'.Arranged := by
  induction hn generalizing n' with
  | @intro n hbefore hids hchildren ih =>
    rcases h with ⟨own, delimiter, base, rfl⟩
    have hpermit := repermitted_permit delimiter base
    refine .intro ?_ ?_ ?_
    · rw [permitAll_eq_map, List.pairwise_map]
      refine hbefore.imp ?_
      intro c d hcd
      exact (before_congr (hpermit c).parameter (hpermit c).id_eq (hpermit d).parameter
        (hpermit d).id_eq).2 hcd
    · intro c' hc'
      rw [permitAll_eq_map] at hc'
      rcases List.mem_map.1 hc' with ⟨c, hc, rfl⟩
      rw [(hpermit c).id_eq]
      exact hids c hc
    · intro c' hc'
      rw [permitAll_eq_map] at hc'
      rcases List.mem_map.1 hc' with ⟨c, hc, rfl⟩
      exact ih c hc (hpermit c)

end Node

/-! ## Grammars -/

namespace Grammar

/-- Whether the nodes of a grammar have the numbers below its size, in the order of their making. -/
structure Numbered (g : Grammar) : Prop where
  root : g.root.id = 0
  ids : g.root.ids.Perm (List.range g.root.size)
  arranged : g.root.Arranged

namespace Numbered

variable {g : Grammar}

theorem lt_size (hg : g.Numbered) : ∀ i ∈ g.root.ids, i < g.root.size := by
  intro i hi
  exact List.mem_range.1 (hg.ids.subset hi)

theorem nodup (hg : g.Numbered) : g.root.ids.Nodup :=
  hg.ids.nodup_iff.2 List.nodup_range

theorem new (root : Parameter) : (Grammar.new root).Numbered where
  root := rfl
  ids := by simp [Grammar.new, Node.size_eq]
  arranged := .leaf 0 root

/-- A usage that is inserted takes the next numbers for what it makes. -/
theorem grow (hg : g.Numbered) {root : Node} {next : Nat}
    (hnumbers : Node.Numbers (g.root, g.root.size) (root, next)) (usages : List Usage) :
    root.size = next ∧ (Grammar.mk root usages).Numbered := by
  have hnext : g.root.size ≤ next := hnumbers.next
  have hids : root.ids.Perm (List.range next) := by
    have hrange : List.range next =
        List.range g.root.size ++ List.range' g.root.size (next - g.root.size) := by
      have hlength : next = g.root.size + (next - g.root.size) := by omega
      rw [List.range_eq_range', List.range_eq_range', hlength, ← List.range'_append_1,
        Nat.zero_add, Nat.add_sub_cancel_left]
    rw [hrange]
    exact hnumbers.ids.trans (hg.ids.append_right _)
  have hsize : root.size = next := by rw [Node.size_eq, hids.length_eq, List.length_range]
  refine ⟨hsize, ?_, ?_, ?_⟩
  · exact hnumbers.id.trans hg.root
  · rw [hsize]
    exact hids
  · exact hnumbers.arranged hg.arranged hg.lt_size

theorem insert (hg : g.Numbered) {g' : Grammar} {u : Usage} {number : Nat}
    (h : g.insert u = .ok (number, g')) : g'.Numbered := by
  rcases insert_cases h with rfl | ⟨hu, -, next, hgrow⟩
  · exact hg
  · have hnumbers := grow_law Node.numbers_law (Node.receive_numbers _) hu hgrow
    exact (hg.grow hnumbers g'.usages).2

theorem assignPermissions (hg : g.Numbered) (delimiter : String) :
    (g.assignPermissions delimiter).Numbered := by
  have hroot := g.repermitted_assignPermissions delimiter
  refine ⟨hroot.id_eq.trans hg.root, ?_, hroot.arranged hg.arranged⟩
  rw [Node.size_eq, hroot.ids_eq, ← Node.size_eq]
  exact hg.ids

end Numbered

/-- **Numbers.** The nodes of every grammar that can be built have the numbers below its size. -/
theorem Reachable.numbered {root : Parameter} {g : Grammar} (h : Reachable root g) :
    g.Numbered := by
  induction h with
  | new => exact .new root
  | insert _ hinsert ih => exact ih.insert hinsert
  | assignPermissions delimiter _ ih => exact ih.assignPermissions delimiter

end Grammar

end CommandLanguage

import CommandLanguage.Proofs.DeclaredUsages
import CommandLanguage.Proofs.Numbering
import CommandLanguage.Tree.Builder

/-!
# Linked cells

What always holds of the cells of a grammar under construction (`Builder.Linked`): they stand at
their numbers, each but the root's is listed once, by the cell above it, which is older, and siblings
stand in their order and in slots of their own. What cells complete or fall back to are usages of the
grammar, no two of which have one form.

It holds after any usages have been inserted, refused ones among them, and any permissions have been
given, and it holds of what is sealed (`Grammar.changeAll_linked`).
-/

namespace CommandLanguage

/-! ## Places -/

namespace Node

/-- A place of a subtree is its root, or lies right below another. -/
theorem eq_or_exists_child_of_mem_placesFrom {n : Node} {above : List Node} {p : Place}
    (h : p ∈ n.placesFrom above) :
    p = ⟨n, above⟩ ∨ ∃ q ∈ n.placesFrom above, p.node ∈ q.node.children ∧ p = q.child p.node := by
  induction n using Node.induction generalizing above with
  | step n ih =>
    rcases mem_placesFrom.1 h with rfl | ⟨c, hc, hp⟩
    · exact .inl rfl
    · refine .inr ?_
      rcases ih c hc hp with rfl | ⟨q, hq, hchild, hplace⟩
      · exact ⟨⟨n, above⟩, mem_placesFrom.2 (.inl rfl), hc, rfl⟩
      · exact ⟨q, mem_placesFrom.2 (.inr ⟨c, hc, hq⟩), hchild, hplace⟩

/-- The numbers of a tree are that of its root, and those that its nodes list as children. -/
theorem ids_perm_children (n : Node) (above : List Node) :
    n.ids.Perm (n.id :: (n.placesFrom above).flatMap fun p => p.node.children.map (·.id)) := by
  induction n using Node.induction generalizing above with
  | step n ih =>
    rcases n with ⟨data, children⟩
    rw [ids_eq, placesFrom, placesBelow_eq_flatMap, List.flatMap_cons]
    refine .cons _ ?_
    dsimp only
    generalize (⟨data, children⟩ : Node) :: above = above' at ih ⊢
    induction children with
    | nil => simp
    | cons c cs ihcs =>
      have hc := ih c List.mem_cons_self above'
      have hcs := ihcs fun d hd => ih d (List.mem_cons_of_mem _ hd)
      simp only [List.flatMap_cons, List.map_cons, List.flatMap_append, List.cons_append]
      refine (hc.append hcs).trans ?_
      rw [List.cons_append]
      refine .cons _ ?_
      rw [← List.append_assoc, ← List.append_assoc]
      exact List.perm_append_comm.append_right _

/-- Parameters lead to every place. -/
theorem exists_leads_of_mem_placesFrom {n : Node} {above : List Node} {p : Place}
    (hp : p ∈ n.placesFrom above) : ∃ ps, n.Leads ps p.node := by
  induction n using Node.induction generalizing above with
  | step n ih =>
    rcases mem_placesFrom.1 hp with rfl | ⟨c, hc, hp⟩
    · exact ⟨[], .here⟩
    · rcases ih c hc hp with ⟨ps, hleads⟩
      exact ⟨c.parameter :: ps, .down hc c.standsFor_parameter hleads⟩

end Node

/-! ## Cells of a numbered grammar -/

namespace Grammar.Numbered

variable {g : Grammar}

/-- The nodes of a tree are stored in the order of their numbers. -/
theorem map_id_numbered (hg : g.Numbered) :
    g.root.numbered.map (·.node.id) = List.range g.root.size := by
  have hperm : (g.root.numbered.map (·.node.id)).Perm (List.range g.root.size) :=
    ((List.mergeSort_perm _ _).map _).trans hg.ids
  have hsorted : (g.root.numbered.map (·.node.id)).Pairwise (· ≤ ·) := by
    rw [List.pairwise_map]
    refine (List.pairwise_mergeSort ?_ ?_ _).imp ?_
    · intro p q r hpq hqr
      simp only [decide_eq_true_eq] at hpq hqr ⊢
      exact Nat.le_trans hpq hqr
    · intro p q
      simp only [Bool.or_eq_true, decide_eq_true_eq]
      exact Nat.le_total _ _
    · intro p q hpq
      simpa using hpq
  exact hperm.eq_of_pairwise (fun _ _ _ _ => Nat.le_antisymm) hsorted List.pairwise_le_range

theorem length_arena (hg : g.Numbered) : g.root.arena.length = g.root.size := by
  have hlength := congrArg List.length hg.map_id_numbered
  simpa [Node.arena] using hlength

theorem getElem?_numbered_iff (hg : g.Numbered) {i : Nat} {p : Place} :
    g.root.numbered[i]? = some p ↔ p ∈ g.root.places ∧ p.node.id = i := by
  have hid : ∀ {k : Nat} {q : Place}, g.root.numbered[k]? = some q → q.node.id = k := by
    intro k q hq
    have hmap : (g.root.numbered.map (·.node.id))[k]? = some q.node.id := by
      rw [List.getElem?_map, hq]
      rfl
    rw [hg.map_id_numbered] at hmap
    rcases List.getElem?_eq_some_iff.1 hmap with ⟨hlt, heq⟩
    simpa using heq.symm
  constructor
  · intro hp
    exact ⟨List.mem_mergeSort.1 (List.mem_of_getElem? hp), hid hp⟩
  · rintro ⟨hp, rfl⟩
    rcases List.getElem?_of_mem (List.mem_mergeSort.2 hp) with ⟨k, hk⟩
    rw [hid hk]
    exact hk

/-- **Cells.** At a number is the cell of the place whose node has it. -/
theorem getElem?_arena_iff (hg : g.Numbered) {i : Nat} {c : Cell} :
    g.root.arena[i]? = some c ↔ ∃ p ∈ g.root.places, p.node.id = i ∧ p.cell = c := by
  rw [Node.arena, List.getElem?_map, Option.map_eq_some_iff]
  simp only [hg.getElem?_numbered_iff, and_assoc]

/-- An arena is told by its length and its cells at the numbers of places. -/
theorem eq_map_numbered (hg : g.Numbered) {a : Arena} {f : Place → Cell}
    (hlength : a.length = g.root.size) (hcells : ∀ p ∈ g.root.places, a[p.node.id]? = some (f p)) :
    a = g.root.numbered.map f := by
  apply List.ext_getElem?
  intro i
  rw [List.getElem?_map]
  cases hi : g.root.numbered[i]? with
  | some p =>
    rcases hg.getElem?_numbered_iff.1 hi with ⟨hp, rfl⟩
    exact hcells p hp
  | none =>
    have hle := List.getElem?_eq_none_iff.1 hi
    rw [← List.length_map Place.cell, ← Node.arena, hg.length_arena, ← hlength] at hle
    exact List.getElem?_eq_none hle

theorem getElem?_arena_of_mem (hg : g.Numbered) {p : Place} (hp : p ∈ g.root.places) :
    g.root.arena[p.node.id]? = some p.cell :=
  hg.getElem?_arena_iff.2 ⟨p, hp, rfl, rfl⟩

theorem mem_arena_iff (hg : g.Numbered) {c : Cell} :
    c ∈ g.root.arena ↔ ∃ p ∈ g.root.places, p.cell = c := by
  rw [List.mem_iff_getElem?]
  constructor
  · rintro ⟨i, hi⟩
    rcases hg.getElem?_arena_iff.1 hi with ⟨p, hp, -, rfl⟩
    exact ⟨p, hp, rfl⟩
  · rintro ⟨p, hp, rfl⟩
    exact ⟨_, hg.getElem?_arena_of_mem hp⟩

end Grammar.Numbered

/-! ## Usages -/

namespace Grammar

/-- What becomes of a grammar into which a usage is inserted, and the number that is given back: if
there is one of the same form nothing and its number, else the usage comes last. -/
theorem insert_number_cases {g g' : Grammar} {u : Usage} {number : Nat}
    (h : g.insert u = .ok (number, g')) :
    g.usages.findIdx? (·.sameForm u) = some number ∧ g' = g ∨
      g.usages.findIdx? (·.sameForm u) = none ∧ number = g.usages.length ∧
        g'.usages = g.usages ++ [u] := by
  obtain ⟨-, hknown | ⟨hfind, hnumber, husages, -⟩⟩ := insert_eq_ok_iff.1 h
  · exact .inl hknown
  · exact .inr ⟨hfind, hnumber, husages⟩

/-- The usages of a grammar that can be built have forms of their own. -/
theorem Reachable.pairwise_usages {root : Parameter} {g : Grammar} (h : Reachable root g) :
    g.usages.Pairwise fun u v => u.sameForm v = false := by
  induction h with
  | new => exact .nil
  | insert _ hinsert ih =>
    rcases insert_number_cases hinsert with ⟨-, rfl⟩ | ⟨hfind, -, husages⟩
    · exact ih
    · rw [husages, List.pairwise_append]
      refine ⟨ih, List.pairwise_singleton _ _, ?_⟩
      intro v hv w hw
      obtain rfl := List.mem_singleton.1 hw
      exact List.findIdx?_eq_none_iff.1 hfind v hv
  | assignPermissions _ _ ih => exact ih

end Grammar

/-! ## Linked cells -/

namespace Builder

/-- Whether two siblings stand in their order and in slots of their own: the higher priority comes
first, and of two equal ones the older cell. -/
structure InOrder (c d : Cell) : Prop where
  before : d.siblingPriority < c.siblingPriority ∨
    d.siblingPriority = c.siblingPriority ∧ c.id < d.id
  apart : c.parameter.sameSlot d.parameter = false

/-- Whether the cells of a builder refer to one another and to its usages as they should. -/
structure Linked (b : Builder) : Prop where
  /-- Cells stand at their numbers. -/
  ids : b.arena.map (·.id) = List.range b.arena.length
  /-- The first cell is the root, above which there is nothing. -/
  root : ∃ c, b.arena[0]? = some c ∧ c.parent = none ∧ c.depth = -1
  /-- Every other cell is right below an older one, which lists it. -/
  parent : ∀ c ∈ b.arena, c.id ≠ 0 → ∃ above ∈ b.arena, c.parent = some above.id ∧
    above.id < c.id ∧ c.depth = above.depth + 1 ∧ c.id ∈ above.children
  /-- Every other cell is listed once in all. -/
  once : ∀ c ∈ b.arena, c.id ≠ 0 → (b.arena.flatMap (·.children)).count c.id = 1
  /-- What a cell lists is right below it. -/
  listed : ∀ c ∈ b.arena, ∀ i ∈ c.children, ∃ d ∈ b.arena, d.id = i ∧ d.parent = some c.id
  siblings : ∀ c ∈ b.arena, c.children.Pairwise fun i j =>
    ∃ d e, b.arena[i]? = some d ∧ b.arena[j]? = some e ∧ InOrder d e
  held : ∀ c ∈ b.arena, ∀ u, c.terminal = some u ∨ c.fallback = some u →
    b.usages[u.number]? = some u.usage
  usages : b.usages.Pairwise fun u v => u.sameForm v = false

/-- Whether nothing follows the greedy cells of a builder. -/
def GreedyLast (b : Builder) : Prop :=
  ∀ c ∈ b.arena, c.parameter.greedy = true → c.children = []

end Builder

namespace Grammar.Reachable

variable {root : Parameter} {g : Grammar}

/-- A place other than the root lies right below another, whose number is lower. -/
theorem exists_parent (hg : Reachable root g) {p : Place} (hp : p ∈ g.root.places)
    (hne : p.node.id ≠ 0) :
    ∃ q ∈ g.root.places, p.node ∈ q.node.children ∧ q.node.id < p.node.id ∧
      p = q.child p.node := by
  rcases Node.eq_or_exists_child_of_mem_placesFrom hp with rfl | ⟨q, hq, hchild, hplace⟩
  · exact absurd hg.numbered.root hne
  · have harranged := Node.of_mem_placesFrom Node.Arranged.child hg.numbered.arranged hq
    exact ⟨q, hq, hchild, harranged.id_lt hchild, hplace⟩

/-- The cells list every cell but the root once. -/
theorem count_listed (hg : Reachable root g) {p : Place} (hp : p ∈ g.root.places)
    (hne : p.node.id ≠ 0) : (g.builder.arena.flatMap (·.children)).count p.node.id = 1 := by
  have hlists : (g.builder.arena.flatMap (·.children)).Perm
      (g.root.places.flatMap fun p => p.node.children.map (·.id)) := by
    simp only [builder, Node.arena, List.flatMap_map]
    exact (List.mergeSort_perm _ _).flatMap_right _
  have hcount := (g.root.ids_perm_children []).count_eq p.node.id
  rw [List.count_eq_one_of_mem hg.numbered.nodup (List.mem_map_of_mem hp),
    List.count_cons_of_ne] at hcount
  · rw [hlists.count_eq]
    exact hcount.symm
  · rw [hg.numbered.root]
    exact Ne.symm hne

/-- The cells of siblings stand in their order. -/
theorem inOrder_children (hg : Reachable root g) {p : Place} (hp : p ∈ g.root.places) :
    (p.node.children.map (·.id)).Pairwise fun i j => ∃ d e,
      g.builder.arena[i]? = some d ∧ g.builder.arena[j]? = some e ∧ Builder.InOrder d e := by
  have hbefore := (Node.of_mem_placesFrom Node.Arranged.child hg.numbered.arranged hp).pairwise
  have hslots := List.pairwise_map.1
    (Node.of_mem_placesFrom Node.Apart.child hg.outlined.apart hp).nodup
  have hcell : ∀ n ∈ p.node.children, g.builder.arena[n.id]? = some (p.child n).cell :=
    fun n hn => hg.numbered.getElem?_arena_of_mem (Node.child_mem_placesFrom hp hn)
  refine List.pairwise_map.2 ((hbefore.and hslots).imp_of_mem ?_)
  rintro n m hn hm ⟨hbefore, hslot⟩
  refine ⟨_, _, hcell n hn, hcell m hm, hbefore, ?_⟩
  rw [Bool.eq_false_iff]
  intro hsame
  exact hslot (Parameter.sameSlot_iff_slot_eq.1 hsame)

/-- **Linked cells.** The cells of every grammar that can be built are linked. -/
theorem linked (hg : Reachable root g) : g.builder.Linked where
  ids := by
    have hids : g.builder.arena.map (·.id) = g.root.numbered.map (·.node.id) := by
      simp [builder, Node.arena, Place.cell, Function.comp_def]
    rw [hids, hg.numbered.map_id_numbered]
    exact congrArg List.range hg.numbered.length_arena.symm
  root := by
    have hcell := hg.numbered.getElem?_arena_of_mem (Node.root_mem_places g.root)
    rw [show (Place.root g.root).node.id = 0 from hg.numbered.root] at hcell
    exact ⟨_, hcell, rfl, rfl⟩
  parent := by
    intro c hc hne
    rcases hg.numbered.mem_arena_iff.1 hc with ⟨p, hp, rfl⟩
    rcases hg.exists_parent hp hne with ⟨q, hq, hchild, hlt, hplace⟩
    refine ⟨q.cell, hg.numbered.mem_arena_iff.2 ⟨q, hq, rfl⟩, ?_, hlt, ?_, List.mem_map_of_mem hchild⟩
    · rw [hplace]
      rfl
    · rw [hplace]
      simp [Place.cell, Place.depth, Place.child]
  once := by
    intro c hc hne
    rcases hg.numbered.mem_arena_iff.1 hc with ⟨p, hp, rfl⟩
    exact hg.count_listed hp hne
  listed := by
    intro c hc i hi
    rcases hg.numbered.mem_arena_iff.1 hc with ⟨p, hp, rfl⟩
    rcases List.mem_map.1 hi with ⟨n, hn, rfl⟩
    exact ⟨(p.child n).cell,
      hg.numbered.mem_arena_iff.2 ⟨_, Node.child_mem_placesFrom hp hn, rfl⟩, rfl, rfl⟩
  siblings := by
    intro c hc
    rcases hg.numbered.mem_arena_iff.1 hc with ⟨p, hp, rfl⟩
    exact hg.inOrder_children hp
  held := by
    intro c hc u hu
    rcases hg.numbered.mem_arena_iff.1 hc with ⟨p, hp, rfl⟩
    have hsettled := hg.outlined.settled (hg.outlined.apart.view_of_mem hp)
    have hlisted : ∀ role, p.node.entry.held? role = some u → g.usages[u.number]? = some u.usage :=
      fun role hheld => (hsettled.held hheld).1.listed
    rcases hu with hu | hu
    · exact hlisted .terminal hu
    · exact hlisted .fallback hu
  usages := hg.pairwise_usages

/-- Whether nothing follows the greedy cells of a grammar, said of its places. -/
theorem greedyLast_iff (hg : Reachable root g) : g.builder.GreedyLast ↔
    ∀ p ∈ g.root.places, p.node.isGreedy = true → p.node.isLeaf = true := by
  constructor
  · intro h p hp hgreedy
    have hchildren := h p.cell (hg.numbered.mem_arena_iff.2 ⟨p, hp, rfl⟩) hgreedy
    rw [Node.isLeaf, List.isEmpty_iff]
    exact List.map_eq_nil_iff.1 hchildren
  · intro h c hc hgreedy
    rcases hg.numbered.mem_arena_iff.1 hc with ⟨p, hp, rfl⟩
    have hleaf := h p hp hgreedy
    rw [Node.isLeaf, List.isEmpty_iff] at hleaf
    simp [Place.cell, hleaf]

end Grammar.Reachable

/-! ## Changes -/

/-- What can be asked of a grammar under construction. -/
inductive Change where
  | insert (u : Usage)
  | assignPermissions (delimiter : String)

namespace Grammar

/-- A grammar after a change. A usage that is refused changes nothing. -/
def change (g : Grammar) : Change → Grammar
  | .insert u =>
    match g.insert u with
    | .ok (_, g') => g'
    | .error _ => g
  | .assignPermissions delimiter => g.assignPermissions delimiter

/-- A grammar after changes in turn. -/
def changeAll (g : Grammar) (changes : List Change) : Grammar :=
  changes.foldl change g

theorem Reachable.change {root : Parameter} {g : Grammar} (hg : Reachable root g) (c : Change) :
    Reachable root (g.change c) := by
  cases c with
  | insert u =>
    unfold Grammar.change
    dsimp only
    split
    · rename_i hinsert
      exact hg.insert hinsert
    · exact hg
  | assignPermissions delimiter => exact hg.assignPermissions delimiter

theorem Reachable.changeAll {root : Parameter} {g : Grammar} (hg : Reachable root g)
    (changes : List Change) : Reachable root (g.changeAll changes) := by
  induction changes generalizing g with
  | nil => exact hg
  | cons c changes ih => exact ih (hg.change c)

/-- **Linked cells, after any changes.** Whatever is asked of a new grammar, its cells are linked, and
so are those of what it is sealed to, whose greedy cells nothing follows. If the usages of the
grammar are declared ones, nothing follows its greedy cells either, unless the root is greedy and a
default usage with a parameter has been inserted. -/
theorem changeAll_linked (root : Parameter) (changes : List Change) :
    let g := (new root).changeAll changes
    g.builder.Linked ∧
      ((∀ u ∈ g.usages, u.Declared) → (g.builder.GreedyLast ↔
        (root.greedy = true → ∀ u ∈ g.usages, u.isDefault = true → u.parameters = []))) ∧
      ∀ settings t, g.seal settings = .ok t →
        (Grammar.mk t.root t.usages).builder.Linked ∧
          (Grammar.mk t.root t.usages).builder.GreedyLast := by
  intro g
  have hg : Reachable root g := Reachable.new.changeAll changes
  refine ⟨hg.linked, ?_, ?_⟩
  · intro hdeclared
    rw [hg.greedyLast_iff]
    exact hg.greedy_leaves_iff hdeclared
  · intro settings t hseal
    rcases hg.of_seal hseal with ⟨hsealed, -, -, hends⟩
    refine ⟨hsealed.linked, hsealed.greedyLast_iff.2 ?_⟩
    intro p hp hgreedy
    rcases Node.exists_leads_of_mem_placesFrom hp with ⟨ps, hleads⟩
    exact hends ps p.node hleads hgreedy

/-- A usage, one that is refused half way, and permissions. -/
theorem changeAll_linked_ban :
    let who := Parameter.required "who" .string
    let why := { Parameter.optional "why" .string with greedy := true }
    let u : Usage := ⟨"ban", [who, why], none, none, false⟩
    let refused : Usage :=
      ⟨"warn", [.optional "times" .int, who, { why with greedy := false }], none, none, false⟩
    let g := (new (.literal "ban" [])).changeAll [.insert u, .insert refused, .assignPermissions "."]
    g.usages = [u] ∧ u.Declared ∧ g.builder.Linked ∧ g.builder.GreedyLast ∧
      ∃ t, g.seal .default = .ok t ∧ (Grammar.mk t.root t.usages).builder.Linked ∧
        (Grammar.mk t.root t.usages).builder.GreedyLast := by
  intro who why u refused g
  have husages : g.usages = [u] := by decide
  have hdeclared : u.Declared :=
    ⟨⟨"ban", none, none, false,
      [⟨"who", .required, none, false, none, none, none, [], [], false⟩,
        ⟨"why", .optional, none, true, none, none, none, [], [], false⟩]⟩, "ban", rfl⟩
  rcases changeAll_linked (.literal "ban" []) [.insert u, .insert refused, .assignPermissions "."]
    with ⟨hlinked, hgreedy, hsealed⟩
  have hfault : g.fault? = none := by decide
  have hseal : ∃ t, g.seal .default = .ok t := by
    unfold Grammar.seal
    rw [hfault]
    exact ⟨_, rfl⟩
  rcases hseal with ⟨t, ht⟩
  refine ⟨husages, hdeclared, hlinked, (hgreedy ?_).2 (fun hroot => by cases hroot), t, ht, ?_⟩
  · intro v hv
    rw [show _ = [u] from husages, List.mem_singleton] at hv
    rw [hv]
    exact hdeclared
  · exact hsealed .default t ht

/-- Under a greedy root a declared default usage makes a path. -/
theorem changeAll_not_greedyLast :
    ∃ (root : Parameter) (u : Usage), root.greedy = true ∧ u.Declared ∧
      ((new root).changeAll [.insert u]).usages = [u] ∧
      ¬ ((new root).changeAll [.insert u]).builder.GreedyLast := by
  refine ⟨{ Parameter.literal "cmd" [] with greedy := true },
    ⟨"h", [.literal "a" []], none, none, true⟩, rfl, ?_, rfl, ?_⟩
  · exact ⟨⟨"h", none, none, true,
      [⟨"a", .literal, none, false, none, none, none, [], [], false⟩]⟩, "cmd", rfl⟩
  · intro h
    have hnew : Reachable { Parameter.literal "cmd" [] with greedy := true } _ := .new
    have hg := hnew.changeAll [.insert ⟨"h", [.literal "a" []], none, none, true⟩]
    have hleaf := hg.greedyLast_iff.1 h _ (Node.root_mem_places _) rfl
    cases hleaf

end Grammar

end CommandLanguage

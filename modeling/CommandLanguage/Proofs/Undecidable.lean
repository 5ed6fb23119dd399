import CommandLanguage.Proofs.Place
import CommandLanguage.Proofs.Reachable
import Mathlib.Data.List.Perm.Basic

/-!
# Undecidable grammars

A node is *undecidable* when it is greedy and has children (`Node.Swallows`), or when its arguments
are all required or all optional and two of them share a value type or a priority
(`Node.Indistinct`). A grammar is sealed just if no node of its tree is undecidable, and else it is
refused for the first one on a walk that goes down before it goes on, from the last sibling to the
first (`Grammar.seal_refuses_undecidable`). The loop over a stack makes that walk
(`Node.inspect_eq_findSome?`), and so does the recursion over the tree
(`Node.firstFault?_eq_findSome?`).
-/

namespace CommandLanguage

namespace Node

/-! ## Values that occur twice -/

section Distinct

variable {α : Type} [DecidableEq α]

theorem repeats_iff {xs : List α} : repeats xs = true ↔ ¬xs.Nodup := by
  induction xs with
  | nil => simp [repeats]
  | cons x xs ih =>
    rw [repeats, Bool.or_eq_true, ih, List.contains_iff_mem, List.nodup_cons, not_and_or, not_not]

theorem countDistinct_le_length (xs : List α) : countDistinct xs ≤ xs.length := by
  induction xs with
  | nil => exact Nat.le_refl _
  | cons x xs ih =>
    rw [countDistinct, List.length_cons]
    split <;> omega

/-- There are fewer different values than values if one occurs twice. -/
theorem countDistinct_lt_length_iff {xs : List α} :
    countDistinct xs < xs.length ↔ repeats xs = true := by
  induction xs with
  | nil => simp [countDistinct, repeats]
  | cons x xs ih =>
    have hle := countDistinct_le_length xs
    rw [countDistinct, repeats, List.length_cons]
    by_cases hx : xs.contains x = true
    · rw [if_pos hx, hx, Bool.true_or]
      exact iff_of_true (by omega) rfl
    · rw [if_neg hx, Bool.eq_false_iff.2 hx, Bool.false_or, ← ih]
      omega

/-- Two nodes share a value of `f` if one occurs twice. -/
theorem repeats_map_iff {f : Node → α} {ns : List Node} :
    repeats (ns.map f) = true ↔ ∃ c d, [c, d].Sublist ns ∧ f c = f d := by
  rw [repeats_iff, List.Nodup, List.pairwise_map, List.pairwise_iff_forall_sublist]
  simp only [not_forall, ne_eq, not_not, exists_prop]

end Distinct

/-! ## Undecidable nodes -/

/-- Whether a node takes every word left although nodes follow it. -/
def Swallows (n : Node) : Prop :=
  n.isGreedy = true ∧ n.children ≠ []

/-- Whether the arguments of a node cannot be told apart: they are all optional or all required, and
two of them share a value type or a priority. -/
structure Indistinct (n : Node) : Prop where
  oneNature : (∀ a ∈ n.arguments, a.isOptional = true) ∨ ∀ a ∈ n.arguments, a.isOptional = false
  alike : ∃ c d, [c, d].Sublist n.arguments ∧
    (c.parameter.valueType = d.parameter.valueType ∨ c.parameter.priority = d.parameter.priority)

/-- Whether no word decides what follows a node. -/
def Undecidable (n : Node) : Prop :=
  n.Swallows ∨ n.Indistinct

theorem swallows_iff {n : Node} : (n.isGreedy && !n.isLeaf) = true ↔ n.Swallows := by
  simp [Swallows, isLeaf]

theorem ofOneNature_iff {ns : List Node} :
    ofOneNature ns = true ↔
      (∀ a ∈ ns, a.isOptional = true) ∨ ∀ a ∈ ns, a.isOptional = false := by
  simp [ofOneNature]

theorem hasIndistinctArguments_iff {n : Node} :
    n.hasIndistinctArguments = true ↔ n.Indistinct := by
  unfold hasIndistinctArguments
  simp only [Bool.and_eq_true, Bool.or_eq_true, decide_eq_true_eq, ofOneNature_iff,
    repeats_map_iff]
  constructor
  · rintro ⟨⟨-, hnature⟩, ⟨c, d, hsub, htype⟩ | ⟨c, d, hsub, hpriority⟩⟩
    · exact ⟨hnature, c, d, hsub, .inl htype⟩
    · exact ⟨hnature, c, d, hsub, .inr hpriority⟩
  · rintro ⟨hnature, c, d, hsub, hshared⟩
    refine ⟨⟨hsub.length_le, hnature⟩, ?_⟩
    exact hshared.imp (fun htype => ⟨c, d, hsub, htype⟩) fun hpriority => ⟨c, d, hsub, hpriority⟩

/-- A node is faulty just if it is undecidable: for swallowing what follows it, else for its
arguments. -/
theorem fault?_eq_some_iff {command : String} {n : Node} {e : GrammarError} :
    n.fault? command = some e ↔
      n.Swallows ∧ e = .greedyNotLast command n.name ∨
        ¬n.Swallows ∧ n.Indistinct ∧
          e = .ambiguous command n.parameter.format (n.arguments.map (·.parameter.format)) := by
  unfold fault?
  split
  · rename_i hgreedy
    simp [swallows_iff.1 hgreedy, eq_comm]
  · rename_i hgreedy
    rw [swallows_iff] at hgreedy
    split
    · rename_i harguments
      simp [hgreedy, hasIndistinctArguments_iff.1 harguments, eq_comm]
    · rename_i harguments
      rw [hasIndistinctArguments_iff] at harguments
      simp [hgreedy, harguments]

theorem fault?_eq_none_iff {command : String} {n : Node} :
    n.fault? command = none ↔ ¬n.Undecidable := by
  simp only [Option.eq_none_iff_forall_ne_some, Ne, fault?_eq_some_iff, Undecidable]
  constructor
  · intro h hundecidable
    by_cases hswallows : n.Swallows
    · exact h _ (.inl ⟨hswallows, rfl⟩)
    · exact h _ (.inr ⟨hswallows, hundecidable.resolve_left hswallows, rfl⟩)
  · rintro hnot e (⟨hswallows, -⟩ | ⟨-, hindistinct, -⟩)
    · exact hnot (.inl hswallows)
    · exact hnot (.inr hindistinct)

/-! ## The nodes in the order of the check -/

/-- The nodes of a tree, each before those below it, and of two siblings the later one with what is
below it first. -/
def visited : Node → List Node
  | node@⟨_, children⟩ => node :: visitedBelow children
where
  visitedBelow : List Node → List Node
    | [] => []
    | c :: cs => visitedBelow cs ++ c.visited

theorem visitedBelow_eq_flatMap (cs : List Node) :
    visited.visitedBelow cs = cs.reverse.flatMap visited := by
  induction cs with
  | nil => rfl
  | cons c cs ih =>
    rw [visited.visitedBelow, ih, List.reverse_cons, List.flatMap_append, List.flatMap_singleton]

theorem visited_eq (n : Node) : n.visited = n :: n.children.reverse.flatMap visited := by
  rcases n with ⟨data, children⟩
  rw [visited, visitedBelow_eq_flatMap]

/-- The check comes by every node of a tree, and by none of them twice. -/
theorem visited_perm_places (n : Node) : n.visited.Perm (n.places.map (·.node)) := by
  unfold places
  -- What is above plays no part in which nodes there are.
  generalize ([] : List Node) = above
  induction n using Node.induction generalizing above with
  | step n ih =>
    rcases n with ⟨data, children⟩
    rw [visited_eq, placesFrom, placesBelow_eq_flatMap, List.map_cons, List.map_flatMap]
    exact ((List.reverse_perm children).flatMap fun c hc => ih c (List.mem_reverse.1 hc) _).cons _

theorem forall_mem_visited_iff {n : Node} {P : Node → Prop} :
    (∀ m ∈ n.visited, P m) ↔ ∀ p ∈ n.places, P p.node := by
  simp [n.visited_perm_places.mem_iff]

/-- The recursion over a tree finds the first fault in the order of the check. -/
theorem firstFault?_eq_findSome? (command : String) (n : Node) :
    n.firstFault? command = n.visited.findSome? (fault? command) := by
  induction n using Node.induction with
  | step n ih =>
    rcases n with ⟨data, children⟩
    have hbelow : ∀ cs : List Node,
        (∀ c ∈ cs, c.firstFault? command = c.visited.findSome? (fault? command)) →
          firstFault?.faultBelow? command cs =
            (visited.visitedBelow cs).findSome? (fault? command) := by
      intro cs hcs
      induction cs with
      | nil => rfl
      | cons c cs ihcs =>
        rcases List.forall_mem_cons.1 hcs with ⟨hc, hcs⟩
        rw [firstFault?.faultBelow?, visited.visitedBelow, List.findSome?_append, ihcs hcs, hc,
          Option.orElse_eq_orElse, Option.orElse_eq_or]
    rw [firstFault?, visited, hbelow children ih, List.findSome?_cons]
    cases fault? command ⟨data, children⟩ <;> rfl

/-! ## The loop -/

/-- Nodes are of one nature if none of them differs from the first. -/
theorem ofOneNature_cons (n : Node) (ns : List Node) :
    ofOneNature (n :: ns) = !(n :: ns).any (·.isOptional != n.isOptional) := by
  rw [Bool.eq_iff_iff]
  cases hoptional : n.isOptional <;> simp [ofOneNature, hoptional]

/-- The loop finds the same fault with the arguments of a node. -/
theorem indistinctArguments?_eq (command : String) (n : Node) :
    n.indistinctArguments? command =
      if n.hasIndistinctArguments then
        some (.ambiguous command n.parameter.format (n.arguments.map (·.parameter.format)))
      else none := by
  unfold indistinctArguments? hasIndistinctArguments
  generalize n.arguments = arguments
  have hcount : ∀ {α : Type} [DecidableEq α] (f : Node → α),
      countDistinct (arguments.map f) < arguments.length ↔ repeats (arguments.map f) = true := by
    intro α _ f
    rw [← countDistinct_lt_length_iff, List.length_map]
  match arguments with
  | [] | [_] => rfl
  | first :: second :: rest =>
    simp only [hcount, ofOneNature_cons]
    cases (first :: second :: rest).any (·.isOptional != first.isOptional) <;> simp

theorem fault?_eq (command : String) (n : Node) :
    n.fault? command =
      if n.isGreedy && !n.isLeaf then some (.greedyNotLast command n.name)
      else n.indistinctArguments? command := by
  rw [indistinctArguments?_eq, fault?]

/-- One step of the walk over the trees of a stack: it looks at the latest node, and its children come
next, the last of them first. -/
theorem findSome?_visited_cons (f : Node → Option GrammarError) (n : Node) (stack : List Node) :
    ((n :: stack).flatMap visited).findSome? f =
      (f n).or (((n.children.reverse ++ stack).flatMap visited).findSome? f) := by
  rw [List.flatMap_cons, visited_eq, List.cons_append, List.findSome?_cons, List.flatMap_append]
  cases f n <;> rfl

/-- **The loop.** A loop over a stack finds the first fault of its trees in the order of the
check. -/
theorem inspect_eq_findSome? (command : String) (stack : List Node) :
    inspect command stack = (stack.flatMap visited).findSome? (fault? command) := by
  fun_induction inspect command stack with
  | case1 => rfl
  | case2 n stack hgreedy =>
    rw [findSome?_visited_cons, fault?_eq, if_pos hgreedy, Option.some_or]
  | case3 n stack hgreedy e he =>
    rw [findSome?_visited_cons, fault?_eq, if_neg hgreedy, he, Option.some_or]
  | case4 n stack hgreedy hnone ih =>
    rw [List.unattach_reverse, List.unattach_attach] at ih
    rw [findSome?_visited_cons, fault?_eq, if_neg hgreedy, hnone, Option.none_or, ih]

end Node

/-! ## Grammars -/

namespace Grammar

/-- The loop finds what the recursion over the tree finds. -/
theorem inspect_eq_fault? (g : Grammar) : g.inspect = g.fault? := by
  rw [inspect, fault?, Node.inspect_eq_findSome?, Node.firstFault?_eq_findSome?,
    List.flatMap_singleton]

/-- **Undecidable grammars.** A grammar is sealed just if no node of its tree, the root included, is
undecidable. Else it is refused for the first node that is, where a node comes before those below it
and of two siblings the later one comes first: for being greedy though nodes follow it, else for its
arguments, which the error lists in sibling order. -/
theorem seal_refuses_undecidable (g : Grammar) (settings : TreeSettings) :
    ((∃ t, g.seal settings = .ok t) ↔ ∀ p ∈ g.root.places, ¬p.node.Undecidable) ∧
      ∀ e, g.seal settings = .error e ↔
        ∃ before n after, g.root.visited = before ++ n :: after ∧
          (∀ m ∈ before, ¬m.Undecidable) ∧
          (n.Swallows ∧ e = .greedyNotLast g.command n.name ∨
            ¬n.Swallows ∧ n.Indistinct ∧
              e = .ambiguous g.command n.parameter.format
                (n.arguments.map (·.parameter.format))) := by
  have hinspect : g.inspect = g.root.visited.findSome? (Node.fault? g.command) := by
    rw [inspect, Node.inspect_eq_findSome?, List.flatMap_singleton]
  constructor
  · simp only [seal_eq_ok_iff, exists_and_left, exists_eq, and_true]
    rw [← inspect_eq_fault?, hinspect, List.findSome?_eq_none_iff]
    simp only [Node.fault?_eq_none_iff]
    exact Node.forall_mem_visited_iff
  · intro e
    rw [seal_eq_error_iff, ← inspect_eq_fault?, hinspect, List.findSome?_eq_some_iff]
    simp only [Node.fault?_eq_none_iff, Node.fault?_eq_some_iff]
    constructor
    · rintro ⟨before, n, after, heq, hn, hbefore⟩
      exact ⟨before, n, after, heq, hbefore, hn⟩
    · rintro ⟨before, n, after, heq, hbefore, hn⟩
      exact ⟨before, n, after, heq, hn, hbefore⟩

end Grammar

end CommandLanguage

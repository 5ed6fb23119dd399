import CommandLanguage.Proofs.DerivedPermissions

/-!
# The order of natures

Among siblings a literal is to stand before arguments and flags, and of arguments and flags that
declare one priority the required arguments are to come first and the optional ones last
(`Parameter.GoesAhead`, `Arena.InNatureOrder`).

What siblings are put by is a key: the declared priority raised by a few levels, as far as the range
goes, while the key of a literal is the end of the range. In every arena that builders and calls for
children lead to (`Arena.Built`) the higher key comes first, and of two equal ones the older cell:
adding a child keeps this (`Arena.Ordered.addChild`), so it holds in the end (`Arena.Built.ordered`).
Keys tell natures apart where the declared priority of what is to come later leaves room below the end
of the range. Elsewhere age alone decides (`Arena.natureOrder_law`).
-/

namespace CommandLanguage

/-! ## Natures -/

namespace Parameter

/-- The place of a parameter's nature among all: literals, required arguments, flags, and optional
arguments. -/
def natureRank (p : Parameter) : Nat :=
  match p.kind with
  | .literal _ _ => 0
  | .argument _ false => 1
  | .flag _ _ => 2
  | .argument _ true => 3

/-- Whether a parameter is to stand before another by their natures: a literal before what is none, and
others if they declare one priority. -/
def GoesAhead (p q : Parameter) : Prop :=
  p.natureRank < q.natureRank ∧ (p.isLiteral = true ∨ p.priority = q.priority)

/-- How many levels an argument or flag is raised above its declared priority. -/
def raise (p : Parameter) : Int :=
  match p.kind with
  | .literal _ _ => 0
  | .argument _ false => 5
  | .flag _ _ => 4
  | .argument _ true => 3

/-- Whether an argument or flag stays below the highest priority when it is raised. -/
def HasRoom (p : Parameter) : Prop :=
  p.priority.level + p.raise < 2147483647

instance (p q : Parameter) : Decidable (p.GoesAhead q) :=
  inferInstanceAs (Decidable (_ ∧ _))

instance (p : Parameter) : Decidable p.HasRoom :=
  inferInstanceAs (Decidable (_ < _))

/-- A literal comes first of all natures. -/
theorem natureRank_eq_zero_iff {p : Parameter} : p.natureRank = 0 ↔ p.isLiteral = true := by
  unfold natureRank isLiteral
  split <;> simp_all

/-- The later the nature of an argument or flag, the fewer levels it is raised. -/
theorem raise_eq {p : Parameter} (h : p.isLiteral = false) : p.raise = 6 - p.natureRank := by
  unfold isLiteral at h
  unfold raise natureRank
  split <;> simp_all

theorem siblingPriority_of_isLiteral {p : Parameter} (h : p.isLiteral = true) :
    p.siblingPriority = .maximum := by
  unfold isLiteral at h
  unfold siblingPriority
  split <;> simp_all

/-- An argument or flag is raised as far as the range goes. -/
theorem level_siblingPriority {p : Parameter} (h : p.isLiteral = false) :
    p.siblingPriority.level = min (p.priority.level + p.raise) 2147483647 := by
  have hlower := p.priority.lower
  unfold isLiteral at h
  unfold siblingPriority raise
  split <;> simp_all [Priority.level_plus] <;> omega

namespace GoesAhead

variable {p q : Parameter}

theorem isLiteral_eq_false (h : p.GoesAhead q) : q.isLiteral = false := by
  rw [← Bool.not_eq_true, ← natureRank_eq_zero_iff]
  exact Nat.ne_of_gt (Nat.zero_lt_of_lt h.1)

/-- What goes ahead has the higher key if the other has room, and else the same key. -/
theorem key_cases (h : p.GoesAhead q) :
    q.HasRoom ∧ q.siblingPriority < p.siblingPriority ∨
      ¬ q.HasRoom ∧ q.siblingPriority = p.siblingPriority := by
  have hq := level_siblingPriority h.isLiteral_eq_false
  have hhigher : q.siblingPriority.level = p.siblingPriority.level ∧ ¬ q.HasRoom ∨
      q.siblingPriority.level < p.siblingPriority.level ∧ q.HasRoom := by
    unfold HasRoom
    cases hliteral : p.isLiteral with
    | true =>
      have hp : p.siblingPriority.level = 2147483647 := by
        rw [siblingPriority_of_isLiteral hliteral]
        rfl
      omega
    | false =>
      -- Raised from one level by different steps, the keys can meet only at the end of the range.
      have hp := level_siblingPriority hliteral
      have hrank := h.1
      have hpriority : p.priority = q.priority := h.2.resolve_left (by simp [hliteral])
      rw [raise_eq hliteral, hpriority] at hp
      rw [raise_eq h.isLiteral_eq_false] at hq ⊢
      omega
  rcases hhigher with ⟨heq, hroom⟩ | ⟨hlt, hroom⟩
  · exact .inr ⟨hroom, Priority.ext_level heq⟩
  · exact .inl ⟨hroom, hlt⟩

end GoesAhead

end Parameter

/-! ## Siblings in an arena -/

/-- In a list by an asymmetric relation, what is related to another stands before it. -/
theorem idxOf_lt_idxOf_iff {α : Type} [DecidableEq α] {R : α → α → Prop} {l : List α} {x y : α}
    (h : l.Pairwise R) (hasymm : ∀ x y, R x y → ¬ R y x) (hx : x ∈ l) (hy : y ∈ l) :
    l.idxOf x < l.idxOf y ↔ R x y := by
  have hrel : ∀ {x y}, x ∈ l → y ∈ l → l.idxOf x < l.idxOf y → R x y := by
    intro x y hx hy hlt
    have hrel := List.pairwise_iff_getElem.1 h _ _ (List.idxOf_lt_length_of_mem hx)
      (List.idxOf_lt_length_of_mem hy) hlt
    rwa [List.getElem_idxOf, List.getElem_idxOf] at hrel
  constructor
  · exact hrel hx hy
  · intro hxy
    rcases Nat.lt_trichotomy (l.idxOf x) (l.idxOf y) with hlt | heq | hgt
    · exact hlt
    · obtain rfl := (List.idxOf_inj hx).1 heq
      exact absurd hxy (hasymm _ _ hxy)
    · exact absurd (hrel hy hx hgt) (hasymm _ _ hxy)

namespace Arena

variable {a : Arena}

/-- The parameters of the cells of an arena. -/
def parameters (a : Arena) : List Parameter :=
  a.map (·.parameter)

theorem parameters_addChild (a : Arena) (n : Nat) (p : Parameter) :
    (a.addChild n p).parameters = a.parameters ++ [p] := by
  refine List.ext_getElem? fun i => ?_
  have hlists : ∀ c : Cell, (if n = i then
      { c with children := a.placeSibling a.length p.siblingPriority c.children } else c).parameter =
        c.parameter := by
    intro c
    split <;> rfl
  rw [parameters, List.getElem?_map, getElem?_addChild, Option.map_map]
  simp only [Function.comp_def, hlists, parameters]
  split
  · rename_i hi
    rw [hi, List.getElem?_append_right (by simp)]
    simp [Cell.leaf, Node.leaf]
  · rename_i hi
    rw [List.getElem?_append, List.getElem?_map, List.length_map]
    split
    · rfl
    · rw [List.getElem?_eq_none (by omega), List.getElem?_eq_none (by simp; omega)]
      rfl

/-- Whether the cell at a number stands before the one at another by their keys, and if these are equal
by their age. -/
def Before (a : Arena) (c d : Nat) : Prop :=
  ∃ p q, a.parameters[c]? = some p ∧ a.parameters[d]? = some q ∧
    (q.siblingPriority < p.siblingPriority ∨ q.siblingPriority = p.siblingPriority ∧ c < d)

theorem before_iff {c d : Nat} {p q : Parameter} (hp : a.parameters[c]? = some p)
    (hq : a.parameters[d]? = some q) : a.Before c d ↔
      q.siblingPriority < p.siblingPriority ∨ q.siblingPriority = p.siblingPriority ∧ c < d := by
  simp [Before, hp, hq]

theorem Before.asymm {c d : Nat} (h : a.Before c d) : ¬ a.Before d c := by
  rcases h with ⟨p, q, hp, hq, hcd⟩
  rw [before_iff hq hp]
  -- Keys that differ stand in one way only, and so do ages where keys are equal.
  rintro (hlt' | ⟨heq', hlt'⟩) <;> rcases hcd with hlt | ⟨heq, hlt⟩
  · exact Int.lt_asymm hlt hlt'
  · exact Int.lt_irrefl _ (heq ▸ hlt')
  · exact Int.lt_irrefl _ (heq' ▸ hlt)
  · exact Nat.lt_asymm hlt hlt'

/-! ## Ordered arenas -/

/-- Whether numbers are those of siblings that stand by their keys, and those of one key by age. The
siblings are told by nodes that have their numbers and parameters. -/
structure Siblings (a : Arena) (numbers : List Nat) (siblings : List Node) : Prop where
  numbers : numbers = siblings.map (·.id)
  parameters : ∀ s ∈ siblings, a.parameters[s.id]? = some s.parameter
  ordered : siblings.Pairwise Node.Before
  apart : (siblings.map (·.parameter.slot)).Nodup

/-- Whether siblings stand as they should all over an arena. -/
def Ordered (a : Arena) : Prop :=
  ∀ (i : Nat) (above : Cell), a[i]? = some above → ∃ siblings, a.Siblings above.children siblings

namespace Siblings

variable {numbers : List Nat} {siblings : List Node} {p : Parameter}

theorem id_lt (h : a.Siblings numbers siblings) {s : Node} (hs : s ∈ siblings) : s.id < a.length := by
  have hlt := (List.getElem?_eq_some_iff.1 (h.parameters s hs)).1
  rwa [Arena.parameters, List.length_map] at hlt

/-- Siblings stay what they are when a child is added somewhere. -/
theorem kept (h : a.Siblings numbers siblings) (n : Nat) (p : Parameter) :
    (a.addChild n p).Siblings numbers siblings := by
  refine ⟨h.numbers, fun s hs => ?_, h.ordered, h.apart⟩
  rw [parameters_addChild, List.getElem?_append_left]
  · exact h.parameters s hs
  · rw [Arena.parameters, List.length_map]
    exact h.id_lt hs

/-- A new sibling goes where its key puts it. -/
theorem place (h : a.Siblings numbers siblings) (n : Nat)
    (hp : ∀ s ∈ siblings, s.parameter.sameSlot p = false) :
    (a.addChild n p).Siblings (a.placeSibling a.length p.siblingPriority numbers)
      (Node.insertSibling (.leaf a.length p) siblings) := by
  refine ⟨?_, ?_, Node.pairwise_before_insertSibling h.ordered fun s hs => h.id_lt hs, ?_⟩
  · rw [h.numbers]
    refine placeSibling_map_id (.leaf a.length p) fun s hs => ?_
    rw [← List.getElem?_map]
    exact h.parameters s hs
  · -- The new cell comes last in the arena.
    intro s hs
    rcases Node.mem_insertSibling_iff.1 hs with rfl | hs
    · have hnew : (Node.leaf a.length p).id = a.parameters.length := (List.length_map _).symm
      rw [parameters_addChild, hnew, List.getElem?_concat_length]
      rfl
    · exact (h.kept n p).parameters s hs
  · rw [((Node.insertSibling_perm _ _).map _).nodup_iff, List.map_cons, List.nodup_cons]
    refine ⟨?_, h.apart⟩
    intro hmem
    rcases List.mem_map.1 hmem with ⟨s, hs, hslot⟩
    exact Bool.eq_false_iff.1 (hp s hs) (Parameter.sameSlot_iff_slot_eq.2 hslot)

/-- No sibling is in the slot of a child that is missing. -/
theorem sameSlot_eq_false (h : a.Siblings numbers siblings) {n : Nat} (hn : a.childrenOf n = numbers)
    (hp : a.child? n p = none) {s : Node} (hs : s ∈ siblings) : s.parameter.sameSlot p = false := by
  rw [child?, hn, h.numbers, List.find?_eq_none] at hp
  have hnot := hp s.id (List.mem_map_of_mem hs)
  have hparameter := h.parameters s hs
  rw [Arena.parameters, List.getElem?_map, Option.map_eq_some_iff] at hparameter
  rcases hparameter with ⟨x, hx, hparameter⟩
  rw [hx, Option.any_some, hparameter, Bool.not_eq_true] at hnot
  exact hnot

theorem exists_sibling (h : a.Siblings numbers siblings) {c : Nat} (hc : c ∈ numbers)
    (hp : a.parameters[c]? = some p) : ∃ s ∈ siblings, s.id = c ∧ s.parameter = p := by
  rw [h.numbers] at hc
  rcases List.mem_map.1 hc with ⟨s, hs, rfl⟩
  exact ⟨s, hs, rfl, Option.some.inj ((h.parameters s hs).symm.trans hp)⟩

theorem pairwise (h : a.Siblings numbers siblings) : numbers.Pairwise a.Before := by
  rw [h.numbers, List.pairwise_map]
  refine h.ordered.imp_of_mem fun hs ht hbefore => ?_
  exact ⟨_, _, h.parameters _ hs, h.parameters _ ht, hbefore⟩

end Siblings

namespace Ordered

variable {above : Cell} {c d : Nat} {p q : Parameter}

/-- **Step.** An arena stays ordered when a child is added in a slot of its own. -/
theorem addChild (h : a.Ordered) {n : Nat} (hn : n < a.length) (hp : a.child? n p = none) :
    (a.addChild n p).Ordered := by
  intro i above habove
  rw [getElem?_addChild, Option.map_eq_some_iff] at habove
  rcases habove with ⟨before, hbefore, rfl⟩
  split at hbefore
  · -- The new cell lists nothing.
    rename_i hi
    obtain rfl := Option.some.inj hbefore
    rw [if_neg (by omega)]
    exact ⟨[], rfl, by simp, .nil, .nil⟩
  · rcases h i before hbefore with ⟨siblings, hlists⟩
    split
    · -- This cell lists the new one: its children had other slots, or it would have been found.
      rename_i hni
      subst hni
      have hchildren : a.childrenOf n = before.children := by
        rw [childrenOf, hbefore]
        rfl
      exact ⟨_, hlists.place n fun s hs => hlists.sameSlot_eq_false hchildren hp hs⟩
    · exact ⟨siblings, hlists.kept n p⟩

/-- Of two siblings in an ordered arena the one with the higher key comes first, and of two equal keys
the older one. -/
theorem idxOf_lt_iff (h : a.Ordered) (habove : above ∈ a) (hc : c ∈ above.children)
    (hd : d ∈ above.children) (hp : a.parameters[c]? = some p) (hq : a.parameters[d]? = some q) :
    above.children.idxOf c < above.children.idxOf d ↔
      q.siblingPriority < p.siblingPriority ∨
        q.siblingPriority = p.siblingPriority ∧ c < d := by
  rcases List.getElem?_of_mem habove with ⟨i, hi⟩
  rcases h i above hi with ⟨siblings, hlists⟩
  rw [idxOf_lt_idxOf_iff hlists.pairwise (fun _ _ => Before.asymm) hc hd, before_iff hp hq]

/-- What goes ahead of a sibling stands before it exactly if the sibling has room or is younger. -/
theorem idxOf_lt_iff_of_goesAhead (h : a.Ordered) (habove : above ∈ a) (hc : c ∈ above.children)
    (hd : d ∈ above.children) (hp : a.parameters[c]? = some p) (hq : a.parameters[d]? = some q)
    (hahead : p.GoesAhead q) :
    above.children.idxOf c < above.children.idxOf d ↔ q.HasRoom ∨ c < d := by
  rw [h.idxOf_lt_iff habove hc hd hp hq]
  rcases hahead.key_cases with ⟨hroom, hkey⟩ | ⟨hroom, hkey⟩
  · exact iff_of_true (.inl hkey) (.inl hroom)
  · simp [hroom, hkey, show ¬ p.siblingPriority < p.siblingPriority from Int.lt_irrefl _]

/-- Siblings are in slots of their own. -/
theorem eq_of_sameSlot (h : a.Ordered) (habove : above ∈ a) (hc : c ∈ above.children)
    (hd : d ∈ above.children) (hp : a.parameters[c]? = some p) (hq : a.parameters[d]? = some q)
    (hslot : p.sameSlot q = true) : p = q := by
  rcases List.getElem?_of_mem habove with ⟨i, hi⟩
  rcases h i above hi with ⟨siblings, hlists⟩
  rcases hlists.exists_sibling hc hp with ⟨s, hs, -, rfl⟩
  rcases hlists.exists_sibling hd hq with ⟨t, ht, -, rfl⟩
  rw [List.inj_on_of_nodup_map hlists.apart hs ht (Parameter.sameSlot_iff_slot_eq.1 hslot)]

end Ordered

/-- The arena of a grammar that can be built is ordered. -/
theorem ordered_of_reachable {root : Parameter} {g : Grammar} (hg : Grammar.Reachable root g) :
    g.root.arena.Ordered := by
  intro i above habove
  rcases hg.numbered.getElem?_arena_iff.1 habove with ⟨p, hp, -, rfl⟩
  have harranged := Node.of_mem_placesFrom Node.Arranged.child hg.numbered.arranged hp
  have hapart := Node.of_mem_placesFrom Node.Apart.child hg.outlined.apart hp
  refine ⟨p.node.children, rfl, ?_, harranged.pairwise, hapart.nodup⟩
  intro s hs
  have hcell : g.root.arena[s.id]? = some (p.child s).cell :=
    hg.numbered.getElem?_arena_of_mem (Node.child_mem_placesFrom hp hs)
  rw [parameters, List.getElem?_map, hcell]
  rfl

/-! ## Arenas that can be come by -/

/-- Whether an arena can be come by: it is that of a builder, whatever has been inserted, refused and
permitted, or what becomes of such a one when children of its cells are asked for. -/
inductive Built (root : Parameter) : Arena → Prop where
  | builder {b : Builder} : Builder.Reachable root b → Built root b.arena
  | childFor {d : Draft} {n : Nat} (p : Parameter) : Built root d.arena → n < d.arena.length →
      Built root ((Draft.childFor n p).leaves d).arena

/-- Asking for a child changes nothing if there is one, and else adds one. -/
theorem arena_leaves_childFor (d : Draft) (n : Nat) (p : Parameter) :
    ((Draft.childFor n p).leaves d).arena =
      if (d.arena.child? n p).isSome then d.arena else d.arena.addChild n p := by
  unfold Edit.leaves
  rw [Draft.childFor, EStateM.run_bind, EStateM.run_get]
  dsimp only
  cases hchild : d.arena.child? n p <;> rfl

/-- **Run.** Every arena that can be come by is ordered. -/
theorem Built.ordered {root : Parameter} (h : Built root a) : a.Ordered := by
  induction h with
  | builder hb =>
    -- A builder is a grammar in place, whose siblings have been put in order in the tree.
    rcases hb.exists_grammar with ⟨g, hg, rfl⟩
    exact ordered_of_reachable hg
  | @childFor d n p _ hn ih =>
    rw [arena_leaves_childFor]
    cases hchild : d.arena.child? n p with
    | some c => exact ih
    | none => exact ih.addChild hn hchild

/-! ## The order of natures -/

/-- Whether an arena puts a parameter before another wherever both are those of siblings. -/
def Puts (a : Arena) (p q : Parameter) : Prop :=
  ∀ above ∈ a, ∀ c ∈ above.children, ∀ d ∈ above.children,
    a.parameters[c]? = some p → a.parameters[d]? = some q →
      above.children.idxOf c < above.children.idxOf d

/-- Whether siblings stand by their natures all over an arena. -/
def InNatureOrder (a : Arena) : Prop :=
  ∀ p q, p.GoesAhead q → a.Puts p q

/-- A child in a slot of its own can be added to any cell. -/
theorem Built.addChild {root : Parameter} (h : Built root a) {n : Nat} (hn : n < a.length)
    {p : Parameter} (hp : a.child? n p = none) : Built root (a.addChild n p) := by
  have hbuilt := Built.childFor (d := ⟨a, []⟩) p h hn
  rw [arena_leaves_childFor] at hbuilt
  simpa [hp] using hbuilt

/-- Parameters in different slots are those of siblings somewhere, the first one made first. -/
theorem exists_built_siblings (root : Parameter) {p q : Parameter} (h : p.sameSlot q = false) :
    ∃ a, Built root a ∧ ∃ above ∈ a, 1 ∈ above.children ∧ 2 ∈ above.children ∧
      a.parameters[1]? = some p ∧ a.parameters[2]? = some q := by
  have hstart : Built root [Cell.leaf 0 root none (-1)] := .builder .new
  let first : Arena :=
    [{ Cell.leaf 0 root none (-1) with children := [1] }, Cell.leaf 1 p (some 0) 0]
  have hfirst : Built root first := hstart.addChild (n := 0) (p := p) Nat.zero_lt_one rfl
  have hnone : first.child? 0 q = none := by
    simp [first, child?, childrenOf, Cell.leaf, Node.leaf, h]
  have hsecond := hfirst.addChild (n := 0) Nat.zero_lt_two hnone
  refine ⟨_, hsecond, _, List.mem_cons_self, ?_, ?_, rfl, rfl⟩
  · exact mem_placeSibling_iff.2 (.inr List.mem_cons_self)
  · exact mem_placeSibling_iff.2 (.inl rfl)

/-- **The order of natures.** In every arena that can be come by, what goes ahead of a sibling by its
nature stands before it exactly if the sibling has room to be raised, or has been made later. So a
parameter always stands before one that it goes ahead of exactly if the other has room, or if they
share a slot and are never siblings. -/
theorem natureOrder_law (root : Parameter) :
    (∀ a, Built root a → ∀ above ∈ a, ∀ c ∈ above.children, ∀ d ∈ above.children, ∀ p q,
      a.parameters[c]? = some p → a.parameters[d]? = some q → p.GoesAhead q →
        (above.children.idxOf c < above.children.idxOf d ↔ q.HasRoom ∨ c < d)) ∧
      ∀ p q, p.GoesAhead q →
        ((∀ a, Built root a → a.Puts p q) ↔ q.HasRoom ∨ p.sameSlot q = true) := by
  constructor
  · intro a ha above habove c hc d hd p q hp hq hahead
    exact ha.ordered.idxOf_lt_iff_of_goesAhead habove hc hd hp hq hahead
  · intro p q hahead
    constructor
    · intro hputs
      refine or_iff_not_imp_right.2 fun hslot => ?_
      rw [Bool.not_eq_true, Parameter.sameSlot_comm] at hslot
      rcases exists_built_siblings root hslot with ⟨a, ha, above, habove, hq, hp, hqs, hps⟩
      -- Where `q` has been made first, only its room can put it behind.
      have hbefore := hputs a ha above habove 2 hp 1 hq hps hqs
      rw [ha.ordered.idxOf_lt_iff_of_goesAhead habove hp hq hps hqs hahead] at hbefore
      exact hbefore.resolve_right (by decide)
    · rintro (hroom | hslot) a ha above habove c hc d hd hp hq
      · rw [ha.ordered.idxOf_lt_iff_of_goesAhead habove hc hd hp hq hahead]
        exact .inl hroom
      · obtain rfl := ha.ordered.eq_of_sameSlot habove hc hd hp hq hslot
        exact absurd hahead.1 (Nat.lt_irrefl _)

/-- A usage of one parameter. -/
def lone (p : Parameter) : Usage :=
  ⟨p.name, [p], none, none, false⟩

/-- The arena of a command with usages of one parameter, inserted in turn. -/
def ofLone (ps : List Parameter) : Arena :=
  (ps.foldl (fun b p => (b.insert (lone p)).2) (Builder.new (.literal "cmd" []))).arena

theorem built_ofLone (ps : List Parameter) : Built (.literal "cmd" []) (ofLone ps) := by
  have hrun : ∀ b, Builder.Reachable (.literal "cmd" []) b → Built (.literal "cmd" [])
      (ps.foldl (fun b p => (b.insert (lone p)).2) b).arena := by
    induction ps with
    | nil => exact fun b hb => .builder hb
    | cons p ps ih => exact fun b hb => ih _ (hb.insert (lone p))
  exact hrun _ .new

/-- A literal stands before a required argument that has been inserted first and has room. One level
higher it does not. -/
theorem natureOrder_law_list :
    let list := Parameter.literal "list" []
    let any (level : Int) : Parameter :=
      { Parameter.required "any" .string with priority := .nearest level }
    (∃ above ∈ ofLone [any 2147483641, list],
        above.children = [2, 1] ∧ above.children.idxOf 2 < above.children.idxOf 1) ∧
      (∀ a, Built (.literal "cmd" []) a → a.Puts list (any 2147483641)) ∧
      ¬ ∀ a, Built (.literal "cmd" []) a → a.Puts list (any 2147483642) := by
  intro list any
  obtain ⟨hstands, hputs⟩ := natureOrder_law (.literal "cmd" [])
  have hahead (level : Int) : list.GoesAhead (any level) := ⟨Nat.zero_lt_one, .inl rfl⟩
  obtain ⟨above, habove, hchildren⟩ : ∃ above ∈ ofLone [any 2147483641, list],
      above.children = [2, 1] := by decide +kernel
  have hbefore := hstands _ (built_ofLone [any 2147483641, list]) above habove 2 (by simp [hchildren])
    1 (by simp [hchildren]) list (any 2147483641) (by decide +kernel) (by decide +kernel) (hahead _)
  refine ⟨⟨above, habove, hchildren, hbefore.2 (.inl (by decide))⟩, ?_, ?_⟩
  · exact (hputs list (any 2147483641) (hahead _)).2 (by decide)
  · rw [hputs list (any 2147483642) (hahead _)]
    decide

/-- Of an optional argument, a flag, a required argument and a literal, inserted in this order, the
first three at a level with no room, each stands before what goes ahead of it. -/
theorem natures_reversed :
    let level := Priority.nearest 2147483644
    let n : Parameter := { Parameter.optional "n" .int with priority := level }
    let v : Parameter := { Parameter.switch "v" [] with priority := level }
    let s : Parameter := { Parameter.required "s" .string with priority := level }
    let list := Parameter.literal "list" []
    let a := ofLone [n, v, s, list]
    Built (.literal "cmd" []) a ∧ (a[0]?.map (·.children)) = some [1, 2, 3, 4] ∧
      a.parameters = [.literal "cmd" [], n, v, s, list] ∧
      list.GoesAhead s ∧ s.GoesAhead v ∧ v.GoesAhead n ∧ ¬ a.InNatureOrder := by
  intro level n v s list a
  have hchildren : a[0]?.map (·.children) = some [1, 2, 3, 4] := by decide +kernel
  have hparameters : a.parameters = [.literal "cmd" [], n, v, s, list] := by decide +kernel
  have hahead : s.GoesAhead v := by decide
  refine ⟨built_ofLone _, hchildren, hparameters, by decide, hahead, by decide, ?_⟩
  intro hnature
  rcases Option.map_eq_some_iff.1 hchildren with ⟨above, habove, hlists⟩
  have hbefore := hnature s v hahead above (List.mem_of_getElem? habove) 3 (by simp [hlists])
    2 (by simp [hlists]) (by rw [hparameters]; rfl) (by rw [hparameters]; rfl)
  rw [hlists] at hbefore
  exact absurd hbefore (by decide)

end Arena

end CommandLanguage

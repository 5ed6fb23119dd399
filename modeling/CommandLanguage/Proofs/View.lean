import CommandLanguage.Proofs.Place
import CommandLanguage.Proofs.Reachable
import Mathlib.Data.List.Nodup

/-!
# Views of trees

What a tree holds, by the path of slots that leads to it, and no more: a tree whose siblings are in
slots of their own is determined by its view up to the order of siblings and the numbers of nodes.

Inserting a usage does to the view what each of its ways of typing does in turn: it goes along the
way, adds what is missing on it, and lets what is at its end receive the usage (`View.along`). That
is a law of growth (`Node.extends_law`), so it needs no more than what happens to one child. Giving
permissions changes nothing but the permissions of those that have none (`Node.Repermitted.view`).
Where siblings are in slots of their own, the places of a tree have paths of their own
(`Node.Apart.nodup_paths`), and the view holds what is at these places (`Node.Apart.view_of_mem`).
-/

namespace CommandLanguage

/-! ## Paths along a way of typing -/

/-- The parameter of a way of typing at the end of a path of slots, if the way goes along it. -/
def through? : List Slot → List Parameter → Option Parameter
  | slot :: path, p :: ps =>
    if slot = p.slot then if path = [] then some p else through? path ps else none
  | _, _ => none

@[simp] theorem through?_nil (ps : List Parameter) : through? [] ps = none := by
  simp [through?]

@[simp] theorem through?_of_nil (path : List Slot) : through? path [] = none := by
  cases path <;> simp [through?]

/-- Some parameter of a way is at the end of a path if the path is a beginning of the way. -/
theorem through?_isSome_iff {path : List Slot} {ps : List Parameter} :
    (through? path ps).isSome = true ↔ path ≠ [] ∧ path <+: slots ps := by
  induction ps generalizing path with
  | nil =>
    constructor
    · simp
    · rintro ⟨hne, hprefix⟩
      exact absurd (List.prefix_nil.1 hprefix) hne
  | cons p ps ih =>
    cases path with
    | nil => simp
    | cons slot path =>
      rw [through?, slots_cons, List.cons_prefix_cons]
      by_cases hslot : slot = p.slot
      · by_cases hpath : path = []
        · simp [hslot, hpath]
        · simp [hslot, hpath, ih]
      · simp [hslot]

/-! ## Entries -/

/-- The usage that a node completes once a usage ends there: the one with fewer parameters, else the
one that came last. -/
def NumberedUsage.settle (u : NumberedUsage) : Option NumberedUsage → NumberedUsage
  | none => u
  | some held =>
    if held.number = u.number ∨ held.usage.parameters.length < u.usage.parameters.length then held
    else u

/-- What a tree holds at the end of a path. -/
structure Entry where
  parameter : Parameter
  permission : Option String
  terminal : Option NumberedUsage
  fallback : Option NumberedUsage

namespace Entry

/-- What a new node holds. -/
def new (p : Parameter) : Entry := ⟨p, p.permission, none, none⟩

/-- An entry at which a usage ends. -/
def receive (u : NumberedUsage) (e : Entry) : Entry :=
  if u.usage.isDefault then { e with fallback := some u }
  else { e with terminal := some (u.settle e.terminal) }

@[simp] theorem parameter_receive (u : NumberedUsage) (e : Entry) :
    (e.receive u).parameter = e.parameter := by
  unfold receive
  split <;> rfl

@[simp] theorem permission_receive (u : NumberedUsage) (e : Entry) :
    (e.receive u).permission = e.permission := by
  unfold receive
  split <;> rfl

/-- Once a usage has ended at an entry, it changes nothing if it ends there again. -/
theorem receive_receive (u : NumberedUsage) (e : Entry) :
    (e.receive u).receive u = e.receive u := by
  unfold receive
  split
  · rfl
  · have hsettle : u.settle (some (u.settle e.terminal)) = u.settle e.terminal := by
      cases e.terminal with
      | none => simp [NumberedUsage.settle]
      | some held =>
        by_cases hkeep : held.number = u.number ∨
            held.usage.parameters.length < u.usage.parameters.length
        · simp [NumberedUsage.settle, hkeep]
        · simp [NumberedUsage.settle, hkeep]
    simp [hsettle]

end Entry

namespace Node

/-- What a node holds. -/
def entry (n : Node) : Entry := ⟨n.parameter, n.permission, n.terminal, n.fallback⟩

theorem entry_receive (u : NumberedUsage) (n : Node) :
    (n.receive u).entry = n.entry.receive u := by
  unfold receive Entry.receive
  split
  · rfl
  · unfold bind
    split
    · rename_i held hterminal
      by_cases hkeep : held.number = u.number ∨
          held.usage.parameters.length < u.usage.parameters.length
      · simp [entry, NumberedUsage.settle, hterminal, hkeep]
      · simp [entry, NumberedUsage.settle, hterminal, hkeep]
    · rename_i hterminal
      simp [entry, NumberedUsage.settle, hterminal]

theorem children_receive (u : NumberedUsage) (n : Node) : (n.receive u).children = n.children := by
  unfold receive
  split
  · rfl
  · unfold bind
    split
    · split <;> rfl
    · rfl

end Node

/-! ## Views -/

/-- What a tree holds, by the paths of slots that lead to it. -/
abbrev View := List Slot → Option Entry

namespace View

/-- A view after going along a way of typing, at whose end `f` changes what is held. -/
def along (f : Entry → Entry) (v : View) (ps : List Parameter) : View := fun path =>
  (v path <|> (through? path ps).map Entry.new).map fun e => if path = slots ps then f e else e

/-- A view after going along ways of typing in turn. -/
def alongAll (f : Entry → Entry) (v : View) (ways : List (List Parameter)) : View :=
  ways.foldl (along f) v

/-- What a view says of what is below the slot of a parameter, after adding this if it is missing. -/
def below (v : View) (p : Parameter) : View := fun path =>
  v (p.slot :: path) <|> if path = [] then some (.new p) else none

variable {f : Entry → Entry} {v : View} {p : Parameter} {ps : List Parameter}
  {ways : List (List Parameter)}

theorem alongAll_cons : v.alongAll f (ps :: ways) = (v.along f ps).alongAll f ways := rfl

theorem alongAll_append (ways' : List (List Parameter)) :
    v.alongAll f (ways ++ ways') = (v.alongAll f ways).alongAll f ways' :=
  List.foldl_append

theorem along_nil_of_cons : v.along f (p :: ps) [] = v [] := by
  simp [along]

/-- What is in other slots is left as it is. -/
theorem along_of_ne {slot : Slot} (hslot : slot ≠ p.slot) (path : List Slot) :
    v.along f (p :: ps) (slot :: path) = v (slot :: path) := by
  simp [along, through?, hslot]

/-- Going along a way is going along the rest of it below its first parameter. -/
theorem below_along : (v.along f (p :: ps)).below p = (v.below p).along f ps := by
  funext path
  cases path with
  | nil =>
    by_cases hps : ps = []
    · cases hv : v [p.slot] <;> simp [below, along, through?, hps, hv]
    · have hslots : [] ≠ slots ps := by simpa [slots, eq_comm] using hps
      cases hv : v [p.slot] <;> simp [below, along, through?, hslots, hv]
  | cons slot path => simp [below, along, through?]

theorem along_cons_slot (path : List Slot) :
    v.along f (p :: ps) (p.slot :: path) = (v.below p).along f ps path := by
  rw [← below_along]
  cases path with
  | nil => cases hv : v [p.slot] <;> simp [below, along, through?, hv]
  | cons slot path => simp [below]

section Below

/-- Going along ways that begin with one parameter leaves what is above it. -/
theorem alongAll_map_cons_nil : v.alongAll f (ways.map (p :: ·)) [] = v [] := by
  induction ways generalizing v with
  | nil => rfl
  | cons ps ways ih =>
    rw [List.map_cons, alongAll_cons, ih, along_nil_of_cons]

theorem alongAll_map_cons_of_ne {slot : Slot} (hslot : slot ≠ p.slot) (path : List Slot) :
    v.alongAll f (ways.map (p :: ·)) (slot :: path) = v (slot :: path) := by
  induction ways generalizing v with
  | nil => rfl
  | cons ps ways ih =>
    rw [List.map_cons, alongAll_cons, ih, along_of_ne hslot]

theorem below_alongAll_map_cons :
    (v.alongAll f (ways.map (p :: ·))).below p = (v.below p).alongAll f ways := by
  induction ways generalizing v with
  | nil => rfl
  | cons ps ways ih =>
    rw [List.map_cons, alongAll_cons, ih, below_along, alongAll_cons]

/-- What is in the slot of a parameter of which some way goes along is what going along the ways
leaves of it. -/
theorem alongAll_map_cons_slot (hways : ways ≠ []) (path : List Slot) :
    v.alongAll f (ways.map (p :: ·)) (p.slot :: path) = (v.below p).alongAll f ways path := by
  -- The last way already makes sure that something is in the slot.
  rcases List.eq_nil_or_concat ways with rfl | ⟨front, ps, rfl⟩
  · exact absurd rfl hways
  · have hfront : (v.alongAll f (front.map (p :: ·))).below p = (v.below p).alongAll f front :=
      below_alongAll_map_cons
    rw [List.concat_eq_append, List.map_append, alongAll_append, alongAll_append, ← hfront]
    exact along_cons_slot path

end Below

/-- **Going along ways.** What is at a path was there, or is new from the first way along it; if some
way ends there, it is changed. -/
theorem alongAll_apply (hf : ∀ e, f (f e) = f e) (hroot : (v []).isSome = true) (path : List Slot) :
    v.alongAll f ways path =
      (v path <|> (ways.findSome? (through? path)).map Entry.new).map fun e =>
        if ∃ ps ∈ ways, path = slots ps then f e else e := by
  induction ways generalizing v with
  | nil => simp [alongAll]
  | cons ps ways ih =>
    have hroot' : (v.along f ps []).isSome = true := by
      simp only [along, Option.isSome_map, through?_nil, Option.map_none]
      simpa using hroot
    rw [alongAll_cons, ih hroot', List.findSome?_cons]
    cases hv : v path with
    | some e =>
      by_cases hps : path = slots ps
      · by_cases hways : ∃ qs ∈ ways, path = slots qs
        · simp [along, hv, ← hps, hways, hf]
        · simp [along, hv, ← hps, hways]
      · simp [along, hv, hps]
    | none =>
      -- The path is not the empty one, so that a way ends there only if it goes along it.
      have hne : path ≠ [] := by
        rintro rfl
        simp [hv] at hroot
      cases hthrough : through? path ps with
      | some p =>
        by_cases hps : path = slots ps
        · by_cases hways : ∃ qs ∈ ways, path = slots qs
          · simp [along, hv, hthrough, ← hps, hways, hf]
          · simp [along, hv, hthrough, ← hps, hways]
        · simp [along, hv, hthrough, hps]
      | none =>
        have hps : path ≠ slots ps := by
          rintro rfl
          have hsome : (through? (slots ps) ps).isSome = true :=
            through?_isSome_iff.2 ⟨hne, List.prefix_refl _⟩
          simp [hthrough] at hsome
        simp [along, hv, hthrough, hps]

end View

/-! ## The view of a tree -/

namespace Node

/-- The node at the end of a path of slots. -/
def at? (n : Node) : List Slot → Option Node
  | [] => some n
  | slot :: path => (n.children.find? (·.parameter.slot == slot)).bind (·.at? path)

/-- What a tree holds, by the paths of slots that lead to it. -/
def view (n : Node) : View := fun path => (n.at? path).map entry

theorem view_nil (n : Node) : n.view [] = some n.entry := rfl

theorem view_cons (n : Node) (slot : Slot) (path : List Slot) :
    n.view (slot :: path) =
      (n.children.find? (·.parameter.slot == slot)).bind (·.view path) := by
  rw [view, at?, Option.map_bind]
  rfl

theorem child?_eq (n : Node) (p : Parameter) :
    n.child? p = n.children.find? (·.parameter.slot == p.slot) := by
  unfold child?
  congr
  funext c
  rw [Bool.eq_iff_iff, Parameter.sameSlot_iff_slot_eq, beq_iff_eq]

theorem view_leaf (id : Nat) (p : Parameter) (path : List Slot) :
    (leaf id p).view path = if path = [] then some (.new p) else none := by
  cases path with
  | nil => rfl
  | cons slot path => simp [view_cons, leaf]

/-- Adding a sibling in a slot of its own changes what is in that slot alone. -/
theorem find?_insertSibling {c : Node} {cs : List Node} (slot : Slot)
    (hnone : cs.find? (·.parameter.slot == c.parameter.slot) = none) :
    (insertSibling c cs).find? (·.parameter.slot == slot) =
      if slot = c.parameter.slot then some c else cs.find? (·.parameter.slot == slot) := by
  induction cs with
  | nil =>
    by_cases hslot : slot = c.parameter.slot
    · simp [insertSibling, hslot]
    · simp [insertSibling, hslot, Ne.symm hslot]
  | cons s cs ih =>
    have hs : (s.parameter.slot == c.parameter.slot) = false := by
      simpa using List.find?_eq_none.1 hnone s List.mem_cons_self
    have hcs : cs.find? (·.parameter.slot == c.parameter.slot) = none := by
      rw [List.find?_cons, hs] at hnone
      exact hnone
    rw [insertSibling]
    split
    · by_cases hslot : slot = c.parameter.slot
      · simp [hslot]
      · simp [List.find?_cons, hslot, Ne.symm hslot]
    · rw [List.find?_cons, ih hcs, List.find?_cons]
      by_cases hslot : slot = c.parameter.slot
      · simp [hslot, hs]
      · simp [hslot]

/-- Replacing the sibling in a slot changes what is in that slot alone. -/
theorem find?_replaceSibling {p : Parameter} {c s : Node} {cs : List Node} (slot : Slot)
    (hfind : cs.find? (·.parameter.sameSlot p) = some s) (hc : c.parameter.slot = p.slot) :
    (replaceSibling p c cs).find? (·.parameter.slot == slot) =
      if slot = p.slot then some c else cs.find? (·.parameter.slot == slot) := by
  induction cs with
  | nil => cases hfind
  | cons d cs ih =>
    rw [List.find?_cons] at hfind
    rw [replaceSibling]
    split
    · rename_i hd
      have hslot : d.parameter.slot = p.slot := Parameter.sameSlot_iff_slot_eq.1 hd
      by_cases heq : slot = p.slot
      · simp [heq, hc]
      · simp [hc, hslot, heq, Ne.symm heq]
    · rename_i hd
      have hslot : (d.parameter.slot == p.slot) = false := by
        rw [beq_eq_false_iff_ne]
        intro heq
        exact hd (Parameter.sameSlot_iff_slot_eq.2 heq)
      rw [List.find?_cons, ih (by simpa [hd] using hfind), List.find?_cons]
      by_cases heq : slot = p.slot
      · simp [heq, hslot]
      · simp [heq]

/-! ## Siblings in slots of their own -/

/-- Whether no two siblings of a tree are in one slot. -/
inductive Apart : Node → Prop where
  | intro {n : Node} : (n.children.map (·.parameter.slot)).Nodup →
      (∀ c ∈ n.children, Apart c) → Apart n

theorem Apart.nodup {n : Node} (h : n.Apart) : (n.children.map (·.parameter.slot)).Nodup := by
  cases h
  assumption

theorem Apart.child {n c : Node} (h : n.Apart) (hc : c ∈ n.children) : c.Apart := by
  cases h with
  | intro _ hchildren => exact hchildren c hc

theorem Apart.leaf (id : Nat) (p : Parameter) : (leaf id p).Apart :=
  .intro (by simp [Node.leaf]) (by simp [Node.leaf])

theorem insertSibling_perm (c : Node) (cs : List Node) :
    (insertSibling c cs).Perm (c :: cs) := by
  induction cs with
  | nil => exact .refl _
  | cons s cs ih =>
    rw [insertSibling]
    split
    · exact .refl _
    · exact (ih.cons s).trans (.swap c s cs)

theorem map_slot_replaceSibling {p : Parameter} {c : Node} {cs : List Node}
    (hc : c.parameter.slot = p.slot) :
    (replaceSibling p c cs).map (·.parameter.slot) = cs.map (·.parameter.slot) := by
  induction cs with
  | nil => rfl
  | cons s cs ih =>
    rw [replaceSibling]
    split
    · rename_i hs
      have hslot : s.parameter.slot = p.slot := Parameter.sameSlot_iff_slot_eq.1 hs
      simp [hc, hslot]
    · simp [ih]

/-! ## Growing -/

/-- Whether a tree has grown by ways of typing, at whose ends `f` has changed what is held. -/
structure Extends (f : Entry → Entry) (ways : List (List Parameter)) (n n' : Node) : Prop where
  view : n'.view = n.view.alongAll f ways
  parameter : n'.parameter = n.parameter
  apart : n.Apart → n'.Apart

/-- A tree one of whose children has grown, perhaps after it has been made, as far as its view goes.
-/
theorem view_of_child {f : Entry → Entry} {ways : List (List Parameter)} (hways : ways ≠ [])
    {n n' c c' : Node} {p : Parameter} (hentry : n'.entry = n.entry)
    (hbelow : c.view = n.view.below p) (hview : c'.view = c.view.alongAll f ways)
    (hfind : ∀ slot, n'.children.find? (·.parameter.slot == slot) =
      if slot = p.slot then some c' else n.children.find? (·.parameter.slot == slot)) :
    n'.view = n.view.alongAll f (ways.map (p :: ·)) := by
  funext path
  cases path with
  | nil => rw [View.alongAll_map_cons_nil, view_nil, view_nil, hentry]
  | cons slot path =>
    rw [view_cons, hfind]
    by_cases hslot : slot = p.slot
    · subst hslot
      rw [View.alongAll_map_cons_slot hways, ← hbelow, ← hview]
      simp
    · rw [View.alongAll_map_cons_of_ne hslot, view_cons]
      simp [hslot]

/-- Going along ways of typing is a law of growth. -/
theorem extends_law (f : Entry → Entry) :
    Growth.Law fun ways s s' => Extends f ways s.1 s'.1 where
  refl s := ⟨rfl, rfl, id⟩
  trans := by
    intro ways ways' s s' s'' h h'
    refine ⟨?_, h'.parameter.trans h.parameter, fun hapart => h'.apart (h.apart hapart)⟩
    rw [h'.view, h.view, View.alongAll_append]
  replace := by
    intro ways p n c c' next next' hways hchild _ hc
    have hmem : c ∈ n.children := List.mem_of_find?_eq_some hchild
    have hslot : c'.parameter.slot = p.slot := by
      rw [hc.parameter]
      exact slot_of_child? hchild
    refine ⟨?_, rfl, ?_⟩
    · refine view_of_child hways rfl ?_ hc.view fun slot => find?_replaceSibling slot hchild hslot
      funext path
      have hfind := hchild
      rw [child?_eq] at hfind
      have hview : n.view (p.slot :: path) = c.view path := by
        rw [view_cons, hfind]
        rfl
      rw [View.below, hview]
      cases path with
      | nil => rfl
      | cons slot path => simp
    · -- The child that is put back has the slot of the old one.
      intro hapart
      refine .intro ?_ ?_
      · rw [map_slot_replaceSibling hslot]
        exact hapart.nodup
      · intro d hd
        rcases mem_or_eq_of_mem_replaceSibling hd with hd | rfl
        · exact hapart.child hd
        · exact hc.apart (hapart.child hmem)
  make := by
    intro ways p n c' next next' hways hchild hc
    have hslot : c'.parameter.slot = p.slot := by
      rw [hc.parameter]
      rfl
    have hnone : n.children.find? (·.parameter.slot == c'.parameter.slot) = none := by
      rw [hslot, ← child?_eq]
      exact hchild
    refine ⟨?_, rfl, ?_⟩
    · refine view_of_child hways rfl ?_ hc.view fun slot => ?_
      · funext path
        rw [child?_eq] at hchild
        rw [view_leaf, View.below, view_cons, hchild]
        simp
      · rw [find?_insertSibling slot hnone, hslot]
    · -- No sibling has the slot of the new child.
      intro hapart
      refine .intro ?_ ?_
      · have hperm := (insertSibling_perm c' n.children).map (·.parameter.slot)
        rw [hperm.nodup_iff, List.map_cons, List.nodup_cons]
        refine ⟨?_, hapart.nodup⟩
        intro hmem
        rcases List.mem_map.1 hmem with ⟨d, hd, heq⟩
        have hne := List.find?_eq_none.1 hnone d hd
        simp [heq] at hne
      · intro d hd
        rcases mem_insertSibling_iff.1 hd with rfl | hd
        · exact hc.apart (.leaf next p)
        · exact hapart.child hd

namespace Extends

variable {f : Entry → Entry} {ways : List (List Parameter)} {n n' : Node} {path : List Slot}

/-- What a tree that has grown holds at a path. -/
theorem view_apply (h : Extends f ways n n') (hf : ∀ e, f (f e) = f e) (path : List Slot) :
    n'.view path = (n.view path <|> (ways.findSome? (through? path)).map Entry.new).map fun e =>
      if ∃ ps ∈ ways, path = slots ps then f e else e := by
  rw [h.view]
  exact View.alongAll_apply hf rfl path

/-- What is in a tree that has grown was in it before, or is new, and has been changed if some way
ends there. -/
theorem origin (h : Extends f ways n n') (hf : ∀ e, f (f e) = f e) {e' : Entry}
    (he' : n'.view path = some e') :
    ∃ e, (n.view path = some e ∨ n.view path = none ∧ ∃ p, e = .new p) ∧
      e' = if ∃ ps ∈ ways, path = slots ps then f e else e := by
  rw [h.view_apply hf, Option.map_eq_some_iff] at he'
  rcases he' with ⟨e, he, rfl⟩
  refine ⟨e, ?_, rfl⟩
  cases hold : n.view path with
  | some d =>
    obtain rfl : d = e := by simpa [hold] using he
    exact .inl rfl
  | none =>
    rw [hold, Option.orElse_eq_orElse, Option.orElse_none, Option.map_eq_some_iff] at he
    rcases he with ⟨p, -, rfl⟩
    exact .inr ⟨rfl, p, rfl⟩

/-- If what happens at the ends of ways leaves parameters as they are, a path leads to the parameter
that was there, or to that of the first way along it. -/
theorem map_parameter (h : Extends f ways n n') (hf : ∀ e, f (f e) = f e)
    (hparameter : ∀ e, (f e).parameter = e.parameter) (path : List Slot) :
    (n'.view path).map Entry.parameter =
      ((n.view path).map Entry.parameter <|> ways.findSome? (through? path)) := by
  have hkeeps : ∀ e : Entry,
      (if ∃ ps ∈ ways, path = slots ps then f e else e).parameter = e.parameter := by
    intro e
    split
    · exact hparameter e
    · rfl
  rw [h.view_apply hf, Option.map_map]
  simp only [Function.comp_def, hkeeps]
  cases n.view path with
  | some e => rfl
  | none => simp [Function.comp_def, Entry.new]

end Extends

/-- Receiving a usage is going along the empty way. -/
theorem receive_extends (u : NumberedUsage) (n : Node) :
    Extends (Entry.receive u) [[]] n (n.receive u) := by
  have hentry := entry_receive u n
  have hchildren := children_receive u n
  refine ⟨?_, ?_, ?_⟩
  · funext path
    cases path with
    | nil => simp [View.alongAll, View.along, view_nil, hentry, slots]
    | cons slot path => simp [View.alongAll, View.along, view_cons, hchildren, slots]
  · have hparameter := congrArg Entry.parameter hentry
    rw [Entry.parameter_receive] at hparameter
    exact hparameter
  · intro hapart
    refine .intro ?_ ?_
    · rw [hchildren]
      exact hapart.nodup
    · intro c hc
      rw [hchildren] at hc
      exact hapart.child hc

end Node

namespace Node

/-! ## Giving permissions -/

/-- Giving permissions changes what is at a path in its permission alone, and not if it has one. -/
theorem Repermitted.view {n n' : Node} (h : n.Repermitted n') (path : List Slot) :
    ∃ own, n'.view path = (n.view path).map fun e =>
      { e with permission := some (e.permission.getD own) } := by
  induction path generalizing n n' with
  | nil =>
    rcases h with ⟨own, delimiter, base, rfl⟩
    exact ⟨own, rfl⟩
  | cons slot path ih =>
    rcases h with ⟨own, delimiter, base, rfl⟩
    have hslot : ∀ c : Node, (c.permit delimiter base).parameter.slot = c.parameter.slot := by
      intro c
      rw [(repermitted_permit delimiter base c).parameter]
    have hfind : (n.children.map (permit delimiter base)).find? (·.parameter.slot == slot) =
        (n.children.find? (·.parameter.slot == slot)).map (permit delimiter base) := by
      rw [List.find?_map]
      simp only [Function.comp_def, hslot]
    rw [view_cons, view_cons, permitAll_eq_map, hfind]
    cases n.children.find? (·.parameter.slot == slot) with
    | none => exact ⟨own, rfl⟩
    | some c => exact ih (repermitted_permit delimiter base c)

/-- Giving permissions keeps siblings in slots of their own. -/
theorem Repermitted.apart {n n' : Node} (h : n.Repermitted n') (hn : n.Apart) : n'.Apart := by
  induction hn generalizing n' with
  | @intro n hnodup hchildren ih =>
    rcases h with ⟨own, delimiter, base, rfl⟩
    refine .intro ?_ ?_
    · rw [permitAll_eq_map, List.map_map]
      have hslot : (·.parameter.slot) ∘ permit delimiter base = (·.parameter.slot) := by
        funext c
        simp [(repermitted_permit delimiter base c).parameter]
      rw [hslot]
      exact hnodup
    · intro c' hc'
      rw [permitAll_eq_map] at hc'
      rcases List.mem_map.1 hc' with ⟨c, hc, rfl⟩
      exact ih c hc (repermitted_permit delimiter base c)

end Node

/-! ## Places and paths -/

/-- The path of slots that leads to a place. -/
def Place.slots (p : Place) : List Slot :=
  p.path.map (·.parameter.slot)

namespace Node

/-- Where siblings are in slots of their own, a slot finds the child that is in it. -/
theorem Apart.find?_slot {n c : Node} (h : n.Apart) (hc : c ∈ n.children) :
    n.children.find? (·.parameter.slot == c.parameter.slot) = some c := by
  have hsome : (n.children.find? (·.parameter.slot == c.parameter.slot)).isSome = true :=
    List.find?_isSome.2 ⟨c, hc, by simp⟩
  rcases Option.isSome_iff_exists.1 hsome with ⟨d, hd⟩
  have hslot : d.parameter.slot = c.parameter.slot := by simpa using List.find?_some hd
  rw [hd, List.inj_on_of_nodup_map h.nodup (List.mem_of_find?_eq_some hd) hc hslot]

theorem Apart.view_child {n c : Node} (h : n.Apart) (hc : c ∈ n.children) (path : List Slot) :
    n.view (c.parameter.slot :: path) = c.view path := by
  rw [view_cons, h.find?_slot hc]
  rfl

/-- The way to a place of a subtree begins with the way to its root, and its rest leads from there to
the place. -/
theorem exists_of_mem_placesFrom {n : Node} {above : List Node} {p : Place}
    (h : p ∈ n.placesFrom above) :
    ∃ nodes : List Node, p.lineage = nodes.reverse ++ n :: above ∧
      (n.Apart → n.at? (nodes.map (·.parameter.slot)) = some p.node) := by
  induction n using Node.induction generalizing above with
  | step n ih =>
    rcases mem_placesFrom.1 h with rfl | ⟨c, hc, hp⟩
    · exact ⟨[], rfl, fun _ => rfl⟩
    · rcases ih c hc hp with ⟨nodes, hlineage, hat⟩
      refine ⟨c :: nodes, by simp [hlineage], ?_⟩
      intro hapart
      rw [List.map_cons, at?, hapart.find?_slot hc]
      exact hat (hapart.child hc)

/-- What a path leads to is at a place of the subtree. -/
theorem exists_place_of_at? {n m : Node} {path : List Slot} (h : n.at? path = some m)
    (above : List Node) :
    ∃ p ∈ n.placesFrom above, p.node = m ∧
      ∃ nodes : List Node, p.lineage = nodes.reverse ++ n :: above ∧ nodes.map (·.parameter.slot) = path := by
  induction path generalizing n above with
  | nil =>
    obtain rfl : n = m := by simpa [at?] using h
    exact ⟨⟨n, above⟩, mem_placesFrom.2 (.inl rfl), rfl, [], rfl, rfl⟩
  | cons slot path ih =>
    rw [at?, Option.bind_eq_some_iff] at h
    rcases h with ⟨c, hc, hat⟩
    have hslot : c.parameter.slot = slot := by simpa using List.find?_some hc
    rcases ih hat (n :: above) with ⟨p, hp, hnode, nodes, hlineage, hpath⟩
    exact ⟨p, mem_placesFrom.2 (.inr ⟨c, List.mem_of_find?_eq_some hc, hp⟩), hnode, c :: nodes,
      by simp [hlineage], by simp [hslot, hpath]⟩

theorem path_of_lineage {n : Node} {p : Place} {nodes : List Node}
    (h : p.lineage = nodes.reverse ++ [n]) : p.path = nodes := by
  simp [Place.path, h]

/-- **Views and places.** The view of a tree whose siblings are in slots of their own holds what is at
its places. -/
theorem Apart.view_of_mem {n : Node} (h : n.Apart) {p : Place} (hp : p ∈ n.places) :
    n.view p.slots = some p.node.entry := by
  rcases exists_of_mem_placesFrom hp with ⟨nodes, hlineage, hat⟩
  rw [view, Place.slots, path_of_lineage hlineage, hat h]
  rfl

theorem exists_place_of_view {n : Node} {path : List Slot} {e : Entry} (h : n.view path = some e) :
    ∃ p ∈ n.places, p.slots = path ∧ p.node.entry = e := by
  rw [view, Option.map_eq_some_iff] at h
  rcases h with ⟨m, hat, rfl⟩
  rcases exists_place_of_at? hat [] with ⟨p, hp, rfl, nodes, hlineage, hpath⟩
  exact ⟨p, hp, by rw [Place.slots, path_of_lineage hlineage, hpath], rfl⟩

/-- The slots on the way to a place, from the place up. -/
theorem Apart.nodup_lineages {n : Node} (h : n.Apart) (above : List Node) :
    ((n.placesFrom above).map fun p => p.lineage.map (·.parameter.slot)).Nodup := by
  induction n using Node.induction generalizing above with
  | step n ih =>
    rcases n with ⟨data, children⟩
    have hbelow : ∀ c p, p ∈ placesFrom (⟨data, children⟩ :: above) c →
        ∃ path : List Slot, p.lineage.map (·.parameter.slot) =
          path ++ c.parameter.slot :: data.parameter.slot :: above.map (·.parameter.slot) := by
      intro c p hp
      rcases exists_of_mem_placesFrom hp with ⟨nodes, hlineage, -⟩
      exact ⟨nodes.reverse.map (·.parameter.slot), by simp [hlineage]⟩
    rw [placesFrom, placesBelow_eq_flatMap, List.map_cons, List.map_flatMap, List.nodup_cons,
      List.nodup_flatMap]
    refine ⟨?_, ?_, ?_⟩
    · -- The ways to what is below are longer.
      intro hmem
      rcases List.mem_flatMap.1 hmem with ⟨c, -, hmap⟩
      rcases List.mem_map.1 hmap with ⟨p, hp, heq⟩
      rcases hbelow c p hp with ⟨path, hpath⟩
      have hlength := congrArg List.length (hpath.symm.trans heq)
      simp [Place.lineage] at hlength
      omega
    · intro c hc
      exact ih c hc (h.child hc) _
    · -- The ways to what is below two siblings differ in the slots of these.
      have hnodup : children.Nodup := h.nodup.of_map _
      refine hnodup.imp_of_mem ?_
      intro c d hc hd hne way hcway hdway
      rcases List.mem_map.1 hcway with ⟨p, hp, rfl⟩
      rcases List.mem_map.1 hdway with ⟨q, hq, heq⟩
      rcases hbelow c p hp with ⟨path, hpath⟩
      rcases hbelow d q hq with ⟨path', hpath'⟩
      rw [hpath, hpath'] at heq
      have hslots := (List.append_inj' heq (by simp)).2
      have hslot : d.parameter.slot = c.parameter.slot := by simpa using (List.cons.inj hslots).1
      exact hne (List.inj_on_of_nodup_map h.nodup hc hd hslot.symm)

/-- Places of a tree whose siblings are in slots of their own have paths of their own. -/
theorem Apart.nodup_paths {n : Node} (h : n.Apart) : (n.places.map Place.slots).Nodup := by
  have hlineages := h.nodup_lineages []
  have hslots : n.places.map Place.slots =
      (n.places.map fun p => p.lineage.map (·.parameter.slot)).map fun way => way.dropLast.reverse := by
    simp [Place.slots, Place.path, Function.comp_def, List.map_dropLast]
  rw [hslots]
  refine hlineages.map_on ?_
  intro way hway way' hway' heq
  rcases List.mem_map.1 hway with ⟨p, hp, rfl⟩
  rcases List.mem_map.1 hway' with ⟨q, hq, rfl⟩
  rcases exists_of_mem_placesFrom hp with ⟨nodes, hlineage, -⟩
  rcases exists_of_mem_placesFrom hq with ⟨nodes', hlineage', -⟩
  simpa [hlineage, hlineage'] using heq

end Node

end CommandLanguage

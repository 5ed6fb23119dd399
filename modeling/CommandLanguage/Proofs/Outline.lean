import CommandLanguage.Proofs.View

/-!
# The outline of a grammar

What is at each path of the tree of a grammar that can be built, told by the usages of the grammar
alone (`Grammar.Outlined`, `Grammar.Reachable.outlined`). There is something at a path if a way of
typing some usage goes along it, and it is about the parameter of the first such way, in the order
in which the usages were inserted. In each role it holds the preferred one of the usages that end
there (`NumberedUsage.Precedes`): as a terminal the one with the fewest parameters, and of these the
last; as a fallback the last.
-/

namespace CommandLanguage

/-! ## Usages that end at a path -/

/-- Whether a node at which two usages end holds the first of them rather than the second. -/
def NumberedUsage.Precedes (role : Role) (u v : NumberedUsage) : Prop :=
  match role with
  | .terminal =>
    u.usage.parameters.length < v.usage.parameters.length ∨
      u.usage.parameters.length = v.usage.parameters.length ∧ v.number ≤ u.number
  | .fallback => v.number ≤ u.number

/-- Whether a usage ends at a path, in a role. -/
structure EndsAt (usages : List Usage) (role : Role) (path : List Slot) (u : NumberedUsage) :
    Prop where
  listed : usages[u.number]? = some u.usage
  role_eq : u.usage.role = role
  way : ∃ e ∈ u.usage.ways, path = slots e

namespace NumberedUsage.Precedes

variable {role : Role} {u v w : NumberedUsage}

theorem refl (role : Role) (u : NumberedUsage) : u.Precedes role u := by
  cases role with
  | terminal => exact .inr ⟨rfl, Nat.le_refl _⟩
  | fallback => exact Nat.le_refl _

theorem trans (huv : u.Precedes role v) (hvw : v.Precedes role w) : u.Precedes role w := by
  cases role with
  | terminal =>
    simp only [Precedes] at *
    omega
  | fallback => exact Nat.le_trans hvw huv

theorem number_eq (huv : u.Precedes role v) (hvu : v.Precedes role u) : u.number = v.number := by
  cases role with
  | terminal =>
    simp only [Precedes] at *
    omega
  | fallback => exact Nat.le_antisymm hvu huv

end NumberedUsage.Precedes

namespace EndsAt

variable {usages : List Usage} {u : Usage} {role : Role} {path : List Slot} {v w : NumberedUsage}

/-- A usage is determined by its number. -/
theorem eq_of_number (hv : EndsAt usages role path v) (hw : EndsAt usages role path w)
    (h : v.number = w.number) : v = w := by
  rcases v with ⟨number, usage⟩
  rcases w with ⟨number', usage'⟩
  obtain rfl : number = number' := h
  have heq : some usage = some usage' := hv.listed.symm.trans hw.listed
  rw [Option.some.inj heq]

theorem number_lt (h : EndsAt usages role path v) : v.number < usages.length :=
  (List.getElem?_eq_some_iff.1 h.listed).1

/-- With one more usage, those that end at a path are the ones before, and perhaps the new one. -/
theorem append_iff :
    EndsAt (usages ++ [u]) role path v ↔
      EndsAt usages role path v ∨
        v = ⟨usages.length, u⟩ ∧ u.role = role ∧ ∃ e ∈ u.ways, path = slots e := by
  constructor
  · rintro ⟨hlisted, hrole, hway⟩
    rcases Nat.lt_or_ge v.number usages.length with hlt | hge
    · rw [List.getElem?_append_left hlt] at hlisted
      exact .inl ⟨hlisted, hrole, hway⟩
    · rw [List.getElem?_append_right hge] at hlisted
      rcases List.getElem?_eq_some_iff.1 hlisted with ⟨hlt, heq⟩
      have hnumber : v.number = usages.length := by
        simp only [List.length_singleton] at hlt
        omega
      have husage : u = v.usage := by simpa using heq
      subst husage
      exact .inr ⟨by rw [← hnumber], hrole, hway⟩
  · rintro (⟨hlisted, hrole, hway⟩ | ⟨rfl, hrole, hway⟩)
    · rcases List.getElem?_eq_some_iff.1 hlisted with ⟨hlt, -⟩
      exact ⟨by rw [List.getElem?_append_left hlt]; exact hlisted, hrole, hway⟩
    · exact ⟨by simp, hrole, hway⟩

end EndsAt

/-! ## What entries hold -/

namespace Entry

/-- The usage that an entry holds in a role. -/
def held? (e : Entry) : Role → Option NumberedUsage
  | .terminal => e.terminal
  | .fallback => e.fallback

/-- An entry at which a usage ends holds what it held, or the usage. In the role of the usage it
holds the preferred one. -/
theorem held?_receive {u : NumberedUsage} {e : Entry} {role : Role}
    (hnumber : ∀ v ∈ e.held? role, v.number < u.number) :
    u.usage.role ≠ role ∧ (e.receive u).held? role = e.held? role ∨
      u.usage.role = role ∧ ∃ v, (e.receive u).held? role = some v ∧
        (v = u ∨ e.held? role = some v) ∧ v.Precedes role u ∧
          ∀ w ∈ e.held? role, v.Precedes role w := by
  unfold receive
  by_cases hdefault : u.usage.isDefault
  · rw [if_pos hdefault]
    cases role with
    | terminal => exact .inl ⟨by simp [Usage.role, hdefault], rfl⟩
    | fallback =>
      refine .inr ⟨by simp [Usage.role, hdefault], u, rfl, .inl rfl, .refl _ u, ?_⟩
      intro w hw
      exact Nat.le_of_lt (hnumber w hw)
  · rw [if_neg hdefault]
    cases role with
    | fallback => exact .inl ⟨by simp [Usage.role, hdefault], rfl⟩
    | terminal =>
      refine .inr ⟨by simp [Usage.role, hdefault], u.settle e.terminal, rfl, ?_⟩
      cases hheld : e.terminal with
      | none => exact ⟨.inl rfl, .refl _ u, by simp [held?, hheld]⟩
      | some v =>
        have hlt : v.number < u.number := hnumber v hheld
        by_cases hkeep : v.number = u.number ∨
            v.usage.parameters.length < u.usage.parameters.length
        · have hsettle : u.settle (some v) = v := by simp [NumberedUsage.settle, hkeep]
          rw [hsettle]
          have hfewer := hkeep.resolve_left (Nat.ne_of_lt hlt)
          exact ⟨.inr hheld, .inl hfewer, by simpa [held?, hheld] using NumberedUsage.Precedes.refl _ v⟩
        · have hsettle : u.settle (some v) = u := by simp [NumberedUsage.settle, hkeep]
          rw [hsettle]
          refine ⟨.inl rfl, .refl _ u, ?_⟩
          intro w hw
          obtain rfl : v = w := by simpa [held?, hheld] using hw
          simp only [NumberedUsage.Precedes]
          omega

/-- Whether an entry at a path holds the preferred ones of the usages that end there. -/
structure Settled (usages : List Usage) (path : List Slot) (e : Entry) : Prop where
  held : ∀ {role v}, e.held? role = some v →
    EndsAt usages role path v ∧ ∀ w, EndsAt usages role path w → v.Precedes role w
  free : ∀ {role}, e.held? role = none → ∀ v, ¬EndsAt usages role path v

namespace Settled

variable {usages : List Usage} {path : List Slot} {e : Entry} {u : Usage}

theorem held?_eq_some_iff (h : e.Settled usages path) (role : Role) {v : NumberedUsage} :
    e.held? role = some v ↔
      EndsAt usages role path v ∧ ∀ w, EndsAt usages role path w → v.Precedes role w := by
  constructor
  · exact h.held
  · rintro ⟨hv, hfirst⟩
    cases hheld : e.held? role with
    | none => exact absurd hv (h.free hheld v)
    | some w =>
      rcases h.held hheld with ⟨hw, hfirst'⟩
      rw [hw.eq_of_number hv ((hfirst' v hv).number_eq (hfirst w hw))]

theorem held?_isSome_iff (h : e.Settled usages path) (role : Role) :
    (e.held? role).isSome = true ↔ ∃ v, EndsAt usages role path v := by
  cases hheld : e.held? role with
  | none => simpa using h.free hheld
  | some v => simpa using ⟨v, (h.held hheld).1⟩

/-- A usage that does not end at a path changes nothing there. -/
theorem append_of_not (h : e.Settled usages path) (hu : ¬∃ ps ∈ u.ways, path = slots ps) :
    e.Settled (usages ++ [u]) path := by
  have hends : ∀ {role v}, EndsAt (usages ++ [u]) role path v ↔ EndsAt usages role path v := by
    intro role v
    rw [EndsAt.append_iff]
    exact or_iff_left fun hnew => hu hnew.2.2
  constructor
  · intro role v hheld
    simpa only [hends] using h.held hheld
  · intro role hheld
    simpa only [hends] using h.free hheld

/-- A usage that ends at a path is received there. -/
theorem receive (h : e.Settled usages path) (hu : ∃ ps ∈ u.ways, path = slots ps) :
    (e.receive ⟨usages.length, u⟩).Settled (usages ++ [u]) path := by
  have hnumber : ∀ role, ∀ v ∈ e.held? role, v.number < usages.length := by
    intro role v hv
    exact (h.held hv).1.number_lt
  constructor
  · intro role v hv
    rcases held?_receive (u := ⟨usages.length, u⟩) (hnumber role) with ⟨hrole, hsame⟩ | ⟨hrole, v', hv', horigin, hnew, hold⟩
    · rw [hsame] at hv
      rcases h.held hv with ⟨hends, hfirst⟩
      refine ⟨EndsAt.append_iff.2 (.inl hends), ?_⟩
      intro w hw
      rcases EndsAt.append_iff.1 hw with hw | ⟨-, hrole', -⟩
      · exact hfirst w hw
      · exact absurd hrole' hrole
    · obtain rfl : v' = v := by simpa [hv'] using hv
      refine ⟨?_, ?_⟩
      · rcases horigin with rfl | hheld
        · exact EndsAt.append_iff.2 (.inr ⟨rfl, hrole, hu⟩)
        · exact EndsAt.append_iff.2 (.inl (h.held hheld).1)
      · intro w hw
        rcases EndsAt.append_iff.1 hw with hw | ⟨rfl, -, -⟩
        · -- What ended there before comes after what was held.
          rcases Option.isSome_iff_exists.1 ((h.held?_isSome_iff role).2 ⟨w, hw⟩) with ⟨x, hx⟩
          exact (hold x hx).trans ((h.held hx).2 w hw)
        · exact hnew
  · intro role hfree w hw
    rcases held?_receive (u := ⟨usages.length, u⟩) (hnumber role) with ⟨hrole, hsame⟩ | ⟨hrole, v', hv', -⟩
    · rw [hsame] at hfree
      rcases EndsAt.append_iff.1 hw with hw | ⟨-, hrole', -⟩
      · exact h.free hfree w hw
      · exact hrole hrole'
    · simp [hv'] at hfree

end Settled

end Entry

/-! ## Outlines -/

namespace Grammar

/-- Whether the tree of a grammar is what its usages tell. -/
structure Outlined (g : Grammar) : Prop where
  apart : g.root.Apart
  /-- A node is about the parameter of the first way along its path. -/
  parameter : ∀ {path}, path ≠ [] → (g.root.view path).map Entry.parameter =
    (g.usages.flatMap Usage.ways).findSome? (through? path)
  settled : ∀ {path e}, g.root.view path = some e → e.Settled g.usages path
  /-- A permission that a parameter declares is that of its node. -/
  permission : ∀ {path e x}, g.root.view path = some e → e.parameter.permission = some x →
    e.permission = some x

theorem outlined_new (root : Parameter) : (new root).Outlined where
  apart := .leaf 0 root
  parameter := by
    intro path hpath
    simp [new, Node.view_leaf, hpath]
  settled := by
    intro path e he
    have hnone : ∀ role, e.held? role = none := by
      intro role
      rw [new, Node.view_leaf] at he
      split at he
      · obtain rfl := Option.some.inj he
        cases role <;> rfl
      · cases he
    constructor
    · intro role v hv
      simp [hnone] at hv
    · intro role _ v hv
      simpa [new] using hv.listed
  permission := by
    intro path e x he hx
    rw [new, Node.view_leaf] at he
    split at he
    · obtain rfl := Option.some.inj he
      exact hx
    · cases he

/-- At a path there is something if a way of typing a usage goes along it. -/
theorem Outlined.view_isSome_iff {g : Grammar} (hg : g.Outlined) {path : List Slot}
    (hpath : path ≠ []) :
    (g.root.view path).isSome = true ↔ ∃ u ∈ g.usages, ∃ e ∈ u.ways, path <+: slots e := by
  have hparameter := congrArg Option.isSome (hg.parameter hpath)
  rw [Option.isSome_map] at hparameter
  rw [hparameter, List.findSome?_isSome_iff]
  constructor
  · rintro ⟨e, he, hthrough⟩
    rcases List.mem_flatMap.1 he with ⟨u, hu, hway⟩
    exact ⟨u, hu, e, hway, (through?_isSome_iff.1 hthrough).2⟩
  · rintro ⟨u, hu, e, hway, hprefix⟩
    exact ⟨e, List.mem_flatMap.2 ⟨u, hu, hway⟩, through?_isSome_iff.2 ⟨hpath, hprefix⟩⟩

theorem Outlined.view_isSome_of_endsAt {g : Grammar} (hg : g.Outlined) {role : Role}
    {path : List Slot} {v : NumberedUsage} (hv : EndsAt g.usages role path v) :
    (g.root.view path).isSome = true := by
  by_cases hpath : path = []
  · rw [hpath, Node.view_nil]
    rfl
  · rcases hv.way with ⟨e, he, rfl⟩
    have hmem : v.usage ∈ g.usages := List.mem_of_getElem? hv.listed
    exact (hg.view_isSome_iff hpath).2 ⟨v.usage, hmem, e, he, List.prefix_refl _⟩

/-- Inserting a usage keeps a tree what the usages tell. -/
theorem Outlined.insert {g g' : Grammar} {u : Usage} {number : Nat} (hg : g.Outlined)
    (h : g.insert u = .ok (number, g')) : g'.Outlined := by
  rcases insert_cases h with rfl | ⟨hu, husages, next, hgrow⟩
  · exact hg
  · have hextends : Node.Extends (Entry.receive ⟨g.usages.length, u⟩) u.ways g.root g'.root :=
      grow_law (Node.extends_law _) (fun n _ => Node.receive_extends _ n) hu hgrow
    have hreceive := Entry.receive_receive ⟨g.usages.length, u⟩
    refine ⟨hextends.apart hg.apart, ?_, ?_, ?_⟩
    · intro path hpath
      rw [hextends.map_parameter hreceive (Entry.parameter_receive _), hg.parameter hpath, husages,
        List.flatMap_append, List.findSome?_append]
      simp
    · intro path e' he'
      rcases hextends.origin hreceive he' with ⟨e, horigin, rfl⟩
      have hsettled : e.Settled g.usages path := by
        rcases horigin with hold | ⟨hnone, p, rfl⟩
        · exact hg.settled hold
        · constructor
          · intro role v hv
            cases role <;> cases hv
          · intro role _ v hv
            have hsome := hg.view_isSome_of_endsAt hv
            simp [hnone] at hsome
      rw [husages]
      split
      · rename_i hends
        exact hsettled.receive hends
      · rename_i hends
        exact hsettled.append_of_not hends
    · intro path e' x he'
      rcases hextends.origin hreceive he' with ⟨e, horigin, rfl⟩
      have hpermission : e.parameter.permission = some x → e.permission = some x := by
        rcases horigin with hold | ⟨-, p, rfl⟩
        · exact hg.permission hold
        · exact id
      split
      · rw [Entry.parameter_receive, Entry.permission_receive]
        exact hpermission
      · exact hpermission

/-- Giving permissions keeps a tree what the usages tell. -/
theorem Outlined.assignPermissions {g : Grammar} (hg : g.Outlined) (delimiter : String) :
    (g.assignPermissions delimiter).Outlined := by
  have hroot := g.repermitted_assignPermissions delimiter
  refine ⟨hroot.apart hg.apart, ?_, ?_, ?_⟩
  · intro path hpath
    rcases hroot.view path with ⟨own, hview⟩
    rw [hview, Option.map_map]
    exact hg.parameter hpath
  · intro path e' he'
    rcases hroot.view path with ⟨own, hview⟩
    rw [hview, Option.map_eq_some_iff] at he'
    rcases he' with ⟨e, he, rfl⟩
    have hsettled := hg.settled he
    have hheld : ∀ role, Entry.held? { e with permission := some (e.permission.getD own) } role =
        e.held? role := by
      intro role
      cases role <;> rfl
    constructor
    · intro role v hv
      exact hsettled.held (by rw [← hheld]; exact hv)
    · intro role hfree
      exact hsettled.free (by rw [← hheld]; exact hfree)
  · intro path e' x he' hx
    rcases hroot.view path with ⟨own, hview⟩
    rw [hview, Option.map_eq_some_iff] at he'
    rcases he' with ⟨e, he, rfl⟩
    simp [hg.permission he hx]

/-- **Outlines.** The tree of every grammar that can be built is what its usages tell. -/
theorem Reachable.outlined {root : Parameter} {g : Grammar} (h : Reachable root g) :
    g.Outlined := by
  induction h with
  | new => exact outlined_new root
  | insert _ hinsert ih => exact ih.insert hinsert
  | assignPermissions delimiter _ ih => exact ih.assignPermissions delimiter

end Grammar

end CommandLanguage

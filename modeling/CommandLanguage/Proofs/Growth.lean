import CommandLanguage.Proofs.GrowthLaw

/-!
# How trees grow

What a tree is like after a usage has been inserted. All that was in the tree is still there, each
way of typing the usage leads to a node that holds a usage in its role, and a node holds nothing
that it did not hold before but the new usage at the end of one of these ways (`Node.Grown`).

Growing so is a law of growth (`Node.grown_law`), so whatever makes a tree grow does it so.
-/

namespace CommandLanguage

/-! ## What nodes hold -/

/-- What a node holds a usage as. -/
inductive Role where
  | terminal
  | fallback
deriving DecidableEq

/-- What a node holds, with another usage in a role. -/
def NodeData.hold (role : Role) (held : Option NumberedUsage) (data : NodeData) : NodeData :=
  match role with
  | .terminal => { data with terminal := held }
  | .fallback => { data with fallback := held }

namespace Node

/-- The usage that a node holds in a role. -/
def held? (n : Node) : Role → Option NumberedUsage
  | .terminal => n.terminal
  | .fallback => n.fallback

/-- In the other role a node holds what it held before. -/
theorem held?_hold_of_ne {n : Node} {held : Option NumberedUsage} {role r : Role} (h : r ≠ role) :
    { n with toNodeData := n.hold role held }.held? r = n.held? r := by
  cases role with
  | terminal =>
    cases r with
    | terminal => exact absurd rfl h
    | fallback => rfl
  | fallback =>
    cases r with
    | terminal => rfl
    | fallback => exact absurd rfl h

/-- Whether a node has become another that holds usages in the same roles, and perhaps in more. -/
structure Becomes (n n' : Node) : Prop where
  parameter : n'.parameter = n.parameter
  held : ∀ role, (n.held? role).isSome = true → (n'.held? role).isSome = true

theorem Becomes.refl (n : Node) : n.Becomes n :=
  ⟨rfl, fun _ h => h⟩

theorem Becomes.trans {n n' n'' : Node} (h : n.Becomes n') (h' : n'.Becomes n'') :
    n.Becomes n'' :=
  ⟨h'.parameter.trans h.parameter, fun role hheld => h'.held role (h.held role hheld)⟩

/-- Whether a tree has grown by paths whose ends hold a usage in a role. -/
structure Grown (role : Role) (u : NumberedUsage) (paths : List (List Parameter)) (n n' : Node) :
    Prop where
  kept : ∀ {ps m}, n.Leads ps m → ∃ m', n'.Leads ps m' ∧ m.Becomes m'
  reached : ∀ ps ∈ paths, ∃ m', n'.Leads ps m' ∧ (m'.held? role).isSome = true
  origin : ∀ {ps m' r v}, n'.Leads ps m' → m'.held? r = some v →
    (∃ m, n.Leads ps m ∧ m.held? r = some v) ∨
      r = role ∧ v = u ∧ ∃ qs ∈ paths, slots ps = slots qs

namespace Grown

variable {role : Role} {u : NumberedUsage} {paths paths' : List (List Parameter)} {n n' n'' : Node}

/-- A tree that has grown still is about the same parameter. -/
theorem becomes (h : Grown role u paths n n') : n.Becomes n' := by
  rcases h.kept .here with ⟨m', hleads, hbecomes⟩
  obtain rfl := leads_nil_iff.1 hleads
  exact hbecomes

theorem refl (role : Role) (u : NumberedUsage) (n : Node) : Grown role u [] n n where
  kept := fun {_ m} hleads => ⟨m, hleads, .refl m⟩
  reached := by simp
  origin := fun hleads hheld => .inl ⟨_, hleads, hheld⟩

theorem trans (h : Grown role u paths n n') (h' : Grown role u paths' n' n'') :
    Grown role u (paths ++ paths') n n'' where
  kept := by
    intro ps m hleads
    rcases h.kept hleads with ⟨m', hleads', hbecomes⟩
    rcases h'.kept hleads' with ⟨m'', hleads'', hbecomes'⟩
    exact ⟨m'', hleads'', hbecomes.trans hbecomes'⟩
  reached := by
    intro ps hps
    rcases List.mem_append.1 hps with hps | hps
    · rcases h.reached ps hps with ⟨m', hleads, hheld⟩
      rcases h'.kept hleads with ⟨m'', hleads', hbecomes⟩
      exact ⟨m'', hleads', hbecomes.held role hheld⟩
    · exact h'.reached ps hps
  origin := by
    intro ps m'' r v hleads hheld
    rcases h'.origin hleads hheld with ⟨m', hleads', hheld'⟩ | ⟨hr, hv, qs, hqs, hslots⟩
    · rcases h.origin hleads' hheld' with hold | ⟨hr, hv, qs, hqs, hslots⟩
      · exact .inl hold
      · exact .inr ⟨hr, hv, qs, List.mem_append_left _ hqs, hslots⟩
    · exact .inr ⟨hr, hv, qs, List.mem_append_right _ hqs, hslots⟩

/-- A node that has only come to hold a usage. -/
theorem here (hparameter : n'.parameter = n.parameter) (hchildren : n'.children = n.children)
    (hothers : ∀ r, r ≠ role → n'.held? r = n.held? r)
    (hheld : n'.held? role = some u ∨
      n'.held? role = n.held? role ∧ (n.held? role).isSome = true) :
    Grown role u [[]] n n' where
  kept := by
    intro ps m hleads
    by_cases hps : ps = []
    · subst hps
      obtain rfl := leads_nil_iff.1 hleads
      refine ⟨n', .here, hparameter, ?_⟩
      intro r hr
      by_cases hrole : r = role
      · subst hrole
        rcases hheld with hnew | ⟨hold, hsome⟩
        · simp [hnew]
        · rw [hold]
          exact hsome
      · rw [hothers r hrole]
        exact hr
    · exact ⟨m, hleads.of_children_eq hps hchildren, .refl m⟩
  reached := by
    intro ps hps
    obtain rfl : ps = [] := by simpa using hps
    refine ⟨n', .here, ?_⟩
    rcases hheld with hnew | ⟨hold, hsome⟩
    · simp [hnew]
    · rw [hold]
      exact hsome
  origin := by
    intro ps m' r v hleads hv
    by_cases hps : ps = []
    · subst hps
      obtain rfl := leads_nil_iff.1 hleads
      by_cases hrole : r = role
      · subst hrole
        rcases hheld with hnew | ⟨hold, -⟩
        · exact .inr ⟨rfl, by simpa [hnew] using hv.symm, [], by simp, rfl⟩
        · exact .inl ⟨n, .here, by rw [← hold]; exact hv⟩
      · exact .inl ⟨n, .here, by rw [← hothers r hrole]; exact hv⟩
    · exact .inl ⟨m', hleads.of_children_eq hps hchildren.symm, hv⟩

/-- A node one of whose children has grown, perhaps after it has been made. -/
theorem child {c c' : Node} {p : Parameter} (hgrown : Grown role u paths c c')
    (hparameter : n'.parameter = n.parameter) (hheld : ∀ r, n'.held? r = n.held? r)
    (hstands : c.StandsFor p) (hmem : c' ∈ n'.children)
    (hkept : ∀ d ∈ n.children, d ∈ n'.children ∨ d = c)
    (hnew : ∀ d ∈ n'.children, d ∈ n.children ∨ d = c')
    (hbase : c ∈ n.children ∨ ∀ ps m r, c.Leads ps m → m.held? r = none) :
    Grown role u (paths.map (p :: ·)) n n' where
  kept := by
    intro ps m hleads
    cases hleads with
    | here => exact ⟨n', .here, hparameter, fun r hr => by rw [hheld r]; exact hr⟩
    | @down _ d _ q ps hd hq hrest =>
      rcases hkept d hd with hd' | rfl
      · exact ⟨m, .down hd' hq hrest, .refl m⟩
      · rcases hgrown.kept hrest with ⟨m', hleads', hbecomes⟩
        have hq' : c'.StandsFor q := hq.of_parameter_eq hgrown.becomes.parameter
        exact ⟨m', .down hmem hq' hleads', hbecomes⟩
  reached := by
    intro ps hps
    rcases List.mem_map.1 hps with ⟨qs, hqs, rfl⟩
    rcases hgrown.reached qs hqs with ⟨m', hleads, hm'⟩
    have hp : c'.StandsFor p := hstands.of_parameter_eq hgrown.becomes.parameter
    exact ⟨m', .down hmem hp hleads, hm'⟩
  origin := by
    intro ps m' r v hleads hv
    cases hleads with
    | here => exact .inl ⟨n, .here, by rw [← hheld r]; exact hv⟩
    | @down _ d _ q ps hd hq hrest =>
      rcases hnew d hd with hd' | rfl
      · exact .inl ⟨m', .down hd' hq hrest, hv⟩
      · rcases hgrown.origin hrest hv with ⟨m, hm, hmv⟩ | ⟨hr, hvu, qs, hqs, hslots⟩
        · have hq' : c.StandsFor q := hq.of_parameter_eq hgrown.becomes.parameter.symm
          rcases hbase with hc | hbare
          · exact .inl ⟨m, .down hc hq' hm, hmv⟩
          · simp [hbare ps m r hm] at hmv
        · -- The parameter on the way is in the slot of `p`, since the child stands for both.
          have hslot : q.slot = p.slot := by
            rw [← hq.slot, hgrown.becomes.parameter, hstands.slot]
          exact .inr ⟨hr, hvu, p :: qs, List.mem_map_of_mem hqs, by simp [hslot, hslots]⟩

end Grown

/-! ## Siblings -/

theorem mem_insertSibling_iff {c d : Node} {ss : List Node} :
    d ∈ insertSibling c ss ↔ d = c ∨ d ∈ ss := by
  induction ss with
  | nil => simp [insertSibling]
  | cons s ss ih =>
    rw [insertSibling]
    split
    · simp
    · rw [List.mem_cons, ih, List.mem_cons]
      exact or_left_comm

theorem mem_or_eq_of_mem_replaceSibling {p : Parameter} {c d : Node} {ss : List Node}
    (h : d ∈ replaceSibling p c ss) : d ∈ ss ∨ d = c := by
  induction ss with
  | nil => simp [replaceSibling] at h
  | cons s ss ih =>
    rw [replaceSibling] at h
    split at h
    · rcases List.mem_cons.1 h with rfl | h
      · exact .inr rfl
      · exact .inl (List.mem_cons_of_mem _ h)
    · rcases List.mem_cons.1 h with rfl | h
      · exact .inl List.mem_cons_self
      · rcases ih h with h | rfl
        · exact .inl (List.mem_cons_of_mem _ h)
        · exact .inr rfl

/-- Replacing the sibling in a slot takes away that one alone, and puts another in its place. -/
theorem mem_replaceSibling {p : Parameter} {c s : Node} {ss : List Node}
    (h : ss.find? (·.parameter.sameSlot p) = some s) :
    c ∈ replaceSibling p c ss ∧ ∀ d ∈ ss, d ∈ replaceSibling p c ss ∨ d = s := by
  induction ss with
  | nil => simp at h
  | cons s' ss ih =>
    rw [replaceSibling]
    rw [List.find?_cons] at h
    split
    · rename_i hslot
      obtain rfl : s' = s := by simpa [hslot] using h
      refine ⟨List.mem_cons_self, ?_⟩
      intro d hd
      rcases List.mem_cons.1 hd with rfl | hd
      · exact .inr rfl
      · exact .inl (List.mem_cons_of_mem _ hd)
    · rename_i hslot
      rcases ih (by simpa [hslot] using h) with ⟨hmem, hothers⟩
      refine ⟨List.mem_cons_of_mem _ hmem, ?_⟩
      intro d hd
      rcases List.mem_cons.1 hd with rfl | hd
      · exact .inl List.mem_cons_self
      · rcases hothers d hd with hd | rfl
        · exact .inl (List.mem_cons_of_mem _ hd)
        · exact .inr rfl

/-! ## Growing is a law -/

/-- A new node leads nowhere and holds nothing. -/
theorem held?_leaf {id : Nat} {p : Parameter} {ps : List Parameter} {m : Node} {r : Role}
    (h : (leaf id p).Leads ps m) : m.held? r = none := by
  cases h with
  | here => cases r <;> rfl
  | down hmem => simp [leaf] at hmem

/-- The child in the slot of a parameter is in its slot. -/
theorem slot_of_child? {n c : Node} {p : Parameter} (h : n.child? p = some c) :
    c.parameter.slot = p.slot :=
  Parameter.sameSlot_iff_slot_eq.1 (by simpa using List.find?_some h)

/-- A tree grows if one of its children does, whether that child has to be made or not. -/
theorem grown_law (role : Role) (u : NumberedUsage) :
    Growth.Law fun paths s s' => Grown role u paths s.1 s'.1 where
  refl s := .refl role u s.1
  trans h h' := h.trans h'
  replace := by
    intro paths p n c c' next next' _ hchild hgreedy hc
    rcases mem_replaceSibling (c := c') hchild with ⟨hmem, hkept⟩
    have hstands : c.StandsFor p :=
      ⟨slot_of_child? hchild, fun hargument hp => (hgreedy hargument).trans hp⟩
    exact hc.child rfl (fun r => by cases r <;> rfl) hstands hmem hkept
      (fun d hd => mem_or_eq_of_mem_replaceSibling hd) (.inl (List.mem_of_find?_eq_some hchild))
  make := by
    intro paths p n c' next next' _ _ hc
    refine hc.child rfl (fun r => by cases r <;> rfl) (standsFor_parameter (leaf next p)) ?_ ?_ ?_
      (.inr fun ps m r hleads => held?_leaf hleads)
    · exact mem_insertSibling_iff.2 (.inl rfl)
    · intro d hd
      exact .inl (mem_insertSibling_iff.2 (.inr hd))
    · intro d hd
      exact (mem_insertSibling_iff.1 hd).symm

/-- Where a usage ends the tree grows by the empty path. -/
theorem bind_grown (u : NumberedUsage) (n : Node) : Grown .terminal u [[]] n (n.bind u) := by
  unfold bind
  split
  · rename_i held hterminal
    split
    · exact .here rfl rfl (fun _ _ => rfl) (.inr ⟨rfl, by simp [held?, hterminal]⟩)
    · exact .here rfl rfl (fun _ hr => held?_hold_of_ne hr) (.inl rfl)
  · exact .here rfl rfl (fun _ hr => held?_hold_of_ne hr) (.inl rfl)

theorem fall_grown (u : NumberedUsage) (n : Node) :
    Grown .fallback u [[]] n { n with fallback := some u } :=
  .here rfl rfl (fun _ hr => held?_hold_of_ne hr) (.inl rfl)

end Node

end CommandLanguage

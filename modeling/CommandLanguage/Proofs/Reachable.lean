import CommandLanguage.Declaration
import CommandLanguage.Proofs.Growth
import CommandLanguage.Tree.CommandTree

/-!
# Grammars that can be built

What holds of every grammar that is built from a root by inserting usages and giving permissions, in
any order (`Grammar.Reachable`). Its tree is *faithful* to its usages: each way of typing one of
them leads to a node that holds a usage in its role, and a node holds only usages that may be typed
along the way to it (`Grammar.Reachable.faithful`). Sealing keeps this, and lets nothing follow a
greedy node (`Grammar.Reachable.of_seal`).
-/

namespace CommandLanguage

/-! ## Usages -/

namespace Usage

/-- What the nodes at which a usage ends hold it as. -/
def role (u : Usage) : Role :=
  if u.isDefault then .fallback else .terminal

/-- The paths of a usage: its ways of typing, of which a default usage has one. -/
def ways (u : Usage) : List (List Parameter) :=
  if u.isDefault then [u.parameters] else expansions u.parameters

/-- Whether a usage may be inserted: nothing but its last parameter is greedy, and a default usage
has literals only. -/
structure WellFormed (u : Usage) : Prop where
  greedy : ∀ p ∈ u.parameters.dropLast, p.greedy = false
  literals : u.isDefault = true → ∀ p ∈ u.parameters, p.isLiteral = true

theorem wellFormed_of_fault?_eq_none {u : Usage} {command : String}
    (h : u.fault? command = none) : u.WellFormed := by
  obtain ⟨hgreedy, -, hargument⟩ : _ ∧ _ ∧ _ := by
    simpa only [fault?, Option.orElse_eq_orElse, Option.orElse_eq_or, Option.or_eq_none_iff,
      Option.map_eq_none_iff, and_assoc] using h
  constructor
  · intro p hp
    have hnot := List.find?_eq_none.1 hgreedy p (List.mem_reverse.2 hp)
    simpa using hnot
  · intro hdefault p hp
    rw [if_pos hdefault] at hargument
    have hnot := List.find?_eq_none.1 hargument p hp
    simpa using hnot

/-- A way of typing a usage has its required parameters, in order. -/
theorem required_of_mem_ways {u : Usage} {e : List Parameter} (h : e ∈ u.ways) :
    e.filter (·.isRequired) = u.parameters.filter (·.isRequired) := by
  unfold ways at h
  split at h
  · obtain rfl : e = u.parameters := by simpa using h
    rfl
  · exact required_of_mem_expansions h

/-- Leaving out flags and optional arguments is a way of typing a usage. -/
theorem WellFormed.chosen_mem_ways {u : Usage} (hu : u.WellFormed) {chosen : List Parameter}
    (h : Chosen u.parameters chosen) : chosen ∈ u.ways := by
  unfold ways
  split
  · rename_i hdefault
    have hrequired : ∀ p ∈ u.parameters, p.isOptional = false := by
      intro p hp
      exact Parameter.isOptional_of_isLiteral (hu.literals hdefault p hp)
    simp [h.eq_of_required hrequired]
  · exact h.mem_expansions

end Usage

/-! ## Trees and usages -/

/-- A node with a usage that ends there, held in its role. -/
def Node.receive (u : NumberedUsage) (n : Node) : Node :=
  if u.usage.isDefault then { n with fallback := some u } else n.bind u

theorem Node.receive_grown (u : NumberedUsage) (n : Node) :
    Node.Grown u.usage.role u [[]] n (n.receive u) := by
  unfold Usage.role receive
  split
  · exact fall_grown u n
  · exact bind_grown u n

namespace Grammar

/-- What holds of a node that receives a usage, and is kept by growth, holds of a tree into which the
usage is inserted, with its ways of typing as paths. -/
theorem grow_law {R : Node.Relation} (law : Node.Growth.Law R) {g : Grammar} {u : NumberedUsage}
    (hreceive : ∀ n next, R [[]] (n, next) (n.receive u, next)) (hu : u.usage.WellFormed)
    {s : Node × Nat} (h : g.grow u = .ok s) : R u.usage.ways (g.root, g.root.size) s := by
  unfold grow at h
  unfold Usage.ways
  unfold Node.receive at hreceive
  split at h
  · rename_i hdefault
    rw [if_pos hdefault]
    have harguments : ∀ p ∈ u.usage.parameters, p.isArgument = false := by
      intro p hp
      simp [Parameter.isArgument, hu.literals hdefault p hp]
    have hfall : ∀ {s s' : Node × Nat}, Node.fallHere u s.1 s.2 = .ok s' → R [[]] s s' := by
      intro s s' hs
      obtain rfl := Except.ok.inj hs
      simpa [hdefault] using hreceive s.1 s.2
    simpa using law.growPath (s := (g.root, g.root.size)) (by simp) harguments hfall h
  · rename_i hdefault
    rw [if_neg hdefault]
    refine law.insert (s := (g.root, g.root.size)) ?_ (fun _ hmem _ hp => ?_)
      (Segment.greedyLast_ofParameters hu.greedy) h
    · intro n next
      simpa [hdefault] using hreceive n next
    · exact Segment.isFlag_of_run_mem hmem hp

/-- A usage that is inserted makes the tree grow by its ways of typing. -/
theorem grow_grown {g : Grammar} {u : NumberedUsage} {root : Node} {next : Nat}
    (hu : u.usage.WellFormed) (h : g.grow u = .ok (root, next)) :
    Node.Grown u.usage.role u u.usage.ways g.root root :=
  grow_law (Node.grown_law u.usage.role u) (fun n _ => Node.receive_grown u n) hu h

/-- A usage without a fault is inserted: nothing becomes of the grammar if it has one of the same form,
else its tree grows. -/
theorem insert_eq_ok_iff {g g' : Grammar} {u : Usage} {number : Nat} :
    g.insert u = .ok (number, g') ↔ u.fault? g.command = none ∧
      (g.usages.findIdx? (·.sameForm u) = some number ∧ g' = g ∨
        g.usages.findIdx? (·.sameForm u) = none ∧ number = g.usages.length ∧
          g'.usages = g.usages ++ [u] ∧ ∃ next, g.grow ⟨g.usages.length, u⟩ = .ok (g'.root, next)) := by
  unfold Grammar.insert
  cases u.fault? g.command with
  | some e => simp
  | none =>
    cases g.usages.findIdx? (·.sameForm u) with
    | some known => simp [eq_comm]
    | none =>
      dsimp only
      rw [bind_eq_ok_iff]
      constructor
      · rintro ⟨⟨root, next⟩, hgrow, heq⟩
        obtain ⟨rfl, rfl⟩ := Prod.mk.inj (Except.ok.inj heq)
        exact ⟨rfl, .inr ⟨rfl, rfl, rfl, next, hgrow⟩⟩
      · rintro ⟨-, ⟨hfind, -⟩ | ⟨-, rfl, husages, next, hgrow⟩⟩
        · cases hfind
        · refine ⟨_, hgrow, ?_⟩
          rw [← husages]
          rfl

/-- What becomes of a grammar into which a usage is inserted: nothing if it has one of the same
form, else its tree grows. -/
theorem insert_cases {g g' : Grammar} {u : Usage} {number : Nat}
    (h : g.insert u = .ok (number, g')) :
    g' = g ∨ u.WellFormed ∧ g'.usages = g.usages ++ [u] ∧
      ∃ next, g.grow ⟨g.usages.length, u⟩ = .ok (g'.root, next) := by
  obtain ⟨hfault, ⟨-, rfl⟩ | ⟨-, -, husages, hgrow⟩⟩ := insert_eq_ok_iff.1 h
  · exact .inl rfl
  · exact .inr ⟨Usage.wellFormed_of_fault?_eq_none hfault, husages, hgrow⟩

/-- Whether the tree of a grammar is that of its usages. -/
structure Faithful (g : Grammar) : Prop where
  wellFormed : ∀ u ∈ g.usages, u.WellFormed
  reached : ∀ u ∈ g.usages, ∀ e ∈ u.ways,
    ∃ m, g.root.Leads e m ∧ (m.held? u.role).isSome = true
  origin : ∀ {ps m r u}, g.root.Leads ps m → m.held? r = some u →
    r = u.usage.role ∧ g.usages[u.number]? = some u.usage ∧
      ∃ e ∈ u.usage.ways, slots ps = slots e

theorem faithful_new (root : Parameter) : (new root).Faithful where
  wellFormed := by simp [new]
  reached := by simp [new]
  origin := by
    intro ps m r u hleads hheld
    simp [Node.held?_leaf hleads] at hheld

/-- Inserting a usage keeps a grammar faithful. -/
theorem Faithful.insert {g g' : Grammar} {u : Usage} {number : Nat} (hg : g.Faithful)
    (h : g.insert u = .ok (number, g')) : g'.Faithful := by
  rcases insert_cases h with rfl | ⟨hu, husages, next, hgrow⟩
  · exact hg
  · have hgrown := grow_grown hu hgrow
    refine ⟨?_, ?_, ?_⟩
    · intro v hv
      rw [husages] at hv
      rcases List.mem_append.1 hv with hv | hv
      · exact hg.wellFormed v hv
      · obtain rfl : v = u := by simpa using hv
        exact hu
    · intro v hv e he
      rw [husages] at hv
      rcases List.mem_append.1 hv with hv | hv
      · rcases hg.reached v hv e he with ⟨m, hleads, hheld⟩
        rcases hgrown.kept hleads with ⟨m', hleads', hbecomes⟩
        exact ⟨m', hleads', hbecomes.held _ hheld⟩
      · obtain rfl : v = u := by simpa using hv
        exact hgrown.reached e he
    · intro ps m' r v hleads hheld
      rw [husages]
      -- What a node holds it held before, or it is the new usage.
      rcases hgrown.origin hleads hheld with ⟨m, hm, hmv⟩ | ⟨hr, rfl, qs, hqs, hslots⟩
      · rcases hg.origin hm hmv with ⟨hr, hnumber, hway⟩
        rcases List.getElem?_eq_some_iff.1 hnumber with ⟨hlt, -⟩
        exact ⟨hr, by rw [List.getElem?_append_left hlt]; exact hnumber, hway⟩
      · exact ⟨hr, by simp, qs, hqs, hslots⟩

end Grammar

/-! ## Permissions -/

namespace Node

/-- Whether a tree is another with permissions given to its nodes: a node with a permission keeps it,
and so do those below it. -/
def Repermitted (n n' : Node) : Prop :=
  ∃ own delimiter base, n' =
    { n with
      permission := some (n.permission.getD own)
      children := permit.permitAll delimiter base n.children }

theorem permitAll_eq_map (delimiter base : String) (cs : List Node) :
    permit.permitAll delimiter base cs = cs.map (permit delimiter base) := by
  induction cs with
  | nil => rfl
  | cons c cs ih => simp [permit.permitAll, ih]

theorem repermitted_permit (delimiter base : String) (n : Node) :
    n.Repermitted (n.permit delimiter base) := by
  rcases n with ⟨data, children⟩
  exact ⟨_, delimiter, _, rfl⟩

namespace Repermitted

variable {n n' : Node}

theorem parameter (h : n.Repermitted n') : n'.parameter = n.parameter := by
  rcases h with ⟨own, delimiter, base, rfl⟩
  rfl

theorem held? (h : n.Repermitted n') (r : Role) : n'.held? r = n.held? r := by
  rcases h with ⟨own, delimiter, base, rfl⟩
  cases r <;> rfl

theorem isLeaf (h : n.Repermitted n') : n'.isLeaf = n.isLeaf := by
  rcases h with ⟨own, delimiter, base, rfl⟩
  simp [Node.isLeaf, permitAll_eq_map]

/-- What parameters lead to is still there. -/
theorem leads (h : n.Repermitted n') {ps : List Parameter} {m : Node} (hleads : n.Leads ps m) :
    ∃ m', n'.Leads ps m' ∧ m.Repermitted m' := by
  induction hleads generalizing n' with
  | here => exact ⟨n', .here, h⟩
  | @down n c m p ps hmem hstands hrest ih =>
    rcases h with ⟨own, delimiter, base, rfl⟩
    have hc := repermitted_permit delimiter base c
    rcases ih hc with ⟨m', hleads', hm'⟩
    have hmem' : c.permit delimiter base ∈ permit.permitAll delimiter base n.children := by
      rw [permitAll_eq_map]
      exact List.mem_map_of_mem hmem
    exact ⟨m', .down hmem' (hstands.of_parameter_eq hc.parameter) hleads', hm'⟩

/-- Parameters lead to nothing new. -/
theorem leads_back (h : n.Repermitted n') {ps : List Parameter} {m' : Node}
    (hleads : n'.Leads ps m') : ∃ m, n.Leads ps m ∧ m.Repermitted m' := by
  induction hleads generalizing n with
  | here => exact ⟨n, .here, h⟩
  | @down n' c' m' p ps hmem hstands hrest ih =>
    rcases h with ⟨own, delimiter, base, rfl⟩
    have hmem' : c' ∈ n.children.map (permit delimiter base) := by
      rw [← permitAll_eq_map]
      exact hmem
    rcases List.mem_map.1 hmem' with ⟨c, hc, rfl⟩
    have hpermitted := repermitted_permit delimiter base c
    rcases ih hpermitted with ⟨m, hleads, hm⟩
    exact ⟨m, .down hc (hstands.of_parameter_eq hpermitted.parameter.symm) hleads, hm⟩

end Repermitted

/-! ## Greedy nodes -/

/-- Whether nothing follows the greedy nodes below a node. -/
def GreedyEnds (n : Node) : Prop :=
  ∀ ps m, n.Leads ps m → m.isGreedy = true → m.isLeaf = true

theorem GreedyEnds.child {n c : Node} (h : n.GreedyEnds) (hmem : c ∈ n.children) :
    c.GreedyEnds :=
  fun _ m hleads hgreedy => h _ m (.down hmem c.standsFor_parameter hleads) hgreedy

theorem faultBelow?_eq_none_iff {command : String} {cs : List Node} :
    firstFault?.faultBelow? command cs = none ↔ ∀ c ∈ cs, c.firstFault? command = none := by
  induction cs with
  | nil => simp [firstFault?.faultBelow?]
  | cons c cs ih =>
    simp [firstFault?.faultBelow?, Option.or_eq_none_iff, ih, and_comm]

theorem firstFault?_eq_none_iff {command : String} {n : Node} :
    n.firstFault? command = none ↔
      n.fault? command = none ∧ ∀ c ∈ n.children, c.firstFault? command = none := by
  rcases n with ⟨data, children⟩
  rw [firstFault?, Option.orElse_eq_orElse, Option.orElse_eq_or, Option.or_eq_none_iff,
    faultBelow?_eq_none_iff]

/-- A tree without a fault has none at any node. -/
theorem fault?_of_leads {n m : Node} {command : String} {ps : List Parameter}
    (h : n.firstFault? command = none) (hleads : n.Leads ps m) : m.fault? command = none := by
  induction hleads with
  | here => exact (firstFault?_eq_none_iff.1 h).1
  | down hmem hstands hrest ih => exact ih ((firstFault?_eq_none_iff.1 h).2 _ hmem)

/-- In a tree without a fault nothing follows a greedy node. -/
theorem greedyEnds_of_firstFault? {n : Node} {command : String}
    (h : n.firstFault? command = none) : n.GreedyEnds := by
  intro ps m hleads hgreedy
  have hfault := fault?_of_leads h hleads
  unfold fault? at hfault
  split at hfault
  · cases hfault
  · rename_i hleaf
    simpa [hgreedy] using hleaf

end Node

/-! ## Reachable grammars -/

namespace Grammar

theorem repermitted_assignPermissions (g : Grammar) (delimiter : String) :
    g.root.Repermitted (g.assignPermissions delimiter).root :=
  ⟨_, delimiter, _, rfl⟩

/-- Giving permissions keeps a grammar faithful. -/
theorem Faithful.assignPermissions {g : Grammar} (hg : g.Faithful) (delimiter : String) :
    (g.assignPermissions delimiter).Faithful := by
  have hroot := g.repermitted_assignPermissions delimiter
  refine ⟨hg.wellFormed, ?_, ?_⟩
  · intro u hu e he
    rcases hg.reached u hu e he with ⟨m, hleads, hheld⟩
    rcases hroot.leads hleads with ⟨m', hleads', hm'⟩
    exact ⟨m', hleads', by rw [hm'.held?]; exact hheld⟩
  · intro ps m' r u hleads hheld
    rcases hroot.leads_back hleads with ⟨m, hm, hpermitted⟩
    exact hg.origin hm (by rw [← hpermitted.held?]; exact hheld)

/-- What every step keeps, a run of steps keeps. -/
theorem foldlM_invariant {ε α σ : Type} {step : σ → α → Except ε σ} {P : σ → Prop}
    (hstep : ∀ s x s', P s → step s x = .ok s' → P s') {xs : List α} {s s' : σ} (hs : P s)
    (h : xs.foldlM step s = .ok s') : P s' := by
  induction xs generalizing s with
  | nil =>
    obtain rfl : s = s' := Except.ok.inj h
    exact hs
  | cons x xs ih =>
    rw [List.foldlM_cons] at h
    rcases bind_eq_ok_iff.1 h with ⟨mid, hmid, hrest⟩
    exact ih (hstep s x mid hs hmid) hrest

/-- A grammar is sealed if it has no fault, with permissions given if the settings say so. -/
theorem seal_eq_ok_iff {g : Grammar} {settings : TreeSettings} {t : CommandTree} :
    g.seal settings = .ok t ↔ g.fault? = none ∧
      t = ⟨(if settings.autoPermissions then g.assignPermissions settings.permissionDelimiter
        else g).root, g.usages, FlagTable.ofUsages g.usages, settings⟩ := by
  unfold Grammar.seal
  cases g.fault? with
  | some e => simp
  | none => cases hauto : settings.autoPermissions <;> simp [Grammar.assignPermissions, eq_comm]

/-- A grammar that is not sealed is refused for its fault. -/
theorem seal_eq_error_iff {g : Grammar} {settings : TreeSettings} {e : GrammarError} :
    g.seal settings = .error e ↔ g.fault? = some e := by
  unfold Grammar.seal
  cases g.fault? <;> simp

/-- Whether a grammar can be built from a root. -/
inductive Reachable (root : Parameter) : Grammar → Prop where
  | new : Reachable root (new root)
  | insert {g g' : Grammar} {u : Usage} {number : Nat} :
      Reachable root g → g.insert u = .ok (number, g') → Reachable root g'
  | assignPermissions {g : Grammar} (delimiter : String) :
      Reachable root g → Reachable root (g.assignPermissions delimiter)

namespace Reachable

variable {root : Parameter} {g : Grammar}

/-- **Trees and usages.** The tree of every grammar that can be built is that of its usages. -/
theorem faithful (h : Reachable root g) : g.Faithful := by
  induction h with
  | new => exact faithful_new root
  | insert _ hinsert ih => exact ih.insert hinsert
  | assignPermissions delimiter _ ih => exact ih.assignPermissions delimiter

/-- The root of a grammar stays about the parameter that it was built from. -/
theorem root_parameter (h : Reachable root g) : g.root.parameter = root := by
  induction h with
  | new => rfl
  | insert _ hinsert ih =>
    rcases insert_cases hinsert with rfl | ⟨hu, -, next, hgrow⟩
    · exact ih
    · rw [(grow_grown hu hgrow).becomes.parameter, ih]
  | assignPermissions delimiter _ ih => exact ih

/-- Inserting usages in turn leads from a grammar that can be built to another. -/
theorem insertAll {us : List Usage} {g' : Grammar} (hg : Reachable root g)
    (h : g.insertAll us = .ok g') : Reachable root g' := by
  unfold Grammar.insertAll at h
  refine foldlM_invariant ?_ hg h
  intro g₁ u g₂ hg₁ hinsert
  cases hpair : g₁.insert u with
  | error e => simp [hpair, Except.map] at hinsert
  | ok pair =>
    obtain rfl : pair.2 = g₂ := by simpa [hpair, Except.map] using hinsert
    exact hg₁.insert hpair

/-- The grammar of a declared command can be built. -/
theorem ofDeclaration {d : CommandDeclaration} (h : d.grammar = .ok g) : Reachable d.root g := by
  unfold CommandDeclaration.grammar at h
  refine foldlM_invariant ?_ .new h
  intro g₁ u g₂ hg₁ hstep
  rcases bind_eq_ok_iff.1 hstep with ⟨usage, -, hinsert⟩
  rcases bind_eq_ok_iff.1 hinsert with ⟨pair, hpair, heq⟩
  obtain rfl : pair.2 = g₂ := Except.ok.inj heq
  exact hg₁.insert hpair

/-- **Sealing.** The tree of a sealed grammar is that of a grammar that can be built, and nothing
follows its greedy nodes. -/
theorem of_seal (hg : Reachable root g) {settings : TreeSettings} {t : CommandTree}
    (h : g.seal settings = .ok t) :
    Reachable root ⟨t.root, t.usages⟩ ∧ t.usages = g.usages ∧ t.settings = settings ∧
      t.root.GreedyEnds := by
  obtain ⟨hfault, rfl⟩ := seal_eq_ok_iff.1 h
  have hends := Node.greedyEnds_of_firstFault? hfault
  refine ⟨?_, rfl, rfl, ?_⟩
  · dsimp only
    split
    · exact hg.assignPermissions _
    · exact hg
  · dsimp only
    split
    · -- A node with a permission of its own is as greedy as before, and so are those below it.
      intro ps m' hleads hgreedy
      obtain ⟨m, hm, hpermitted⟩ :=
        (g.repermitted_assignPermissions settings.permissionDelimiter).leads_back hleads
      rw [hpermitted.isLeaf]
      refine hends ps m hm ?_
      rw [Node.isGreedy, ← hpermitted.parameter]
      exact hgreedy
    · exact hends

end Reachable

end Grammar

end CommandLanguage

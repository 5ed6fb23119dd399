import CommandLanguage.Proofs.Outline

/-!
# Declared usages

A usage that is declared has no greedy parameters but arguments, as literals, flags and switches that
are greedy are refused. Insertion keeps arguments that are not equally greedy from sharing a node, so
in a grammar of declared usages nothing follows a greedy node below the root (`Node.Capped`).

The root is about a parameter that no usage declares. If it is greedy, insertion refuses what would
follow it, except a default usage, whose path is made without that check. So something follows a
greedy node exactly if it is the root and a default usage with a parameter has been inserted
(`Grammar.Reachable.greedy_leaves_iff`).
-/

namespace CommandLanguage

/-! ## Declarations -/

/-- What a declared parameter becomes is greedy only if it is an argument. -/
theorem ParameterDeclaration.isArgument_of_build {d : ParameterDeclaration} {command : String}
    {p : Parameter} (h : d.build command = .ok p) (hgreedy : p.greedy = true) :
    p.isArgument = true := by
  unfold build at h
  split at h
  · cases h
  · rename_i hfault
    obtain rfl := Except.ok.inj h
    have hallowed : d.kind ∉ [DeclaredKind.literal, .flag, .switch] := by
      intro hmem
      unfold fault? at hfault
      split at hfault
      · cases hfault
      · rw [if_pos (by simpa using ⟨hgreedy, by simpa using hmem⟩)] at hfault
        cases hfault
    cases hkind : d.kind <;>
      simp_all [Parameter.isArgument, Parameter.isLiteral, Parameter.isFlag, Parameter.ofKind,
        parameterKind]

/-- Whether a usage is one that can be declared, for some command. -/
def Usage.Declared (u : Usage) : Prop :=
  ∃ (d : UsageDeclaration) (command : String), d.build command = .ok u

theorem Usage.Declared.isArgument {u : Usage} (hu : u.Declared) :
    ∀ p ∈ u.parameters, p.greedy = true → p.isArgument = true := by
  rcases hu with ⟨d, command, h⟩
  unfold UsageDeclaration.build at h
  rcases bind_eq_ok_iff.1 h with ⟨parameters, hparameters, heq⟩
  obtain rfl := Except.ok.inj heq
  clear h heq
  dsimp only
  generalize d.parameters = declared at hparameters
  induction declared generalizing parameters with
  | nil =>
    obtain rfl : [] = parameters := Except.ok.inj hparameters
    simp
  | cons d ds ih =>
    rw [List.mapM_cons] at hparameters
    rcases bind_eq_ok_iff.1 hparameters with ⟨p, hp, hrest⟩
    rcases bind_eq_ok_iff.1 hrest with ⟨ps, hps, heq⟩
    obtain rfl := Except.ok.inj heq
    exact List.forall_mem_cons.2 ⟨ParameterDeclaration.isArgument_of_build hp, ih _ hps⟩

/-! ## Ways of typing -/

/-- Whether nothing but the last parameter of a way of typing is greedy, and that only if it is an
argument. -/
structure GreedyEnd (e : List Parameter) : Prop where
  argument : ∀ p ∈ e, p.greedy = true → p.isArgument = true
  last : ∀ p ∈ e.dropLast, p.greedy = false

theorem GreedyEnd.nil : GreedyEnd [] :=
  ⟨by simp, by simp⟩

theorem GreedyEnd.cons {p : Parameter} {e : List Parameter} (he : GreedyEnd e)
    (hargument : p.greedy = true → p.isArgument = true) (hlast : p.greedy = true → e = []) :
    GreedyEnd (p :: e) := by
  refine ⟨List.forall_mem_cons.2 ⟨hargument, he.argument⟩, ?_⟩
  cases e with
  | nil => simp
  | cons q e =>
    rw [List.dropLast_cons_of_ne_nil (by simp)]
    refine List.forall_mem_cons.2 ⟨?_, he.last⟩
    cases hp : p.greedy with
    | false => rfl
    | true => cases hlast hp

theorem GreedyEnd.of_cons {p : Parameter} {e : List Parameter} (h : GreedyEnd (p :: e)) :
    GreedyEnd e := by
  refine ⟨(List.forall_mem_cons.1 h.argument).2, ?_⟩
  intro q hq
  cases e with
  | nil => simp at hq
  | cons r e => exact h.last q (by simpa using .inr hq)

/-- What follows a greedy parameter on a way of typing is nothing. -/
theorem GreedyEnd.eq_nil {p : Parameter} {e : List Parameter} (h : GreedyEnd (p :: e))
    (hp : p.greedy = true) : e = [] := by
  cases e with
  | nil => rfl
  | cons q e =>
    have hfalse := h.last p (by simp)
    simp [hp] at hfalse

/-- In front of a way of typing there may be parameters that are not greedy. -/
theorem GreedyEnd.append {front e : List Parameter} (he : GreedyEnd e)
    (hfront : ∀ p ∈ front, p.greedy = false) : GreedyEnd (front ++ e) := by
  induction front with
  | nil => exact he
  | cons p front ih =>
    rcases List.forall_mem_cons.1 hfront with ⟨hp, hfront⟩
    exact (ih hfront).cons (by simp [hp]) (by simp [hp])

/-- The ways of typing stretches of which only the last may be a greedy argument. -/
theorem Segment.greedyEnd_of_mem_expansions {segments : List Segment}
    (hlast : GreedyLast segments)
    (hruns : ∀ flags, .run flags ∈ segments → ∀ p ∈ flags, p.greedy = false)
    (harguments : ∀ p, .single p ∈ segments → p.greedy = true → p.isArgument = true)
    {e : List Parameter} (h : e ∈ expansions segments) : GreedyEnd e := by
  induction segments generalizing e with
  | nil =>
    obtain rfl : e = [] := by simpa [expansions] using h
    exact .nil
  | cons segment rest ih =>
    have hruns' : ∀ flags, Segment.run flags ∈ rest → ∀ p ∈ flags, p.greedy = false :=
      fun flags hmem => hruns flags (List.mem_cons_of_mem _ hmem)
    have harguments' : ∀ p, Segment.single p ∈ rest → p.greedy = true → p.isArgument = true :=
      fun p hmem => harguments p (List.mem_cons_of_mem _ hmem)
    cases segment with
    | run flags =>
      rcases List.mem_flatMap.1 h with ⟨chosen, hchosen, htail⟩
      rcases List.mem_map.1 htail with ⟨e', he', rfl⟩
      refine (ih hlast hruns' harguments' he').append ?_
      intro p hp
      exact hruns flags List.mem_cons_self p (Arrangement.mem_of_mem_selections hchosen hp)
    | single p =>
      rcases hlast with ⟨hgreedy, hlast⟩
      rcases List.mem_append.1 h with h | h
      · rcases List.mem_map.1 h with ⟨e', he', rfl⟩
        refine (ih hlast hruns' harguments' he').cons (harguments p List.mem_cons_self) ?_
        intro hp
        rw [hgreedy hp] at he'
        simpa [expansions] using he'
      · split at h
        · exact ih hlast hruns' harguments' h
        · simp at h

/-- The stretches of a parameter list have its parameters. -/
theorem Segment.mem_of_mem_ofParameters {ps : List Parameter} {segment : Segment} {p : Parameter}
    (h : segment ∈ ofParameters ps) (hp : p ∈ segment.parameters) : p ∈ ps := by
  rw [← flatMap_parameters_ofParameters ps]
  exact List.mem_flatMap.2 ⟨segment, h, hp⟩

/-- The ways of typing a usage that is declared. -/
theorem Usage.Declared.greedyEnd {u : Usage} (hu : u.Declared) (hwell : u.WellFormed)
    {e : List Parameter} (he : e ∈ u.ways) : GreedyEnd e := by
  have hargument := hu.isArgument
  unfold ways at he
  split at he
  · obtain rfl : e = u.parameters := by simpa using he
    exact ⟨hargument, hwell.greedy⟩
  · refine Segment.greedyEnd_of_mem_expansions (Segment.greedyLast_ofParameters hwell.greedy) ?_ ?_ he
    · intro flags hmem p hp
      have hflag := Segment.isFlag_of_run_mem hmem hp
      by_cases hgreedy : p.greedy = true
      · have hnot := Parameter.isFlag_of_isArgument
          (hargument p (Segment.mem_of_mem_ofParameters hmem hp) hgreedy)
        simp [hflag] at hnot
      · simpa using hgreedy
    · intro p hmem hgreedy
      exact hargument p (Segment.mem_of_mem_ofParameters hmem (by simp [Segment.parameters])) hgreedy

/-! ## Trees -/

namespace Node

/-- Whether the greedy nodes below the root of a tree are arguments that nothing follows. -/
inductive Capped : Node → Prop where
  | intro {n : Node} :
      (∀ c ∈ n.children, c.isGreedy = true → c.parameter.isArgument = true ∧ c.isLeaf = true) →
        (∀ c ∈ n.children, Capped c) → Capped n

namespace Capped

variable {n c : Node}

theorem greedy (h : n.Capped) (hc : c ∈ n.children) (hgreedy : c.isGreedy = true) :
    c.parameter.isArgument = true ∧ c.isLeaf = true := by
  cases h with
  | intro hgreedy' _ => exact hgreedy' c hc hgreedy

theorem child (h : n.Capped) (hc : c ∈ n.children) : c.Capped := by
  cases h with
  | intro _ hchildren => exact hchildren c hc

theorem leaf (id : Nat) (p : Parameter) : (Node.leaf id p).Capped :=
  .intro (by simp [Node.leaf]) (by simp [Node.leaf])

/-- Only the root of such a tree can be greedy and have children. -/
theorem isLeaf_of_mem_placesFrom {above : List Node} {p : Place} (h : n.Capped)
    (hroot : n.isGreedy = true → n.isLeaf = true) (hp : p ∈ n.placesFrom above)
    (hgreedy : p.node.isGreedy = true) : p.node.isLeaf = true := by
  have hpasses : ∀ {n c : Node}, n.Capped ∧ (n.isGreedy = true → n.isLeaf = true) →
      c ∈ n.children → c.Capped ∧ (c.isGreedy = true → c.isLeaf = true) := by
    intro n c hn hc
    exact ⟨hn.1.child hc, fun hgreedy => (hn.1.greedy hc hgreedy).2⟩
  exact (Node.of_mem_placesFrom hpasses ⟨h, hroot⟩ hp).2 hgreedy

end Capped

/-- What growing by ways of typing whose last parameter alone may be greedy does to a tree. -/
structure Caps (n n' : Node) : Prop where
  parameter : n'.parameter = n.parameter
  capped : n.Capped → n'.Capped

/-- Keeping what follows greedy nodes as it is, is a law of growth. -/
theorem caps_law : Growth.Law fun paths s s' => (∀ e ∈ paths, GreedyEnd e) →
    Caps s.1 s'.1 ∧ ((∀ e ∈ paths, e = []) → s'.1.children = s.1.children) where
  refl := fun s _ => ⟨⟨rfl, id⟩, fun _ => rfl⟩
  trans := by
    intro paths paths' s s' s'' h h' hpaths
    rcases h fun e he => hpaths e (List.mem_append_left _ he) with ⟨hcaps, hkept⟩
    rcases h' fun e he => hpaths e (List.mem_append_right _ he) with ⟨hcaps', hkept'⟩
    refine ⟨⟨hcaps'.parameter.trans hcaps.parameter, fun hn => hcaps'.capped (hcaps.capped hn)⟩, ?_⟩
    intro hnil
    rw [hkept' fun e he => hnil e (List.mem_append_right _ he),
      hkept fun e he => hnil e (List.mem_append_left _ he)]
  replace := by
    intro paths p n c c' next next' hpaths hchild hagree hc hends
    have hmem : c ∈ n.children := List.mem_of_find?_eq_some hchild
    have hslot : c.parameter.slot = p.slot := slot_of_child? hchild
    have hends' : ∀ e ∈ paths, GreedyEnd e := by
      intro e he
      exact (hends (p :: e) (List.mem_map_of_mem he)).of_cons
    rcases hc hends' with ⟨hcaps, hkept⟩
    have hparameter : c'.parameter = c.parameter := hcaps.parameter
    refine ⟨⟨rfl, ?_⟩, ?_⟩
    · intro hcapped
      refine .intro ?_ ?_
      · intro d hd hgreedy
        rcases mem_or_eq_of_mem_replaceSibling hd with hd | rfl
        · exact hcapped.greedy hd hgreedy
        · have hcgreedy : c.isGreedy = true := by rw [isGreedy, ← hparameter]; exact hgreedy
          rcases hcapped.greedy hmem hcgreedy with ⟨hargument, hleaf⟩
          rw [hparameter]
          refine ⟨hargument, ?_⟩
          -- The parameter is as greedy as the argument in its slot, so its ways end here.
          have hp : p.isArgument = true := by
            rw [Parameter.isArgument, Parameter.isLiteral_eq_of_slot_eq hslot.symm,
              Parameter.isFlag_eq_of_slot_eq hslot.symm]
            exact hargument
          have hpgreedy : p.greedy = true := by rw [← hagree hp]; exact hcgreedy
          have hnil : ∀ e ∈ paths, e = [] := by
            intro e he
            exact (hends (p :: e) (List.mem_map_of_mem he)).eq_nil hpgreedy
          have hchildren : d.children = c.children := hkept hnil
          rw [isLeaf, hchildren]
          exact hleaf
      · intro d hd
        rcases mem_or_eq_of_mem_replaceSibling hd with hd | rfl
        · exact hcapped.child hd
        · exact hcaps.capped (hcapped.child hmem)
    · intro hnil
      rcases List.exists_mem_of_ne_nil paths hpaths with ⟨e, he⟩
      exact absurd (hnil (p :: e) (List.mem_map_of_mem he)) (by simp)
  make := by
    intro paths p n c' next next' hpaths hchild hc hends
    have hends' : ∀ e ∈ paths, GreedyEnd e := by
      intro e he
      exact (hends (p :: e) (List.mem_map_of_mem he)).of_cons
    rcases hc hends' with ⟨hcaps, hkept⟩
    have hparameter : c'.parameter = p := hcaps.parameter
    rcases List.exists_mem_of_ne_nil paths hpaths with ⟨e, he⟩
    refine ⟨⟨rfl, ?_⟩, ?_⟩
    · intro hcapped
      refine .intro ?_ ?_
      · intro d hd hgreedy
        rcases mem_insertSibling_iff.1 hd with rfl | hd
        · rw [isGreedy, hparameter] at hgreedy
          rw [hparameter]
          have hway : ∀ e ∈ paths, GreedyEnd (p :: e) :=
            fun e he => hends (p :: e) (List.mem_map_of_mem he)
          refine ⟨(hway e he).argument p List.mem_cons_self hgreedy, ?_⟩
          have hchildren : d.children = (leaf next p).children :=
            hkept fun e he => (hway e he).eq_nil hgreedy
          rw [isLeaf, hchildren]
          rfl
        · exact hcapped.greedy hd hgreedy
      · intro d hd
        rcases mem_insertSibling_iff.1 hd with rfl | hd
        · exact hcaps.capped (.leaf next p)
        · exact hcapped.child hd
    · intro hnil
      exact absurd (hnil (p :: e) (List.mem_map_of_mem he)) (by simp)

theorem receive_caps (u : NumberedUsage) (n : Node) :
    Caps n (n.receive u) ∧ ((∀ e ∈ [([] : List Parameter)], e = []) →
      (n.receive u).children = n.children) := by
  have hchildren := children_receive u n
  refine ⟨⟨(receive_extends u n).parameter, ?_⟩, fun _ => hchildren⟩
  intro hn
  exact .intro (fun c hc => hn.greedy (hchildren ▸ hc)) fun c hc => hn.child (hchildren ▸ hc)

theorem Repermitted.capped {n n' : Node} (h : n.Repermitted n') (hn : n.Capped) : n'.Capped := by
  induction hn generalizing n' with
  | @intro n hgreedy hchildren ih =>
    rcases h with ⟨own, delimiter, base, rfl⟩
    have hpermit := repermitted_permit delimiter base
    refine .intro ?_ ?_
    · intro c' hc' hc'greedy
      rw [permitAll_eq_map] at hc'
      rcases List.mem_map.1 hc' with ⟨c, hc, rfl⟩
      rw [isGreedy, (hpermit c).parameter] at hc'greedy
      rw [(hpermit c).parameter, (hpermit c).isLeaf]
      exact hgreedy c hc hc'greedy
    · intro c' hc'
      rw [permitAll_eq_map] at hc'
      rcases List.mem_map.1 hc' with ⟨c, hc, rfl⟩
      exact ih c hc (hpermit c)

end Node

/-! ## Grammars -/

namespace Grammar.Reachable

variable {root : Parameter} {g : Grammar}

/-- In a grammar of declared usages nothing follows a greedy node below the root. -/
theorem capped (hg : Reachable root g) (hdeclared : ∀ u ∈ g.usages, u.Declared) :
    g.root.Capped := by
  induction hg with
  | new => exact .leaf 0 root
  | @insert g g' u number _ hinsert ih =>
    rcases insert_cases hinsert with rfl | ⟨hu, husages, next, hgrow⟩
    · exact ih hdeclared
    · rw [husages] at hdeclared
      have hold : ∀ v ∈ g.usages, v.Declared :=
        fun v hv => hdeclared v (List.mem_append_left _ hv)
      have hnew : u.Declared := hdeclared u (by simp)
      have hcaps := grow_law Node.caps_law (fun n _ _ => Node.receive_caps _ n) hu hgrow
        fun e he => hnew.greedyEnd hu he
      exact hcaps.1.capped (ih hold)
  | @assignPermissions g delimiter _ ih =>
    exact (g.repermitted_assignPermissions delimiter).capped (ih hdeclared)

/-- Below a greedy root there are only the paths of default usages. -/
theorem parameters_eq_nil (hg : Reachable root g) (hroot : root.greedy = true) :
    ∀ u ∈ g.usages, u.isDefault = false → u.parameters = [] := by
  induction hg with
  | new => simp [Grammar.new]
  | @insert g g' u number hg hinsert ih =>
    rcases insert_cases hinsert with rfl | ⟨hu, husages, next, hgrow⟩
    · exact ih
    · intro v hv hdefault
      rw [husages] at hv
      rcases List.mem_append.1 hv with hv | hv
      · exact ih v hv hdefault
      · obtain rfl : v = u := by simpa using hv
        have hgreedy : g.root.isGreedy = true := by
          rw [Node.isGreedy, hg.root_parameter]
          exact hroot
        rw [← Segment.flatMap_parameters_ofParameters v.parameters]
        unfold grow at hgrow
        rw [if_neg (by simp [hdefault])] at hgrow
        dsimp only at hgrow
        cases hsegments : Segment.ofParameters v.parameters with
        | nil => rfl
        | cons segment rest => simp [hsegments, Node.insert, hgreedy] at hgrow
  | assignPermissions delimiter _ ih => exact ih

/-- Something follows a greedy root if a default usage with a parameter has been inserted. -/
theorem root_isLeaf_iff (hg : Reachable root g) (hroot : root.greedy = true) :
    g.root.isLeaf = true ↔ ∀ u ∈ g.usages, u.isDefault = true → u.parameters = [] := by
  have houtlined := hg.outlined
  constructor
  · intro hleaf u hu hdefault
    cases hps : u.parameters with
    | nil => rfl
    | cons p ps =>
      have hway : u.parameters ∈ u.ways := by simp [Usage.ways, hdefault]
      have hsome : (g.root.view [p.slot]).isSome = true :=
        (houtlined.view_isSome_iff (by simp)).2 ⟨u, hu, u.parameters, hway, by simp [hps]⟩
      have hchildren : g.root.children = [] := by simpa [Node.isLeaf] using hleaf
      simp [Node.view_cons, hchildren] at hsome
  · intro hnil
    cases hchildren : g.root.children with
    | nil => simp [Node.isLeaf, hchildren]
    | cons c cs =>
      have hc : c ∈ g.root.children := by simp [hchildren]
      have hsome : (g.root.view [c.parameter.slot]).isSome = true := by
        simp [Node.view_cons, houtlined.apart.find?_slot hc, Node.view_nil]
      rcases (houtlined.view_isSome_iff (by simp)).1 hsome with ⟨u, hu, e, he, hprefix⟩
      have hempty : u.parameters = [] := by
        cases hdefault : u.isDefault with
        | true => exact hnil u hu hdefault
        | false => exact hg.parameters_eq_nil hroot u hu hdefault
      obtain rfl : e = [] := by
        simpa [Usage.ways, hempty, expansions, Segment.ofParameters, Segment.expansions] using he
      simp at hprefix

/-- **Greedy nodes.** In a grammar of declared usages something follows a greedy node exactly if it
is the root and a default usage with a parameter has been inserted. -/
theorem greedy_leaves_iff (hg : Reachable root g) (hdeclared : ∀ u ∈ g.usages, u.Declared) :
    (∀ p ∈ g.root.places, p.node.isGreedy = true → p.node.isLeaf = true) ↔
      (root.greedy = true → ∀ u ∈ g.usages, u.isDefault = true → u.parameters = []) := by
  have hisGreedy : g.root.isGreedy = root.greedy := by rw [Node.isGreedy, hg.root_parameter]
  constructor
  · intro hleaves hroot
    refine (hg.root_isLeaf_iff hroot).1 ?_
    exact hleaves _ (Node.root_mem_places g.root) (by rw [← hroot]; exact hisGreedy)
  · intro hdefaults p hp hgreedy
    refine (hg.capped hdeclared).isLeaf_of_mem_placesFrom ?_ hp hgreedy
    intro hroot
    rw [hisGreedy] at hroot
    exact (hg.root_isLeaf_iff hroot).2 (hdefaults hroot)

end Grammar.Reachable

end CommandLanguage

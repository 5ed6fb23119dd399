import CommandLanguage.Proofs.Answer
import CommandLanguage.Proofs.Reachable
import Mathlib.Tactic.Choose

/-!
# Wider trees

Where more can be typed, what resolved before still resolves, though perhaps to another usage. A tree
may be wider because it is a larger one (`Node.Within`), or because its judge takes words that
another's would not (`Judge.RelaxesTo`). A walk tries other nodes first in the wider tree, and may go
astray there for long. But a trail through the one tree is a trail through the other
(`Judge.Trail.within`), and where there is a trail a walk finds something, whatever else it tries.

* `CommandTree.dispatch_insert`: inserting a usage without flags makes no input fail that resolved.
* `CommandTree.dispatch_lenient`: neither does leaving the types of required arguments unchecked.
-/

namespace CommandLanguage

/-! ## Larger trees -/

namespace Node

/-- Whether a tree is part of another: each of its nodes has a partner there, about the same parameter
and below the partner of the node above it, that holds usages in the same roles and perhaps in
more. -/
inductive Within : Node → Node → Prop where
  | of_partner {n n' : Node} (partner : ∀ c ∈ n.children, Node) :
      n.Becomes n' → (∀ c hc, partner c hc ∈ n'.children) →
      (∀ c hc, Within c (partner c hc)) → Within n n'

namespace Within

variable {n n' n'' : Node}

theorem becomes (h : n.Within n') : n.Becomes n' := by
  cases h with
  | of_partner _ hbecomes _ _ => exact hbecomes

theorem child (h : n.Within n') {c : Node} (hc : c ∈ n.children) :
    ∃ c' ∈ n'.children, c.Within c' := by
  cases h with
  | of_partner partner _ hmem hwithin => exact ⟨partner c hc, hmem c hc, hwithin c hc⟩

/-- It is enough that each child has some partner. -/
theorem of_children (hbecomes : n.Becomes n')
    (h : ∀ c ∈ n.children, ∃ c' ∈ n'.children, c.Within c') : n.Within n' := by
  choose partner hmem hwithin using h
  exact .of_partner partner hbecomes hmem hwithin

theorem refl (n : Node) : n.Within n := by
  induction n using Node.induction with
  | step n ih => exact .of_children (.refl n) fun c hc => ⟨c, hc, ih c hc⟩

theorem trans (h : n.Within n') (h' : n'.Within n'') : n.Within n'' := by
  induction h generalizing n'' with
  | of_partner partner hbecomes hmem _ ih =>
    refine .of_children (hbecomes.trans h'.becomes) fun c hc => ?_
    rcases h'.child (hmem c hc) with ⟨c'', hc'', hwithin⟩
    exact ⟨c'', hc'', ih c hc hwithin⟩

end Within

/-- A node that only holds more is none the less within. -/
theorem Becomes.within {n n' : Node} (h : n.Becomes n') (hchildren : n'.children = n.children) :
    n.Within n' :=
  .of_children h fun c hc => ⟨c, by rw [hchildren]; exact hc, .refl c⟩

/-- Trees grow: what there was is within what there is. -/
theorem within_law : Growth.Law fun _ s s' => s.1.Within s'.1 where
  refl s := .refl s.1
  trans h h' := h.trans h'
  replace := by
    intro _ p n c c' _ _ _ hchild _ hc
    rcases mem_replaceSibling (c := c') hchild with ⟨hmem, hkept⟩
    refine .of_children ⟨rfl, fun r hr => by cases r <;> exact hr⟩ fun d hd => ?_
    rcases hkept d hd with hd' | rfl
    · exact ⟨d, hd', .refl d⟩
    · exact ⟨c', hmem, hc⟩
  make := by
    intro _ p n c' _ _ _ _ _
    refine .of_children ⟨rfl, fun r hr => by cases r <;> exact hr⟩ fun d hd => ?_
    exact ⟨d, mem_insertSibling_iff.2 (.inr hd), .refl d⟩

theorem receive_within (u : NumberedUsage) (n : Node) : n.Within (n.receive u) := by
  have hbecomes := (receive_grown u n).becomes
  refine hbecomes.within ?_
  unfold receive bind
  split
  · rfl
  · split
    · split <;> rfl
    · rfl

/-- Giving permissions makes a tree neither larger nor smaller. -/
theorem Repermitted.within {n n' : Node} (h : n.Repermitted n') : n.Within n' ∧ n'.Within n := by
  induction n using Node.induction generalizing n' with
  | step n ih =>
    have hheld : ∀ r, n'.held? r = n.held? r := h.held?
    have hparameter : n'.parameter = n.parameter := h.parameter
    rcases h with ⟨own, delimiter, base, rfl⟩
    have hchild : ∀ c ∈ n.children,
        c.Within (c.permit delimiter base) ∧ (c.permit delimiter base).Within c :=
      fun c hc => ih c hc (repermitted_permit delimiter base c)
    constructor
    · refine .of_children ⟨hparameter, fun r hr => by rw [hheld]; exact hr⟩ fun c hc => ?_
      refine ⟨c.permit delimiter base, ?_, (hchild c hc).1⟩
      rw [permitAll_eq_map]
      exact List.mem_map_of_mem hc
    · refine .of_children ⟨hparameter.symm, fun r hr => by rw [← hheld]; exact hr⟩ fun c hc => ?_
      dsimp only at hc
      rw [permitAll_eq_map] at hc
      rcases List.mem_map.1 hc with ⟨d, hd, rfl⟩
      exact ⟨d, hd, (hchild d hd).2⟩

/-- A node that holds usages in more roles resolves if the other does. -/
theorem Becomes.resolved? {n n' : Node} (h : n.Becomes n') (hn : n.resolved?.isSome = true) :
    n'.resolved?.isSome = true := by
  have hterminal : n.terminal.isSome = true → n'.terminal.isSome = true := h.held .terminal
  have hfallback : n.fallback.isSome = true → n'.fallback.isSome = true := h.held .fallback
  have hliteral : n'.isLiteral = n.isLiteral := by rw [Node.isLiteral, Node.isLiteral, h.parameter]
  simp only [Node.resolved?, hliteral, Option.orElse_eq_orElse, Option.orElse_eq_or,
    Option.isSome_or, Bool.or_eq_true] at hn ⊢
  rcases hn with hn | hn
  · exact .inl (hterminal hn)
  · refine .inr ?_
    split at hn
    · rename_i hisLiteral
      rw [if_pos hisLiteral]
      exact hfallback hn
    · cases hn

end Node

/-! ## Judges who take more -/

/-- A step at another node. -/
def Step.at (s : Step) (c : Node) : Step :=
  match s with
  | .take before _ words => .take before c words
  | .flag _ f => .flag c f
  | .pass before _ => .pass before c

namespace Step

@[simp] theorem node_at (s : Step) (c : Node) : (s.at c).node = c := by
  cases s <;> rfl

@[simp] theorem words_at (s : Step) (c : Node) : (s.at c).words = s.words := by
  cases s <;> rfl

@[simp] theorem passes_at (s : Step) (c : Node) : (s.at c).passes = s.passes := by
  cases s <;> rfl

end Step

namespace Judge

/-- Whether a judge reads words as another does, but lets everyone pass, and checks the types of
required arguments only if the other does. -/
structure RelaxesTo (j j' : Judge) : Prop where
  fits : j'.fits = j.fits
  flags : j'.flags = j.flags
  strict : j'.strict = true → j.strict = true
  permits : ∀ gate, j'.permits gate = true

variable {j j' : Judge}

namespace RelaxesTo

theorem accepts (h : j.RelaxesTo j') {p : Parameter} {token : String}
    (haccepts : j.accepts p token = true) : j'.accepts p token = true := by
  unfold Judge.accepts at haccepts ⊢
  split at haccepts
  · exact haccepts
  · exact haccepts
  · rename_i optional _
    rw [h.fits]
    split
    · rename_i hchecks
      have hchecks' : (optional || j.strict) = true := by
        rw [Bool.or_eq_true] at hchecks ⊢
        exact hchecks.imp_right h.strict
      rwa [if_pos hchecks'] at haccepts
    · rfl

theorem binds (h : j.RelaxesTo j') {bound : BoundFlag} (hbinds : j.Binds bound) :
    j'.Binds bound := by
  cases hbinds with
  | switch hinput => exact .switch hinput
  | value hinput hfits => exact .value hinput (by rw [h.fits]; exact hfits)

theorem knows (h : j.RelaxesTo j') {f : TypedFlag} (hknows : j.Knows f) : j'.Knows f :=
  ⟨by rw [h.flags]; exact hknows.lookup, h.binds hknows.binds⟩

theorem stopsAt (h : j.RelaxesTo j') {stop : Bool} {words : List String}
    (hstops : j.StopsAt stop words) : j'.StopsAt stop words := by
  unfold StopsAt
  rw [h.flags]
  exact hstops

end RelaxesTo

/-- What may be done at a node may be done at another about the same parameter, by a judge who takes
more. -/
theorem Allows.at {s : Step} {rest : List String} {c : Node} (hs : j.Allows s rest)
    (h : j.RelaxesTo j') (hc : c.parameter = s.node.parameter) : j'.Allows (s.at c) rest := by
  have hknows : ∀ {before : List TypedFlag}, (∀ f ∈ before, j.Knows f) → ∀ f ∈ before, j'.Knows f :=
    fun hknown f hf => h.knows (hknown f hf)
  have haccepts : ∀ {token}, j.accepts s.node.parameter token = true →
      j'.accepts c.parameter token = true := by
    intro token htoken
    rw [hc]
    exact h.accepts htoken
  -- What kind of node it is depends on the parameter alone.
  have hflag : c.isFlag = s.node.isFlag := congrArg Parameter.isFlag hc
  have hgreedy : c.isGreedy = s.node.isGreedy := congrArg Parameter.greedy hc
  have hskip : c.isSkippable = s.node.isSkippable := by
    rw [Node.isSkippable, Node.isSkippable, hflag, Node.isOptional, Node.isOptional, hc]
  cases hs with
  | word hisFlag hisGreedy hknown htoken htakes _ =>
    exact .word (hflag.trans hisFlag) (hgreedy.trans hisGreedy) (hknows hknown) htoken
      (haccepts htakes) (h.permits _)
  | greedy hisFlag hisGreedy hknown hstops htakes _ =>
    exact .greedy (hflag.trans hisFlag) (hgreedy.trans hisGreedy) (hknows hknown)
      (h.stopsAt hstops) (haccepts htakes) (h.permits _)
  | flag hisFlag htakes _ hbound hbinds =>
    exact .flag (hflag.trans hisFlag) (haccepts htakes) (h.permits _) (hbound.trans hc.symm)
      (h.binds hbinds)
  | pass hskips hknown hstops =>
    exact .pass (hskip.trans hskips) (hknows hknown) (by rw [hgreedy]; exact h.stopsAt hstops)

/-- **Trails through a larger tree.** Where a trail leads through a tree, one with the same words leads
through any tree that this one is within, to the partner of the node where the first leads. -/
theorem Trail.within {n n' : Node} {steps : List Step} {after : List TypedFlag}
    (ht : j.Trail n steps after) (h : j.RelaxesTo j') (hn : n.Within n') :
    ∃ steps', j'.Trail n' steps' after ∧ trailWords steps' after = trailWords steps after ∧
      (steps ≠ [] → steps' ≠ []) ∧ ∀ p p' : Place, p.node = n → p'.node = n' →
        (p.along steps).node.Within (p'.along steps').node := by
  induction steps generalizing n n' with
  | nil =>
    refine ⟨[], .nil fun f hf => h.knows (ht.known f hf), rfl, id, ?_⟩
    rintro p p' rfl rfl
    exact hn
  | cons s steps ih =>
    rcases ht.tail with ⟨hmem, hallows, harrives, hrest⟩
    rcases hn.child hmem with ⟨c, hc, hwithin⟩
    obtain ⟨steps', htrail, hwords, hne, halong⟩ := ih hrest hwithin
    refine ⟨s.at c :: steps', ?_, by simp [hwords], by simp, ?_⟩
    · refine .cons ?_ ?_ ?_ ?_
      · simpa using hc
      · rw [hwords]
        exact hallows.at h hwithin.becomes.parameter
      · simpa using harrives.imp_right hne
      · simpa using htrail
    · intro p p' _ _
      exact halong (p.child s.node) (p'.child (s.at c).node) rfl (by simp [Place.child])

end Judge

/-! ## Grammars -/

namespace Grammar

/-- Inserting a usage makes a tree larger, if anything. -/
theorem insert_within {g g' : Grammar} {u : Usage} {number : Nat}
    (h : g.insert u = .ok (number, g')) : g.root.Within g'.root := by
  rcases insert_cases h with rfl | ⟨hu, -, next, hgrow⟩
  · exact .refl _
  · exact grow_law Node.within_law (fun n _ => Node.receive_within _ n) hu hgrow

/-- Inserting a usage without flags leaves the flags of a command as they are. -/
theorem ofUsages_insert {g g' : Grammar} {u : Usage} {number : Nat} (hflags : u.flags = [])
    (h : g.insert u = .ok (number, g')) :
    FlagTable.ofUsages g'.usages = FlagTable.ofUsages g.usages := by
  rcases insert_cases h with rfl | ⟨-, husages, -⟩
  · rfl
  · simp [husages, FlagTable.ofUsages, FlagTable.declared, hflags]

/-- What is sealed is as large as the tree of the grammar. -/
theorem seal_within {g : Grammar} {settings : TreeSettings} {t : CommandTree}
    (h : g.seal settings = .ok t) : g.root.Within t.root ∧ t.root.Within g.root := by
  obtain ⟨-, rfl⟩ := seal_eq_ok_iff.1 h
  dsimp only
  split
  · exact (g.repermitted_assignPermissions _).within
  · exact ⟨.refl _, .refl _⟩

end Grammar

/-! ## Answers -/

namespace CommandTree

variable {Source : Type}

/-- What resolves in a tree resolves in one that it is within, if its judge takes as much. -/
theorem dispatch_within {t t' : CommandTree} {caps caps' : Capabilities Source} {source : Source}
    (hjudge : (t.judge caps source).RelaxesTo (t'.judge caps' source))
    (hroot : t.root.Within t'.root) {tokens : List String}
    (h : (t.dispatch caps source tokens).status = .complete) :
    (t'.dispatch caps' source tokens).status = .complete := by
  rcases dispatch_complete h with ⟨u, steps, after, hres⟩
  obtain ⟨steps', htrail, hwords, -, halong⟩ := hres.trail.within hjudge hroot
  rw [hres.words, ← hwords]
  refine dispatch_of_trail hjudge.permits htrail ?_
  refine (halong (.root t.root) (.root t'.root) rfl rfl).becomes.resolved? ?_
  rw [hres.resolved]
  rfl

/-- **More usages.** When a usage without flags has been inserted, every input resolves that resolved
before, with the same settings and types and with every permission. -/
theorem dispatch_insert {g g' : Grammar} {u : Usage} {number : Nat} {settings : TreeSettings}
    {t t' : CommandTree} (hflags : u.flags = []) (hinsert : g.insert u = .ok (number, g'))
    (hseal : g.seal settings = .ok t) (hseal' : g'.seal settings = .ok t')
    (caps caps' : Capabilities Source) (hfits : caps'.fits = caps.fits)
    (hgrants : ∀ source permission, caps'.grants source permission = true) (source : Source)
    (tokens : List String) (h : (t.dispatch caps source tokens).status = .complete) :
    (t'.dispatch caps' source tokens).status = .complete := by
  have hroot : t.root.Within t'.root :=
    (Grammar.seal_within hseal).2.trans
      ((Grammar.insert_within hinsert).trans (Grammar.seal_within hseal').1)
  have hjudge : (t.judge caps source).RelaxesTo (t'.judge caps' source) := by
    obtain ⟨-, rfl⟩ := Grammar.seal_eq_ok_iff.1 hseal
    obtain ⟨-, rfl⟩ := Grammar.seal_eq_ok_iff.1 hseal'
    exact ⟨hfits, Grammar.ofUsages_insert hflags hinsert, id,
      Capabilities.permits_of_grants (hgrants source)⟩
  exact dispatch_within hjudge hroot h

/-- A usage that takes any words. -/
def sayUsage : Usage :=
  ⟨"say", [{ Parameter.required "text" .string with greedy := true }], none, none, false⟩

/-- A word that was text is a literal from now on. -/
theorem dispatch_insert_list :
    ∃ g number g' t t', (Grammar.new (.literal "kit" [])).insertAll [sayUsage] = .ok g ∧
      g.insert ⟨"list", [.literal "list" [], .optional "page" .int], none, none, false⟩ =
        .ok (number, g') ∧
      g.seal .default = .ok t ∧ g'.seal .default = .ok t' ∧
      (t.dispatch .builtin () ["LIST", "2"]).usage.map (·.usage.handler) = some "say" ∧
      (t'.dispatch .builtin () ["LIST", "2"]).usage.map (·.usage.handler) = some "list" ∧
      (t'.dispatch .builtin () ["LIST", "2"]).status = .complete := by
  obtain ⟨g, hg⟩ : ∃ g, (Grammar.new (.literal "kit" [])).insertAll [sayUsage] = .ok g := ⟨_, rfl⟩
  obtain ⟨number, g', hinsert⟩ : ∃ number g', g.insert
      ⟨"list", [.literal "list" [], .optional "page" .int], none, none, false⟩ =
        .ok (number, g') := by
    cases hg
    exact ⟨_, _, rfl⟩
  obtain ⟨t, t', ht, ht'⟩ : ∃ t t', g.seal .default = .ok t ∧ g'.seal .default = .ok t' := by
    cases hg
    cases hinsert
    exact ⟨_, _, rfl, rfl⟩
  have hmore := dispatch_insert rfl hinsert ht ht' (.builtin : Capabilities Unit) .builtin rfl
    (fun _ _ => rfl) () ["LIST", "2"]
  refine ⟨g, number, g', t, t', hg, hinsert, ht, ht', ?_, ?_, hmore ?_⟩
  all_goals
    cases hg
    cases hinsert
    cases ht
    cases ht'
    rfl

-- With a flag it is different: a word that begins with a dash is text no longer if it names one.
example :
    ∃ t t', ofUsages "kit" [sayUsage] = .ok t ∧
      ofUsages "kit" [sayUsage, ⟨"list", [.literal "list" [], .switch "all" []], none, none, false⟩] =
        .ok t' ∧
      (t.dispatch .builtin () ["-all"]).status = .complete ∧
      (t'.dispatch .builtin () ["-all"]).status = .unknown :=
  ⟨_, _, rfl, rfl, rfl, rfl⟩

/-- **Leniency.** Where required arguments need not fit their types, every input resolves that resolves
where they must, with every permission. -/
theorem dispatch_lenient {g : Grammar} {settings : TreeSettings} {t : CommandTree}
    (hseal : g.seal { settings with strict := true } = .ok t) (caps : Capabilities Source)
    (hgrants : ∀ source permission, caps.grants source permission = true) :
    ∃ t', g.seal { settings with strict := false } = .ok t' ∧ ∀ source tokens,
      (t.dispatch caps source tokens).status = .complete →
        (t'.dispatch caps source tokens).status = .complete := by
  obtain ⟨hfault, ht⟩ := Grammar.seal_eq_ok_iff.1 hseal
  refine ⟨{ t with settings := { settings with strict := false } }, ?_, fun source tokens h => ?_⟩
  · rw [Grammar.seal_eq_ok_iff, ht]
    exact ⟨hfault, rfl⟩
  · have hjudge : (t.judge caps source).RelaxesTo
        (judge { t with settings := { settings with strict := false } } caps source) := by
      refine ⟨rfl, rfl, ?_, Capabilities.permits_of_grants (hgrants source)⟩
      intro hstrict
      cases hstrict
    exact dispatch_within hjudge (.refl t.root) h

/-- A word that is no number is the number of a page, where numbers need not be numbers. -/
theorem dispatch_lenient_page :
    ∃ g t t', (Grammar.new (.literal "kit" [])).insertAll
        [⟨"list", [.required "page" .int], none, none, false⟩,
          ⟨"give", [.required "kit" .string], none, none, false⟩] = .ok g ∧
      g.seal { TreeSettings.default with strict := true } = .ok t ∧
      g.seal { TreeSettings.default with strict := false } = .ok t' ∧
      (t.dispatch .builtin () ["pvp"]).usage.map (·.usage.handler) = some "give" ∧
      (t'.dispatch .builtin () ["pvp"]).usage.map (·.usage.handler) = some "list" ∧
      (t'.dispatch .builtin () ["pvp"]).status = .complete := by
  obtain ⟨g, hg⟩ : ∃ g, (Grammar.new (.literal "kit" [])).insertAll
      [⟨"list", [.required "page" .int], none, none, false⟩,
        ⟨"give", [.required "kit" .string], none, none, false⟩] = .ok g := ⟨_, rfl⟩
  obtain ⟨t, ht⟩ : ∃ t, g.seal { TreeSettings.default with strict := true } = .ok t := by
    cases hg
    exact ⟨_, rfl⟩
  obtain ⟨t', ht', hcomplete⟩ := dispatch_lenient ht (.builtin : Capabilities Unit) fun _ _ => rfl
  refine ⟨g, t, t', hg, ht, ht', ?_, ?_, hcomplete () ["pvp"] ?_⟩
  all_goals
    cases hg
    cases ht
    cases ht'
    rfl

end CommandTree

end CommandLanguage

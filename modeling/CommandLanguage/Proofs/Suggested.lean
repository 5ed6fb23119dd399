import CommandLanguage.Proofs.CompletionCache
import CommandLanguage.Proofs.CompletionWalk
import CommandLanguage.Proofs.Mirror

/-!
# Words that resolve are suggested

Completion has a walk of its own, and does not read words as their resolution does. It never passes
over a node, and it lets the children of a node have a word before the flag table is asked. Where a
usage resolves by passing over an optional argument, completion finds the nodes that do without it;
where a flag of the table was typed in front of a node, completion may come past it by its name or by
a node of its own (`Judge.Clear`).

So completion comes abreast with the resolution, at nodes that mirror those of the resolution
(`Judge.Follows.exists_comes`), and suggests the last word if it is declared there
(`CommandTree.mem_answer_of_resolution`). But an argument that takes any word takes the name of a flag
as well, and then nothing is suggested (`CommandTree.suggestion_missing`).
-/

namespace CommandLanguage

/-- The flags that are typed in front of the node of a step. -/
def Step.before : Step → List TypedFlag
  | .take before _ _ => before
  | .flag _ _ => []
  | .pass before _ => before

namespace Judge

variable {j : Judge}

/-! ## Flags in front of nodes -/

/-- Whether completion comes past the flags that stand in front of the nodes of steps: by the words of
these flags it comes to a node which has below it what the node has where the flags are typed, as far
as the steps go on there. -/
def Clear (j : Judge) : Node → List Step → Prop
  | _, [] => True
  | m, .take before c words :: steps =>
    ∃ k, j.Comes m (TypedFlag.allWords before ++ (words ++ Step.allWords steps)) k
        (words ++ Step.allWords steps) ∧
      m.Mirrors c.parameter.slot k ∧
      ∀ d ∈ k.children, c.parameter.Alike d.parameter → Clear j d steps
  | m, .flag c _ :: steps => ∀ d ∈ m.children, c.parameter.Alike d.parameter → Clear j d steps
  | m, .pass before c :: steps =>
    ∃ k, j.Comes m (TypedFlag.allWords before ++ Step.allWords steps) k (Step.allWords steps) ∧
      m.Mirrors c.parameter.slot k ∧ Clear j k steps

/-- Completion comes past flags where there are none. -/
theorem clear_of_forall_before {steps : List Step} (h : ∀ s ∈ steps, s.before = []) (m : Node) :
    j.Clear m steps := by
  induction steps generalizing m with
  | nil => trivial
  | cons s steps ih =>
    rcases List.forall_mem_cons.1 h with ⟨hs, hsteps⟩
    cases s with
    | take before c words =>
      obtain rfl : before = [] := hs
      exact ⟨m, .here, .refl _ m, fun d _ _ => ih hsteps d⟩
    | flag c f => exact fun d _ _ => ih hsteps d
    | pass before c =>
      obtain rfl : before = [] := hs
      exact ⟨m, .here, .refl _ m, ih hsteps m⟩

/-! ## Completion beside a resolution -/

namespace Comes

variable {n m : Node} {words left : List String}

theorem apart (h : j.Comes n words m left) (hn : n.Apart) : m.Apart :=
  h.hereditary (fun _ hn _ hc => hn.child hc) hn

theorem literalFree (h : j.Comes n words m left) (hn : n.LiteralFree) : m.LiteralFree :=
  h.hereditary (fun _ hn _ hc => hn.child hc) hn

theorem elides (h : j.Comes n words m left) (hn : n.Apart) (helides : n.Elides) : m.Elides :=
  (h.hereditary (P := fun n => n.Apart ∧ n.Elides)
    (fun _ hn _ hc => ⟨hn.1.child hc, hn.2.child hn.1 hc⟩) ⟨hn, helides⟩).2

end Comes

/-- A child that takes a word of its own is where completion comes by it. -/
theorem comes_word (hpermits : ∀ gate, j.permits gate = true) {n c : Node} (hn : n.LiteralFree)
    (hc : c ∈ n.children) (hflag : c.isFlag = false) (hgreedy : c.isGreedy = false) {token : String}
    (haccepts : j.accepts c.parameter token = true) (left : List String) :
    j.Comes n (token :: left) c left := by
  have hinput : c.parameter.input? = none := Parameter.input?_eq_none hflag
  refine .down ((mem_advance_iff hn).2 ⟨hc, haccepts, hpermits _, ?_⟩) ?_
  · simp [position?, hgreedy, hinput]
  · simpa [Parameter.flagSpan, hinput] using Comes.here

/-- A flag node is where completion comes by the words of the flag. -/
theorem comes_flag (hpermits : ∀ gate, j.permits gate = true) {n c : Node} (hn : n.LiteralFree)
    (hc : c ∈ n.children) (hgreedy : c.isGreedy = false) {f : TypedFlag}
    (haccepts : j.accepts c.parameter f.token = true)
    (hinput : c.parameter.input? = f.bound.flag.input?) (hbinds : j.Binds f.bound)
    (left : List String) : j.Comes n (f.words ++ left) c left := by
  rcases f with ⟨token, bound⟩
  cases hbinds with
  | switch hswitch =>
    rw [hswitch] at hinput
    refine .down ((mem_advance_iff hn).2 ⟨hc, haccepts, hpermits _, ?_⟩) ?_
    · simp [position?, hgreedy, hinput]
    · simpa [Parameter.flagSpan, hinput] using Comes.here
  | value hvalue _ =>
    rw [hvalue] at hinput
    refine .down ((mem_advance_iff hn).2 ⟨hc, haccepts, hpermits _, ?_⟩) ?_
    · simp [position?, hgreedy]
    · simpa [Parameter.flagSpan, hinput] using Comes.here

/-- Completion follows one step, from a node that mirrors the one where the step is made to a node that
mirrors the one where it leads. -/
theorem Allows.exists_comes (hfits : j.fits = Parameter.admits)
    (hpermits : ∀ gate, j.permits gate = true) {n m : Node} {s : Step} {steps : List Step}
    {rest : List String} (h : j.Allows s rest) (hmem : s.node ∈ n.children)
    (hgreedy : s.node.isGreedy = false) (hn : n.Apart) (hm : m.Apart) (hfree : m.LiteralFree)
    (hmirrors : ∀ slot, n.Mirrors slot m) (hclear : j.Clear m (s :: steps))
    (helides : s.passes = false ∨ m.Elides) :
    ∃ d, j.Comes m (s.words ++ Step.allWords steps) d (Step.allWords steps) ∧
      (∀ slot, s.node.Mirrors slot d) ∧ j.Clear d steps := by
  cases h with
  | word hflag _ _ _ haccepts _ =>
    obtain ⟨k, hcomes, hk, hbelow⟩ := hclear
    obtain ⟨d, hd, halike, hbeyond⟩ :=
      Node.Mirrors.child hn (hcomes.apart hm) hmem ((hmirrors _).trans hk)
    have htaken := comes_word hpermits (hcomes.literalFree hfree) hd
      (halike.isFlag_eq.symm.trans hflag) (halike.greedy.symm.trans hgreedy)
      ((accepts_eq hfits halike _).symm.trans haccepts) (Step.allWords steps)
    exact ⟨d, by simpa [Step.words] using hcomes.trans htaken, hbeyond, hbelow d hd halike⟩
  | greedy _ hisGreedy =>
    rw [Step.node, hisGreedy] at hgreedy
    cases hgreedy
  | flag hflag haccepts _ hbound hbinds =>
    obtain ⟨d, hd, halike, hbeyond⟩ := Node.Mirrors.child hn hm hmem (hmirrors _)
    have hinput : d.parameter.input? = _ := halike.input?_eq.symm.trans (congrArg _ hbound.symm)
    have htyped := comes_flag hpermits hfree hd (halike.greedy.symm.trans hgreedy)
      ((accepts_eq hfits halike _).symm.trans haccepts) hinput hbinds (Step.allWords steps)
    exact ⟨d, htyped, hbeyond, hclear d hd halike⟩
  | pass hskip _ _ =>
    obtain ⟨k, hcomes, hk, hbelow⟩ := hclear
    obtain ⟨d, hd, halike, hbeyond⟩ :=
      Node.Mirrors.child hn (hcomes.apart hm) hmem ((hmirrors _).trans hk)
    have hskip' : d.isSkippable = true := (Node.isSkippable_eq halike).symm.trans hskip
    -- What is below the node that is passed over is beside it as well.
    have hbeside := (hcomes.elides hm (helides.resolve_left (by simp [Step.passes]))).mirrors
      (hcomes.apart hm) hd hskip'
    exact ⟨k, hcomes, fun slot => (hbeyond slot).trans (hbeside slot), hbelow⟩

/-- A node from which steps lead down has children. -/
theorem Follows.isLeaf_eq_false {n : Node} {steps : List Step} {left : List String}
    (h : j.Follows n steps left) (hsteps : steps ≠ []) : n.isLeaf = false := by
  cases h with
  | nil => exact absurd rfl hsteps
  | cons hmem _ _ =>
    rw [Node.isLeaf, List.isEmpty_eq_false_iff]
    exact List.ne_nil_of_mem hmem

/-- **Completion abreast with a resolution.** Where steps lead to a node that takes words, completion
comes by the words before these, from a node that mirrors the one where the steps begin, to a node
with a child that is alike. -/
theorem Follows.exists_comes (hfits : j.fits = Parameter.admits)
    (hpermits : ∀ gate, j.permits gate = true) {n m c : Node} {steps : List Step}
    {before : List TypedFlag} {words left : List String}
    (h : j.Follows n (steps ++ [.take before c words]) left) (hn : n.Apart) (hends : n.GreedyEnds)
    (hm : m.Apart) (hfree : m.LiteralFree) (hmirrors : ∀ slot, n.Mirrors slot m)
    (hclear : j.Clear m (steps ++ [.take before c []]))
    (helides : (∀ s ∈ steps, s.passes = false) ∨ m.Elides) :
    ∃ k, j.Comes m (Step.allWords steps ++ TypedFlag.allWords before) k [] ∧
      k.LiteralFree ∧ ∃ d ∈ k.children, c.parameter.Alike d.parameter := by
  induction steps generalizing n m with
  | nil =>
    cases h with
    | cons hmem _ _ =>
      obtain ⟨k, hcomes, hk, -⟩ := hclear
      obtain ⟨d, hd, halike, -⟩ :=
        Node.Mirrors.child hn (hcomes.apart hm) hmem ((hmirrors _).trans hk)
      exact ⟨k, by simpa using hcomes, hcomes.literalFree hfree, d, hd, halike⟩
  | cons s steps ih =>
    rw [List.cons_append] at h hclear
    cases h with
    | cons hmem hallows hrest =>
      -- Another step follows, so that the node is no greedy one.
      have hgreedy : s.node.isGreedy = false := by
        by_contra hgreedy
        have hleaf := hends.child hmem [] s.node .here (by simpa using hgreedy)
        rw [hrest.isLeaf_eq_false (by simp)] at hleaf
        cases hleaf
      have hpasses : s.passes = false ∨ m.Elides := helides.imp_left fun h => h s List.mem_cons_self
      obtain ⟨d, hcomes, hbeyond, hclear'⟩ :=
        hallows.exists_comes hfits hpermits hmem hgreedy hn hm hfree hmirrors hclear hpasses
      have helides' : (∀ s ∈ steps, s.passes = false) ∨ d.Elides :=
        helides.imp (fun h s hs => h s (List.mem_cons_of_mem _ hs)) (hcomes.elides hm)
      obtain ⟨k, hfurther, hk⟩ := ih hrest (hn.child hmem) (hends.child hmem) (hcomes.apart hm)
        (hcomes.literalFree hfree) hbeyond hclear' helides'
      refine ⟨k, ?_, hk⟩
      have hwords : Step.allWords (steps ++ [.take before c []]) =
          Step.allWords steps ++ TypedFlag.allWords before := by
        simp [Step.allWords, Step.words]
      rw [hwords] at hcomes
      rw [Step.allWords_cons, List.append_assoc]
      exact hcomes.trans hfurther

end Judge

/-! ## Trees without literals -/

/-- A tree has no literal below its root if none is at its paths. -/
theorem Node.LiteralFree.of_view {n : Node} (happart : n.Apart)
    (h : ∀ path e, path ≠ [] → n.view path = some e → e.parameter.isLiteral = false) :
    n.LiteralFree := by
  induction n using Node.induction with
  | step n ih =>
    constructor
    · intro c hc
      have hview : n.view [c.parameter.slot] = some c.entry := by
        rw [happart.view_child hc]
        rfl
      exact h _ _ (by simp) hview
    · intro c hc
      refine ih c hc (happart.child hc) ?_
      intro path e _ he
      exact h (c.parameter.slot :: path) e (by simp) ((happart.view_child hc path).trans he)

/-- The tree of a grammar whose usages have no literals has none below its root. -/
theorem Grammar.Outlined.literalFree {g : Grammar} (hg : g.Outlined)
    (h : ∀ u ∈ g.usages, ∀ p ∈ u.parameters, p.isLiteral = false) : g.root.LiteralFree := by
  refine .of_view hg.apart ?_
  intro path e hpath he
  have hparameter := hg.parameter hpath
  rw [he] at hparameter
  obtain ⟨w, hw, hthrough⟩ := List.exists_of_findSome?_eq_some hparameter.symm
  rcases List.mem_flatMap.1 hw with ⟨u, hu, hway⟩
  exact h u hu _ (Usage.mem_parameters_of_mem_ways hway (mem_of_through? hthrough).1)

/-! ## What is suggested -/

/-- An argument offers the suggestions that it declares. -/
theorem Parameter.mem_offers {p : Parameter} (h : p.isArgument = true) {v : String}
    (hv : v ∈ p.suggestions) : v ∈ p.offers := by
  have hsome : p.suggestions.isEmpty = false := by
    rw [List.isEmpty_eq_false_iff]
    exact List.ne_nil_of_mem hv
  unfold offers
  split
  · rename_i hkind
    simp [isArgument, isLiteral, hkind] at h
  · rename_i hkind
    simp [isArgument, isFlag, hkind] at h
  · simpa [hsome] using hv

theorem beginsLike_self (s : String) : beginsLike s s = true := by
  rw [beginsLike, List.isPrefixOf_iff_prefix]

namespace CommandTree

variable {Source : Type} [DecidableEq Source] {t : CommandTree}

/-- **Words that resolve are suggested.** In a tree sealed from a grammar that can be built, without
literals below the root, with built-in types, declared suggestions and every permission: if an input
resolves and its last word is taken by an argument that declares it among its suggestions, then this
word is suggested in its place, whatever was asked before. That is so if completion comes past the
flags that are typed in front of arguments, and if no argument is passed over or usages that share a
node declare it alike. -/
theorem mem_answer_of_resolution {root : Parameter} {g : Grammar} {settings : TreeSettings}
    (hg : g.Reachable root) (hseal : g.seal settings = .ok t) (hfree : t.root.LiteralFree)
    (source : Source) (typed : List String) (v : String)
    (h : (t.dispatch .builtin source (typed ++ [v])).status = .complete) :
    (∃ u steps after, t.Resolution .builtin source (typed ++ [v]) u steps after) ∧
      ∀ u steps before c,
        t.Resolution .builtin source (typed ++ [v]) u (steps ++ [.take before c [v]]) [] →
        v ∈ c.parameter.suggestions →
        (t.judge .builtin source).Clear t.root (steps ++ [.take before c []]) →
        ((∀ s ∈ steps, s.passes = false) ∨ t.SharesParameters) →
        ∀ past now, v ∈ (t.answer .builtin (t.cacheAfter .builtin past)
          ⟨now, source, typed ++ [v], typed.length, v⟩).1 := by
  refine ⟨dispatch_complete h, ?_⟩
  intro u steps before c hres hv hclear hshares past now
  obtain ⟨hreachable, -, -, hends⟩ := hg.of_seal hseal
  have houtlined := hreachable.outlined
  have hpermits : ∀ gate, (t.judge .builtin source).permits gate = true := by
    intro gate
    cases gate <;> rfl
  have helides : (∀ s ∈ steps, s.passes = false) ∨ t.root.Elides :=
    hshares.imp_right fun h => h.elides houtlined hreachable.faithful.wellFormed
  obtain ⟨k, hcomes, hk, d, hd, halike⟩ := hres.trail.follows.exists_comes rfl hpermits
    houtlined.apart hends houtlined.apart hfree (fun slot => .refl slot _) hclear helides
  have htyped : typed = Step.allWords steps ++ TypedFlag.allWords before := by
    have hwords := hres.words
    simpa [Judge.trailWords, Step.allWords, Step.words, ← List.append_assoc] using hwords
  -- The child is an argument as the node of the resolution is.
  have hargument : d.parameter.isArgument = true := by
    obtain ⟨rest, hallows⟩ := hres.trail.follows.exists_allows (s := .take before c [v]) (by simp)
    have hflag : c.parameter.isFlag = false := by
      cases hallows with
      | word hflag | greedy hflag => exact hflag
    have hliteral : d.parameter.isLiteral = false := hk.isLiteral hd
    simp [Parameter.isArgument, hliteral, ← halike.isFlag_eq, hflag]
  have hreach : .below k ∈ t.positions .builtin source (typed ++ [v]) typed.length := by
    rw [positions_eq_reach t .builtin source (by simp), List.take_left, Judge.below_mem_reach_iff,
      htyped]
    exact hcomes
  refine ((truthful_cacheAfter past).mem_answer_iff _).2
    ⟨hpermits _, by simp, beginsLike_self v, _, hreach, d.parameter, ?_, ?_⟩
  · refine List.mem_flatMap.2 ⟨d, List.mem_filter.2 ⟨hd, ?_⟩, List.mem_cons_self⟩
    simp [Judge.shows, hpermits]
  · exact Parameter.mem_offers hargument (by rw [← halike.suggestions]; exact hv)

/-- How many, perhaps, and whether to do it, and a switch. -/
def confirmedUsages : List Usage :=
  [⟨"h", [.optional "n" .double, { Parameter.required "b" .boolean with suggestions := ["true"] },
    .switch "v" []], none, none, false⟩]

/-- In a strict tree completion comes past a switch, and past a number that is left out. -/
theorem mem_answer_of_resolution_confirmed :
    ∃ g t, (Grammar.new (.literal "cmd" [])).insertAll confirmedUsages = .ok g ∧
      g.seal { TreeSettings.default with strict := true } = .ok t ∧
      "true" ∈ (t.answer .builtin (t.cacheAfter .builtin []) ⟨0, (), ["-v", "true"], 1, "true"⟩).1 := by
  obtain ⟨g, hg⟩ : ∃ g, (Grammar.new (.literal "cmd" [])).insertAll confirmedUsages = .ok g :=
    ⟨_, rfl⟩
  obtain ⟨t, hseal⟩ : ∃ t, g.seal { TreeSettings.default with strict := true } = .ok t := by
    cases hg
    exact ⟨_, rfl⟩
  have husages : t.usages = confirmedUsages := by
    cases hg
    cases hseal
    rfl
  have hcomplete : (t.dispatch .builtin () (["-v"] ++ ["true"])).status = .complete := by
    cases hg
    cases hseal
    rfl
  have hknown : (t.judge .builtin ()).Knows ⟨"-v", .switch "v" [], none⟩ := by
    cases hg
    cases hseal
    exact ⟨rfl, .switch rfl⟩
  have hresolution : ∃ u a b, t.Resolution .builtin () (["-v"] ++ ["true"]) u
        [.pass [⟨"-v", .switch "v" [], none⟩] a, .take [] b ["true"]] [] ∧
      b.parameter.suggestions = ["true"] := by
    cases hg
    cases hseal
    refine ⟨_, _, _, ⟨⟨.cons (.head _) (.pass rfl ?_ ?_) (.cons (.head _) ?_ .nil), ?_, ?_⟩,
      rfl, rfl, rfl, rfl, rfl, rfl, rfl⟩, rfl⟩
    · exact List.forall_mem_singleton.2 hknown
    · exact Judge.stopsAt_cons.2 fun hflag => by cases hflag
    · exact .word rfl rfl (by simp) rfl rfl rfl
    · simp
    · simp [Step.passes]
  have hrefused : ∀ c ∈ t.root.children,
      (t.judge .builtin ()).accepts c.parameter "-v" = false := by
    have hall : t.root.children.all
        (fun c => !(t.judge .builtin ()).accepts c.parameter "-v") = true := by
      cases hg
      cases hseal
      rfl
    simpa using hall
  have hreachable := Grammar.Reachable.insertAll .new hg
  have hfree : t.root.LiteralFree := by
    have hliteral : ∀ u ∈ confirmedUsages, ∀ p ∈ u.parameters, p.isLiteral = false := by decide
    rw [← husages] at hliteral
    exact (hreachable.of_seal hseal).1.outlined.literalFree hliteral
  have hshares : t.SharesParameters := by
    refine sharesParameters_of_alike ?_
    rw [husages]
    decide
  obtain ⟨u, a, b, hres, hb⟩ := hresolution
  refine ⟨g, t, hg, hseal, ?_⟩
  refine (mem_answer_of_resolution hreachable hseal hfree () ["-v"] "true" hcomplete).2 u [_] [] b
    hres (by simp [hb]) ?_ (.inr hshares) [] 0
  exact ⟨t.root, hknown.comes hfree hrefused _, .refl _ _,
    Judge.clear_of_forall_before (by simp [Step.before]) _⟩

/-- A text, and a switch. -/
def greetingUsages : List Usage :=
  [⟨"h", [{ Parameter.required "s" .string with suggestions := ["hello"] }, .switch "v" []],
    none, none, false⟩]

/-- Completion takes the name of the switch for the text, and has nothing to suggest for the word that
resolves. -/
theorem suggestion_missing :
    ∃ t u before c, ofUsages "cmd" greetingUsages = .ok t ∧ t.root.LiteralFree ∧
      (t.dispatch .builtin () (["-v"] ++ ["hello"])).status = .complete ∧
      t.Resolution .builtin () (["-v"] ++ ["hello"]) u [.take before c ["hello"]] [] ∧
      c.isArgument = true ∧ c.isGreedy = false ∧ "hello" ∈ c.parameter.suggestions ∧
      (t.answer .builtin t.emptyCache ⟨0, (), ["-v"] ++ ["hello"], 1, "hello"⟩).1 = [] := by
  obtain ⟨t, ht⟩ : ∃ t, ofUsages "cmd" greetingUsages = .ok t := ⟨_, rfl⟩
  have hanswer : (t.answer .builtin t.emptyCache ⟨0, (), ["-v"] ++ ["hello"], 1, "hello"⟩).1 = [] := by
    have hnone : (ofUsages "cmd" greetingUsages).toOption.map (fun t =>
        (t.answer .builtin t.emptyCache ⟨0, (), ["-v"] ++ ["hello"], 1, "hello"⟩).1) = some [] := by
      decide +kernel
    rw [ht] at hnone
    exact Option.some.inj hnone
  have hfree : t.root.LiteralFree := by
    rcases bind_eq_ok_iff.1 ht with ⟨g, hg, hseal⟩
    have hliteral : ∀ u ∈ greetingUsages, ∀ p ∈ u.parameters, p.isLiteral = false := by decide
    have husages : t.usages = greetingUsages := by
      cases ht
      rfl
    rw [← husages] at hliteral
    exact ((Grammar.Reachable.insertAll .new hg).of_seal hseal).1.outlined.literalFree hliteral
  obtain ⟨u, c, hres, hargument, hgreedy, hc⟩ : ∃ u c,
      t.Resolution .builtin () (["-v"] ++ ["hello"]) u
        [.take [⟨"-v", .switch "v" [], none⟩] c ["hello"]] [] ∧
      c.isArgument = true ∧ c.isGreedy = false ∧ c.parameter.suggestions = ["hello"] := by
    cases ht
    refine ⟨_, _, ⟨⟨.cons (.head _) (.word rfl rfl ?_ rfl rfl rfl) .nil, ?_, ?_⟩,
      rfl, rfl, rfl, rfl, rfl, rfl, rfl⟩, rfl, rfl, rfl⟩
    · exact List.forall_mem_singleton.2 ⟨rfl, .switch rfl⟩
    · simp
    · simp [Step.passes]
  have hcomplete : (t.dispatch .builtin () (["-v"] ++ ["hello"])).status = .complete := by
    cases ht
    rfl
  exact ⟨t, u, _, c, ht, hfree, hcomplete, hres, hargument, hgreedy, by simp [hc], hanswer⟩

end CommandTree

end CommandLanguage

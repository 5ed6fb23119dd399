import CommandLanguage.Proofs.RequiredParameters

/-!
# Spelling a usage

Words spell parameters if each literal is written as its name, in any case of ASCII letters, and
each argument as a word of its type. In a tree sealed from a grammar that can be built, words that
spell a usage of the tree without its flags and without some of its optional arguments resolve to a
usage of the tree (`CommandTree.dispatch_of_spells`), since they are a trail along the nodes that the
usage has in the tree, and some trail is always found.
-/

namespace CommandLanguage

/-- Whether words spell parameters. None of the words looks like a flag, but for those after the
first of a greedy argument. -/
inductive Spells : List Parameter → List String → Prop where
  | nil : Spells [] []
  | literal {p : Parameter} {ps : List Parameter} {token : String} {tokens : List String} :
      p.isLiteral = true → Text.sameIgnoringCase p.name token = true →
      isFlagToken token = false → Spells ps tokens → Spells (p :: ps) (token :: tokens)
  | argument {p : Parameter} {ps : List Parameter} {token : String} {tokens : List String} :
      p.isArgument = true → p.greedy = false → p.admits token = true →
      isFlagToken token = false → Spells ps tokens → Spells (p :: ps) (token :: tokens)
  /-- A greedy argument comes last and is spelled by any words of which the first fits. -/
  | greedy {p : Parameter} {token : String} {more : List String} :
      p.isArgument = true → p.greedy = true → p.admits token = true →
      isFlagToken token = false → Spells [p] (token :: more)

namespace Judge

variable {j : Judge} {n : Node} {p : Parameter} {token : String}

/-- A node for a literal takes the name of the literal, in any case. -/
theorem accepts_of_literal (hstands : n.StandsFor p) (hliteral : p.isLiteral = true)
    (hname : Text.sameIgnoringCase p.name token = true) :
    j.accepts n.parameter token = true := by
  have hnode : n.parameter.isLiteral = true := hstands.isLiteral_eq.trans hliteral
  have hfolded : Text.foldCase n.parameter.name = Text.foldCase p.name :=
    congrArg Slot.name hstands.slot
  have hsame : Text.sameIgnoringCase n.parameter.name token = true :=
    Text.sameIgnoringCase_trans (Text.sameIgnoringCase_iff.2 hfolded) hname
  have hanswers : n.parameter.answersTo token = true := by
    simp [Parameter.answersTo, Parameter.names, hsame]
  unfold accepts
  unfold Parameter.isLiteral at hnode
  split at hnode
  · rename_i hkind
    simpa [hkind] using hanswers
  · cases hnode

/-- An argument takes a word by the type of its values alone. -/
theorem admits_of_isArgument (hargument : p.isArgument = true) :
    p.admits token = p.valueType.admits token := by
  simp only [Parameter.isArgument, Parameter.isLiteral, Bool.and_eq_true,
    Bool.not_eq_true'] at hargument
  unfold Parameter.admits
  split
  · rename_i hkind
    simp [hkind] at hargument
  · rfl

/-- A node for an argument takes the words of the argument's type, whether it checks them or not. -/
theorem accepts_of_argument (hfits : j.fits = Parameter.admits) (hstands : n.StandsFor p)
    (hargument : p.isArgument = true) (hadmits : p.admits token = true) :
    j.accepts n.parameter token = true := by
  have hnode : n.parameter.isArgument = true := by
    rw [Parameter.isArgument, Parameter.isLiteral_eq_of_slot_eq hstands.slot,
      Parameter.isFlag_eq_of_slot_eq hstands.slot]
    exact hargument
  have hfit : j.fits token n.parameter = true := by
    rw [hfits, admits_of_isArgument hnode, Parameter.valueType_eq_of_slot_eq hstands.slot,
      ← admits_of_isArgument hargument]
    exact hadmits
  unfold accepts
  split
  · rename_i hkind
    simp [Parameter.isArgument, Parameter.isLiteral, hkind] at hnode
  · rename_i hkind
    simp [Parameter.isArgument, Parameter.isFlag, hkind] at hnode
  · simp [hfit]

/-- A node takes a word that it accepts, unless it is greedy and more words are left. -/
theorem allows_take {rest : List String} (hflag : n.isFlag = false)
    (hends : n.isGreedy = true → rest = []) (haccepts : j.accepts n.parameter token = true)
    (hpermits : j.permits n.permission = true) (htoken : isFlagToken token = false) :
    j.Allows (.take [] n [token]) rest := by
  cases hgreedy : n.isGreedy with
  | false => exact .word hflag hgreedy (by simp) htoken haccepts hpermits
  | true =>
    obtain rfl := hends hgreedy
    have hstops : j.StopsAt true [token] := stopsAt_cons.2 fun h => by simp [htoken] at h
    exact .greedy hflag hgreedy (by simp) hstops haccepts hpermits

/-- Whether words are read by steps from a node to another, none of which passes over a node. -/
def Walks (j : Judge) (n : Node) (tokens : List String) (m : Node) : Prop :=
  ∃ steps, j.Follows n steps [] ∧ Step.allWords steps = tokens ∧ (∀ s ∈ steps, s.passes = false) ∧
    ∀ p : Place, p.node = n → (p.along steps).node = m

theorem walks_nil (n : Node) : j.Walks n [] n :=
  ⟨[], .nil, rfl, by simp, fun _ hp => hp⟩

/-- Taking a word before others are read. -/
theorem Walks.take {c m : Node} {tokens : List String} (h : j.Walks c tokens m)
    (hmem : c ∈ n.children) (hflag : c.isFlag = false) (hends : c.isGreedy = true → tokens = [])
    (haccepts : j.accepts c.parameter token = true) (hpermits : j.permits c.permission = true)
    (htoken : isFlagToken token = false) : j.Walks n (token :: tokens) m := by
  rcases h with ⟨steps, hfollows, rfl, hpasses, halong⟩
  refine ⟨.take [] c [token] :: steps, ?_, rfl, ?_, ?_⟩
  · refine .cons hmem ?_ hfollows
    rw [List.append_nil]
    exact allows_take hflag hends haccepts hpermits htoken
  · exact List.forall_mem_cons.2 ⟨rfl, hpasses⟩
  · intro p hp
    exact halong (p.child c) rfl

/-- A greedy node takes every word left. -/
theorem walks_greedy {c : Node} {more : List String} (hmem : c ∈ n.children)
    (hflag : c.isFlag = false) (hgreedy : c.isGreedy = true)
    (haccepts : j.accepts c.parameter token = true) (hpermits : j.permits c.permission = true)
    (htoken : isFlagToken token = false) : j.Walks n (token :: more) c := by
  have hstops : j.StopsAt true (token :: more) := stopsAt_cons.2 fun h => by simp [htoken] at h
  refine ⟨[.take [] c (token :: more)], ?_, by simp [Step.words], by simp [Step.passes], ?_⟩
  · exact .cons hmem (.greedy hflag hgreedy (by simp) hstops haccepts hpermits) .nil
  · intro p hp
    rfl

/-- Nothing more is spelled below a greedy node. -/
theorem eq_nil_of_spells_of_isGreedy {n m : Node} {ps : List Parameter} {tokens : List String}
    (hends : n.GreedyEnds) (hleads : n.Leads ps m) (hspells : Spells ps tokens)
    (hgreedy : n.isGreedy = true) : tokens = [] := by
  have hleaf := hends [] n .here hgreedy
  cases hleads with
  | here =>
    cases hspells
    rfl
  | down hmem =>
    have hnil : n.children = [] := by simpa [Node.isLeaf] using hleaf
    simp [hnil] at hmem

/-- **Words along a path.** Words that spell the parameters on the way to a node are read by steps
to it. -/
theorem walks_of_spells (hfits : j.fits = Parameter.admits)
    (hpermits : ∀ gate, j.permits gate = true) {ps : List Parameter} {tokens : List String}
    (hspells : Spells ps tokens) {n m : Node} (hends : n.GreedyEnds) (hleads : n.Leads ps m) :
    j.Walks n tokens m := by
  induction hspells generalizing n with
  | nil =>
    obtain rfl := Node.leads_nil_iff.1 hleads
    exact walks_nil m
  | literal hliteral hname htoken hrest ih =>
    rcases Node.leads_cons_iff.1 hleads with ⟨c, hmem, hstands, hc⟩
    have hflag : c.isFlag = false := by
      rw [hstands.isFlag_eq, Parameter.isFlag_of_isLiteral hliteral]
    exact (ih (hends.child hmem) hc).take hmem hflag
      (eq_nil_of_spells_of_isGreedy (hends.child hmem) hc hrest)
      (accepts_of_literal hstands hliteral hname) (hpermits _) htoken
  | argument hargument hgreedy hadmits htoken hrest ih =>
    rcases Node.leads_cons_iff.1 hleads with ⟨c, hmem, hstands, hc⟩
    have hflag : c.isFlag = false := by
      rw [hstands.isFlag_eq, Parameter.isFlag_of_isArgument hargument]
    exact (ih (hends.child hmem) hc).take hmem hflag
      (eq_nil_of_spells_of_isGreedy (hends.child hmem) hc hrest)
      (accepts_of_argument hfits hstands hargument hadmits) (hpermits _) htoken
  | greedy hargument hgreedy hadmits htoken =>
    rcases Node.leads_cons_iff.1 hleads with ⟨c, hmem, hstands, hc⟩
    obtain rfl := Node.leads_nil_iff.1 hc
    have hflag : m.isFlag = false := by
      rw [hstands.isFlag_eq, Parameter.isFlag_of_isArgument hargument]
    exact walks_greedy hmem hflag (hstands.greedy hargument hgreedy)
      (accepts_of_argument hfits hstands hargument hadmits) (hpermits _) htoken

end Judge

/-- A node that holds a usage resolves to one, if it is a literal where it only falls back to it. -/
theorem Node.resolved?_of_held {n : Node} {r : Role} (hheld : (n.held? r).isSome = true)
    (hliteral : r = .fallback → n.isLiteral = true) : n.resolved?.isSome = true := by
  unfold Node.resolved?
  cases r with
  | terminal =>
    have hterminal : n.terminal.isSome = true := hheld
    simp [hterminal]
  | fallback =>
    have hfallback : n.fallback.isSome = true := hheld
    simp [hliteral rfl, hfallback]

namespace CommandTree

variable {Source : Type}

/-- **Completeness of matching.** In a tree sealed from a grammar that can be built on a literal,
with the built-in types and every permission, words resolve to some usage of the tree if they spell
one of its usages without the flags and without some of the optional arguments. -/
theorem dispatch_of_spells {root : Parameter} {g : Grammar} {settings : TreeSettings}
    {t : CommandTree} {u : Usage} {chosen : List Parameter} {tokens : List String}
    (hroot : root.isLiteral = true) (hg : g.Reachable root) (hseal : g.seal settings = .ok t)
    (hu : u ∈ t.usages) (hchosen : Chosen u.parameters chosen) (hspells : Spells chosen tokens)
    (caps : Capabilities Source) (hfits : caps.fits = Parameter.admits)
    (hgrants : ∀ source permission, caps.grants source permission = true) (source : Source) :
    ∃ v, (t.dispatch caps source tokens).status = .complete ∧
      (t.dispatch caps source tokens).usage = some v ∧ t.usages[v.number]? = some v.usage := by
  rcases hg.of_seal hseal with ⟨hbuilt, -, -, hends⟩
  have hpermits : ∀ gate, caps.permits source gate = true :=
    Capabilities.permits_of_grants (hgrants source)
  -- The usage has a node at the end of the chosen parameters.
  obtain ⟨m, hleads, hheld⟩ := hbuilt.faithful.reached u hu chosen
    ((hbuilt.faithful.wellFormed u hu).chosen_mem_ways hchosen)
  obtain ⟨steps, hfollows, rfl, hpasses, halong⟩ :=
    Judge.walks_of_spells (j := t.judge caps source) hfits hpermits hspells hends hleads
  have htrail : (t.judge caps source).Trail t.root steps [] :=
    ⟨hfollows, by simp, fun s hs => hpasses s (List.mem_of_mem_getLast? hs)⟩
  have hend : ((Place.root t.root).along steps).node.resolved?.isSome = true := by
    rw [halong (.root t.root) rfl]
    refine Node.resolved?_of_held hheld ?_
    intro hrole
    -- A default usage has literals only, so it ends at one, or at the root.
    have hdefault : u.isDefault = true := by
      unfold Usage.role at hrole
      split at hrole
      · assumption
      · cases hrole
    have hliterals : ∀ p ∈ chosen, p.isLiteral = true := by
      intro p hp
      exact (hbuilt.faithful.wellFormed u hu).literals hdefault p (hchosen.sublist.subset hp)
    cases hlast : chosen.getLast? with
    | none =>
      obtain rfl : chosen = [] := by simpa using hlast
      obtain rfl := Node.leads_nil_iff.1 hleads
      rw [Node.isLiteral, hbuilt.root_parameter, hroot]
    | some p =>
      rw [(hleads.standsFor_getLast p hlast).isLiteral_eq]
      exact hliterals p (List.mem_of_getLast? hlast)
  have hcomplete : (t.dispatch caps source (Step.allWords steps)).status = .complete := by
    simpa [Judge.trailWords] using dispatch_of_trail hpermits htrail hend
  rcases dispatch_complete hcomplete with ⟨v, steps', after, hres⟩
  exact ⟨v, hcomplete, hres.usage, (hres.exists_way hg hseal).1⟩

/-- A kit is handed out to nobody in particular, and `give` is spelled in capitals. The words are found
to be those of the usage that they spell. -/
theorem dispatch_of_spells_give :
    ∃ t, ofUsages "kit" [⟨"list", [.literal "list" []], none, none, false⟩,
        ⟨"give", [.literal "give" [], .required "kit" .string, .optional "player" .string], none,
          none, false⟩] = .ok t ∧
      ∃ v, (t.dispatch .builtin () ["GIVE", "pvp"]).status = .complete ∧
        (t.dispatch .builtin () ["GIVE", "pvp"]).usage = some v ∧
          t.usages[v.number]? = some v.usage ∧ v.usage.handler = "give" := by
  obtain ⟨t, ht⟩ : ∃ t, ofUsages "kit" [⟨"list", [.literal "list" []], none, none, false⟩,
      ⟨"give", [.literal "give" [], .required "kit" .string, .optional "player" .string], none,
        none, false⟩] = .ok t := ⟨_, rfl⟩
  have hgive : ∃ u ∈ t.usages, ∃ chosen, Chosen u.parameters chosen ∧
      Spells chosen ["GIVE", "pvp"] := by
    cases ht
    exact ⟨_, List.mem_of_getElem? (i := 1) rfl, _, .keep rfl (.keep rfl (.leave rfl .nil)),
      .literal rfl rfl rfl (.argument rfl rfl rfl rfl .nil)⟩
  rcases hgive with ⟨u, hu, chosen, hchosen, hspells⟩
  rcases bind_eq_ok_iff.1 ht with ⟨g, hg, hseal⟩
  rcases dispatch_of_spells rfl (.insertAll .new hg) hseal hu hchosen hspells .builtin rfl
    (fun _ _ => rfl) () with ⟨v, hcomplete, husage, hlisted⟩
  have hhandler : (t.dispatch .builtin () ["GIVE", "pvp"]).usage.map (·.usage.handler) =
      some "give" := by
    cases ht
    rfl
  rw [husage] at hhandler
  exact ⟨t, ht, v, hcomplete, husage, hlisted, Option.some.inj hhandler⟩

end CommandTree

end CommandLanguage

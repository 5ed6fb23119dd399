import CommandLanguage.Proofs.FlagNames
import CommandLanguage.Proofs.FlagOrder
import CommandLanguage.Proofs.Mirror

/-!
# What a flag means

A typed flag is bound in one of two ways. Flags in front of a node that takes words, and behind the
last node, are looked up in the table, which knows each name as the name of the first flag that was
declared with it. A flag that is typed at a flag node is bound from the parameter of the node, by the
names that this one has. The two agree unless declared flags share a name without being alike:
`CommandTree.confirms_iff` says exactly when a flag of an answer is what the table takes its word
for, and `CommandTree.flag_unconfirmed` is a case in which it is not.
-/

namespace CommandLanguage

/-- Whether two flags have the same name, and both have values or neither. -/
def Parameter.AlikeAsFlag (p q : Parameter) : Prop :=
  p.name = q.name ∧ p.input?.isSome = q.input?.isSome

namespace FlagTable

/-- Whether a typed flag is bound as what the table takes its word for: to a flag of that name, and
to a value exactly if the flag in the table has values. -/
def Confirms (t : FlagTable) (f : TypedFlag) : Prop :=
  ∃ q, t.lookup f.token = some q ∧ f.bound.flag.name = q.name ∧
    f.bound.value.isSome = q.input?.isSome

/-- The first flag, in the order in which they were declared, that answers to a typed word. -/
def firstNamed? (usages : List Usage) (token : String) : Option Parameter :=
  (declared usages).find? fun q => (flagAlias? token).any q.answersTo

/-- A table takes a typed word for the first declared flag that answers to it. -/
theorem lookup_eq_firstNamed? (usages : List Usage) (token : String) :
    (ofUsages usages).lookup token = firstNamed? usages token := by
  rw [lookup_ofUsages, firstNamed?]
  cases flagAlias? token with
  | none =>
    have hnone : ((declared usages).find? fun _ => false) = none := List.find?_eq_none.2 (by simp)
    exact hnone.symm
  | some word => rfl

/-- A declared flag that answers to a word is the first one that does, or there is one before it. -/
theorem exists_firstNamed? {usages : List Usage} {token : String} {p : Parameter}
    (hp : p ∈ declared usages) (hnamed : (flagAlias? token).any p.answersTo = true) :
    ∃ q, firstNamed? usages token = some q := by
  rw [← Option.isSome_iff_exists, firstNamed?, List.find?_isSome]
  exact ⟨p, hp, hnamed⟩

end FlagTable

/-- A flag is bound to a value exactly if it has values. -/
theorem Judge.Binds.isSome_value {j : Judge} {b : BoundFlag} (h : j.Binds b) :
    b.value.isSome = b.flag.input?.isSome := by
  cases h with
  | switch hinput => rw [hinput]; rfl
  | value hinput _ => rw [hinput]; rfl

/-- A typed flag is confirmed if its flag is like the one that the table takes its word for. -/
theorem FlagTable.confirms_iff_alikeAsFlag {t : FlagTable} {j : Judge} {f : TypedFlag}
    (hbinds : j.Binds f.bound) :
    t.Confirms f ↔ ∃ q, t.lookup f.token = some q ∧ f.bound.flag.AlikeAsFlag q := by
  simp only [Confirms, Parameter.AlikeAsFlag, hbinds.isSome_value]

/-- What the table knows, it confirms. -/
theorem Judge.Knows.confirms {j : Judge} {f : TypedFlag} (h : j.Knows f) : j.flags.Confirms f :=
  ⟨f.bound.flag, h.lookup, rfl, h.binds.isSome_value⟩

/-! ## Flags of steps -/

/-- The flags that the answer has from a step, as they were typed. -/
def Step.typed : Step → List TypedFlag
  | take before _ _ => before
  | flag _ f => [f]
  | pass _ _ => []

/-- A flag of a step is one that the table was asked for, or the node is a flag. -/
theorem Step.mem_typed_iff {s : Step} {f : TypedFlag} :
    f ∈ s.typed ↔ f ∈ s.tabled ∨ ∃ n, s = .flag n f := by
  cases s with
  | take before n ws => simp [typed, tabled]
  | flag n g => simp [typed, tabled, eq_comm]
  | pass before n => simp [typed, tabled]

theorem Step.kept_eq (s : Step) : s.kept = s.typed.map (·.bound) := by
  cases s <;> rfl

/-- The flags of an answer are those that the table was asked for, before a node that takes words or
after the last node, and those that were typed at a node. -/
theorem Step.mem_flatMap_typed_iff {steps : List Step} {after : List TypedFlag} {f : TypedFlag} :
    f ∈ steps.flatMap Step.typed ++ after ↔
      f ∈ steps.flatMap Step.tabled ++ after ∨ ∃ n, .flag n f ∈ steps := by
  have hflag : (∃ s ∈ steps, ∃ n, s = .flag n f) ↔ ∃ n, .flag n f ∈ steps := by
    constructor
    · rintro ⟨s, hs, n, rfl⟩
      exact ⟨n, hs⟩
    · rintro ⟨n, hs⟩
      exact ⟨_, hs, n, rfl⟩
  simp only [List.mem_append, List.mem_flatMap, Step.mem_typed_iff, and_or_left, exists_or, hflag]
  exact or_right_comm

/-- A flag that is typed at a node answers to its word, and is bound as it asks. -/
theorem Judge.Follows.named_of_flag {j : Judge} {n m : Node} {f : TypedFlag} {steps : List Step}
    {left : List String} (h : j.Follows n steps left) (hs : .flag m f ∈ steps) :
    m.parameter.isFlag = true ∧ (flagAlias? f.token).any m.parameter.answersTo = true ∧
      j.Binds f.bound := by
  rcases h.exists_allows hs with ⟨rest, hallows⟩
  cases hallows with
  | flag hflag haccepts _ _ hbinds =>
    exact ⟨hflag, (accepts_flag_iff hflag).1 haccepts, hbinds⟩

namespace CommandTree

variable {Source : Type} {t : CommandTree} {caps : Capabilities Source} {source : Source}
  {tokens : List String} {u : NumberedUsage} {steps : List Step} {after : List TypedFlag}

/-- The flags of an answer, as they were typed. -/
theorem Resolution.flags_eq_typed (hres : t.Resolution caps source tokens u steps after) :
    (t.dispatch caps source tokens).flags =
      (steps.flatMap Step.typed ++ after).map (·.bound) := by
  have hkept : Step.kept = fun s => s.typed.map (·.bound) := funext Step.kept_eq
  rw [hres.flags, List.map_append, List.map_flatMap, hkept]

/-- The table of a sealed tree takes a word for the first declared flag that answers to it. -/
theorem lookup_eq_firstNamed? {root : Parameter} {g : Grammar} {settings : TreeSettings}
    (hg : g.Reachable root) (hseal : g.seal settings = .ok t) (token : String) :
    t.flags.lookup token = FlagTable.firstNamed? t.usages token := by
  rw [flags_of_seal hseal, FlagTable.lookup_eq_firstNamed?, (hg.of_seal hseal).2.1]

/-- The nodes on the way are about parameters of usages. -/
theorem Resolution.mem_parameters {root : Parameter} {g : Grammar} {settings : TreeSettings}
    (hg : g.Reachable root) (hseal : g.seal settings = .ok t)
    (hres : t.Resolution caps source tokens u steps after) {s : Step} (hs : s ∈ steps) :
    ∃ v ∈ t.usages, s.node.parameter ∈ v.parameters := by
  rcases List.getElem?_of_mem hs with ⟨i, hi⟩
  have hmaker := (hres.maker hg hseal hi).1
  rcases List.exists_of_findSome?_eq_some hmaker with ⟨e, he, hthrough⟩
  rcases List.mem_flatMap.1 he with ⟨v, hv, hway⟩
  exact ⟨v, hv, v.mem_parameters_of_mem_ways hway (mem_of_through? hthrough).1⟩

/-- A flag that is typed at a node is one that a usage declares. -/
theorem Resolution.mem_declared {root : Parameter} {g : Grammar} {settings : TreeSettings}
    (hg : g.Reachable root) (hseal : g.seal settings = .ok t)
    (hres : t.Resolution caps source tokens u steps after) {n : Node} {f : TypedFlag}
    (hs : .flag n f ∈ steps) : n.parameter ∈ FlagTable.declared t.usages := by
  rcases hres.mem_parameters hg hseal hs with ⟨v, hv, hmem⟩
  have hflag := (hres.trail.follows.named_of_flag hs).1
  exact List.mem_flatMap.2 ⟨v, hv, List.mem_filter.2 ⟨hmem, hflag⟩⟩

/-- **What a flag means.** In a tree sealed from a grammar that can be built, the flags of an answer
are those typed on the way. The table confirms those that it was asked for. It confirms one that was
typed at a node exactly if the flag of the node is like the first declared flag that answers to the
word. -/
theorem confirms_iff {root : Parameter} {g : Grammar} {settings : TreeSettings}
    (hg : g.Reachable root) (hseal : g.seal settings = .ok t) (caps : Capabilities Source)
    (source : Source) (tokens : List String)
    (h : (t.dispatch caps source tokens).status = .complete) :
    (∃ u steps after, t.Resolution caps source tokens u steps after) ∧
      ∀ u steps after, t.Resolution caps source tokens u steps after →
        (t.dispatch caps source tokens).flags =
          (steps.flatMap Step.typed ++ after).map (·.bound) ∧
        (∀ f ∈ steps.flatMap Step.tabled ++ after, t.flags.Confirms f) ∧
        ∀ n f, .flag n f ∈ steps →
          ∃ first, FlagTable.firstNamed? t.usages f.token = some first ∧
            (t.flags.Confirms f ↔ n.parameter.AlikeAsFlag first) := by
  refine ⟨dispatch_complete h, ?_⟩
  intro u steps after hres
  refine ⟨hres.flags_eq_typed, ?_, ?_⟩
  · intro f hf
    exact (hres.knows hf).confirms
  · intro n f hs
    obtain ⟨hflag, hnamed, hbinds⟩ := hres.trail.follows.named_of_flag hs
    rcases FlagTable.exists_firstNamed? (hres.mem_declared hg hseal hs) hnamed with ⟨first, hfirst⟩
    refine ⟨first, hfirst, ?_⟩
    rw [FlagTable.confirms_iff_alikeAsFlag hbinds, lookup_eq_firstNamed? hg hseal, hfirst,
      hres.trail.follows.flag_eq hs]
    simp

/-- Two switches that share an alias. -/
def sharedAliasUsages : List Usage :=
  [⟨"a", [.literal "x" [], .switch "silent" ["s"]], none, none, false⟩,
    ⟨"b", [.literal "y" [], .switch "server" ["s"]], none, none, false⟩]

/-- The same word stands for one flag in front of the literal and for another one behind it. -/
theorem confirms_iff_twice :
    ∃ t words, words = ["-s", "y", "-s"] ∧ ofUsages "cmd" sharedAliasUsages = .ok t ∧
      (t.dispatch .builtin () words).status = .complete ∧
      ∃ u steps after, t.Resolution .builtin () words u steps after ∧
        (t.dispatch .builtin () words).flags =
          (steps.flatMap Step.typed ++ after).map (·.bound) ∧
        (∀ f ∈ steps.flatMap Step.tabled ++ after, t.flags.Confirms f) ∧
        ∀ n f, .flag n f ∈ steps →
          ∃ first, FlagTable.firstNamed? t.usages f.token = some first ∧
            (t.flags.Confirms f ↔ n.parameter.AlikeAsFlag first) := by
  obtain ⟨t, ht⟩ : ∃ t, ofUsages "cmd" sharedAliasUsages = .ok t := ⟨_, rfl⟩
  have hcomplete : (t.dispatch .builtin () ["-s", "y", "-s"]).status = .complete := by
    cases ht
    rfl
  rcases bind_eq_ok_iff.1 ht with ⟨g, hg, hseal⟩
  obtain ⟨⟨u, steps, after, hres⟩, hflags⟩ :=
    confirms_iff (.insertAll .new hg) hseal .builtin () _ hcomplete
  exact ⟨t, _, rfl, ht, hcomplete, u, steps, after, hres, hflags u steps after hres⟩

/-- A flag that is typed behind its usage's literal is bound as that usage declares it, though the
table takes the word for a flag of another name, and binds that one in front of the literal. -/
theorem flag_unconfirmed :
    ∃ t silent server, ofUsages "cmd" sharedAliasUsages = .ok t ∧
      (t.dispatch .builtin () ["y", "-s"]).status = .complete ∧
      (t.dispatch .builtin () ["y", "-s"]).flags = [⟨server, none⟩] ∧
      t.flags.lookup "-s" = some silent ∧ server.name ≠ silent.name ∧
      ¬ t.flags.Confirms ⟨"-s", server, none⟩ ∧
      (t.dispatch .builtin () ["-s", "y"]).flags = [⟨silent, none⟩] := by
  refine ⟨_, .switch "silent" ["s"], .switch "server" ["s"], rfl, rfl, rfl, rfl, by decide, ?_, rfl⟩
  rintro ⟨q, hlookup, hname, -⟩
  cases hlookup
  revert hname
  decide

/-- Whether declared flags are alike if some word names them both. -/
def NamesAlike (t : CommandTree) : Prop :=
  ∀ p ∈ FlagTable.declared t.usages, ∀ q ∈ FlagTable.declared t.usages, ∀ word,
    p.answersTo word = true → q.answersTo word = true → p.AlikeAsFlag q

/-- Where declared flags that share a name are alike, the table confirms every flag of an answer. -/
theorem NamesAlike.confirms {root : Parameter} {g : Grammar} {settings : TreeSettings}
    (hg : g.Reachable root) (hseal : g.seal settings = .ok t) (halike : t.NamesAlike)
    (hres : t.Resolution caps source tokens u steps after) {f : TypedFlag}
    (hf : f ∈ steps.flatMap Step.typed ++ after) : t.flags.Confirms f := by
  rcases Step.mem_flatMap_typed_iff.1 hf with htabled | ⟨n, hs⟩
  · exact (hres.knows htabled).confirms
  · obtain ⟨hflag, hnamed, hbinds⟩ := hres.trail.follows.named_of_flag hs
    have hdeclared := hres.mem_declared hg hseal hs
    rcases FlagTable.exists_firstNamed? hdeclared hnamed with ⟨first, hfirst⟩
    rcases (Option.any_eq_true _ _).1 hnamed with ⟨word, hword, hanswers⟩
    have hfirstAnswers : first.answersTo word = true := by
      simpa [hword] using List.find?_some hfirst
    rw [FlagTable.confirms_iff_alikeAsFlag hbinds, lookup_eq_firstNamed? hg hseal,
      hres.trail.follows.flag_eq hs]
    exact ⟨first, hfirst,
      halike _ hdeclared _ (List.mem_of_find?_eq_some hfirst) word hanswers hfirstAnswers⟩

end CommandTree

end CommandLanguage

import CommandLanguage.Proofs.Gates
import CommandLanguage.Proofs.Outline
import CommandLanguage.Proofs.RequiredParameters

/-!
# Declared permissions

The gate of a node is the permission that was declared on the parameter that the node was made for.
A source to which an input resolves has passed the gates on the way, which leaves two kinds of
declared permissions that nothing has checked:

* a usage may declare another permission than the one that made the node which it shares. The nodes
  on the way to a resolved usage were made for the parameters of the first ways along their path, and
  of these the source holds the permissions (`CommandTree.holdsDeclared_iff`). It may lack one that
  the usage itself declares (`CommandTree.declared_unheld`), but not where usages that share a node
  declare the same (`CommandTree.SharesPermissions.holdsDeclared`);
* a flag that the table knows is bound without any gate: `CommandTree.permitsFlags_iff` and
  `CommandTree.flag_unpermitted` say the same of the flags of an answer.
-/

namespace CommandLanguage

/-! ## Flags of steps -/

/-- The flags that the table knew before a node that takes words. -/
def Step.tabled : Step → List TypedFlag
  | .take before _ _ => before
  | _ => []

/-- The flags that the answer has from a step were known to the table, or the node is a flag. -/
theorem Step.mem_kept_iff {s : Step} {b : BoundFlag} :
    b ∈ s.kept ↔ (∃ f ∈ s.tabled, f.bound = b) ∨ ∃ n f, s = .flag n f ∧ f.bound = b := by
  cases s with
  | take before n ws => simp [kept, tabled]
  | flag n f => simp [kept, tabled, eq_comm]
  | pass before n => simp [kept, tabled]

/-- The flags of the table on the way are known to it. -/
theorem Judge.Follows.knows_tabled {j : Judge} {n : Node} {steps : List Step} {left : List String}
    (h : j.Follows n steps left) {s : Step} (hs : s ∈ steps) : ∀ f ∈ s.tabled, j.Knows f := by
  rcases h.exists_allows hs with ⟨rest, hallows⟩
  cases hallows with
  | word _ _ hknown | greedy _ _ hknown => exact hknown
  | flag | pass => simp [Step.tabled]

/-- A flag that is typed at a node is bound from the parameter of the node. -/
theorem Judge.Follows.flag_eq {j : Judge} {n m : Node} {f : TypedFlag} {steps : List Step}
    {left : List String} (h : j.Follows n steps left) (hs : .flag m f ∈ steps) :
    f.bound.flag = m.parameter := by
  rcases h.exists_allows hs with ⟨rest, hallows⟩
  cases hallows with
  | flag _ _ _ hbound => exact hbound

/-! ## Nodes and their makers -/

/-- Where siblings are in slots of their own, the slots up to a step lead to its node. -/
theorem Judge.Follows.at?_eq {j : Judge} {n : Node} {steps : List Step} {left : List String}
    (h : j.Follows n steps left) (hn : n.Apart) {i : Nat} {s : Step} (hs : steps[i]? = some s) :
    n.at? ((steps.map Step.slot).take (i + 1)) = some s.node := by
  induction h generalizing i with
  | nil => simp at hs
  | @cons n s' steps left hmem _ _ ih =>
    have hfind : n.children.find? (·.parameter.slot == s'.slot) = some s'.node :=
      hn.find?_slot hmem
    rw [List.map_cons, List.take_succ_cons, Node.at?, hfind]
    cases i with
    | zero =>
      obtain rfl : s' = s := by simpa using hs
      rfl
    | succ i => exact ih (hn.child hmem) (by simpa using hs)

namespace CommandTree

variable {Source : Type} {t : CommandTree} {caps : Capabilities Source} {source : Source}
  {tokens : List String} {u : NumberedUsage} {steps : List Step} {after : List TypedFlag}

/-- The parameter that the node at a path is made for: that of the first way of typing along it, in
the order of the usages. -/
def maker? (t : CommandTree) (path : List Slot) : Option Parameter :=
  (t.usages.flatMap Usage.ways).findSome? (through? path)

/-- The nodes on the way to a resolved usage are about the parameters that they were made for, and
have the permissions that these declare. -/
theorem Resolution.maker {root : Parameter} {g : Grammar} {settings : TreeSettings}
    (hg : g.Reachable root) (hseal : g.seal settings = .ok t)
    (hres : t.Resolution caps source tokens u steps after) {i : Nat} {s : Step}
    (hs : steps[i]? = some s) :
    t.maker? ((steps.map Step.slot).take (i + 1)) = some s.node.parameter ∧
      ∀ x, s.node.parameter.permission = some x → s.node.permission = some x := by
  have houtlined := (hg.of_seal hseal).1.outlined
  have hat := hres.trail.follows.at?_eq houtlined.apart hs
  have hview : t.root.view ((steps.map Step.slot).take (i + 1)) = some s.node.entry := by
    rw [Node.view, hat]
    rfl
  constructor
  · have hne : (steps.map Step.slot).take (i + 1) ≠ [] := by
      intro hnil
      rcases List.take_eq_nil_iff.1 hnil with hzero | hsteps
      · omega
      · obtain rfl : steps = [] := by simpa using hsteps
        simp at hs
    have hparameter := houtlined.parameter hne
    rw [hview] at hparameter
    exact hparameter.symm
  · intro x hx
    exact houtlined.permission hview hx

/-- A source to which an input resolves holds the permissions declared on the parameters that nodes
which are not passed over were made for. -/
theorem Resolution.permits_maker {root : Parameter} {g : Grammar} {settings : TreeSettings}
    (hg : g.Reachable root) (hseal : g.seal settings = .ok t)
    (hres : t.Resolution caps source tokens u steps after) {s : Step} (hs : s ∈ steps)
    (hpass : s.passes = false) :
    caps.permits source s.node.parameter.permission = true := by
  rcases List.getElem?_of_mem hs with ⟨i, hi⟩
  cases hdeclared : s.node.parameter.permission with
  | none => rfl
  | some x =>
    have hpermits := hres.permits hs hpass
    rwa [(hres.maker hg hseal hi).2 x hdeclared] at hpermits

/-! ## Permissions of parameters -/

/-- Whether a source holds the permissions that a way of typing a usage declares on the parameters
whose nodes are bound. -/
def HoldsDeclared (permits : Option String → Bool) (steps : List Step) (e : List Parameter) : Prop :=
  ∀ (i : Nat) (s : Step) (p : Parameter), steps[i]? = some s → e[i]? = some p →
    s.binding?.isSome = true → permits p.permission = true

/-- Whether a source holds those of these permissions that are not the ones of the parameters that
the nodes are about. -/
def HoldsOthers (permits : Option String → Bool) (steps : List Step) (e : List Parameter) : Prop :=
  ∀ (i : Nat) (s : Step) (p : Parameter), steps[i]? = some s → e[i]? = some p →
    s.binding?.isSome = true → p.permission ≠ s.node.parameter.permission →
    permits p.permission = true

/-- **Declared permissions of a resolved usage.** In a tree sealed from a grammar that can be built,
the path of an input that resolves goes along one of the ways of typing its usage. Its nodes were
made for the parameters of the first ways along it, whose permissions the source holds if they are
bound. So of what the usage itself declares on them the source holds all that they declare too, and
only the rest is left to ask for. -/
theorem holdsDeclared_iff {root : Parameter} {g : Grammar} {settings : TreeSettings}
    (hg : g.Reachable root) (hseal : g.seal settings = .ok t) (caps : Capabilities Source)
    (source : Source) (tokens : List String)
    (h : (t.dispatch caps source tokens).status = .complete) :
    (∃ u steps after, t.Resolution caps source tokens u steps after) ∧
      ∀ u steps after, t.Resolution caps source tokens u steps after →
        t.usages[u.number]? = some u.usage ∧
        (∃ e ∈ u.usage.ways, steps.map Step.slot = slots e) ∧
        (∀ (i : Nat) (s : Step), steps[i]? = some s →
          t.maker? ((steps.map Step.slot).take (i + 1)) = some s.node.parameter) ∧
        (∀ s ∈ steps, s.binding?.isSome = true →
          caps.permits source s.node.parameter.permission = true) ∧
        ∀ e ∈ u.usage.ways, steps.map Step.slot = slots e →
          (HoldsDeclared (caps.permits source) steps e ↔
            HoldsOthers (caps.permits source) steps e) := by
  refine ⟨dispatch_complete h, ?_⟩
  intro u steps after hres
  have hbound : ∀ s ∈ steps, s.binding?.isSome = true →
      caps.permits source s.node.parameter.permission = true := by
    intro s hs hbinds
    refine hres.permits_maker hg hseal hs ?_
    cases s with
    | take | flag => rfl
    | pass => cases hbinds
  rcases hres.exists_way hg hseal with ⟨hnumber, hway⟩
  refine ⟨hnumber, hway, ?_, hbound, ?_⟩
  · intro i s hs
    exact (hres.maker hg hseal hs).1
  · intro e _ _
    constructor
    · intro hholds i s p hs hp hbinds _
      exact hholds i s p hs hp hbinds
    · intro hothers i s p hs hp hbinds
      by_cases hsame : p.permission = s.node.parameter.permission
      · rw [hsame]
        exact hbound s (List.mem_of_getElem? hs) hbinds
      · exact hothers i s p hs hp hbinds hsame

/-- The host's answers, but for one permission that nobody has. -/
def withheld (permission : String) : Capabilities Unit :=
  { Capabilities.builtin with grants := fun _ p => p ≠ permission }

/-- A usage without a permission, and one that asks for a permission of the word that they share. -/
def adminUsages : List Usage :=
  [⟨"status", [.literal "admin" [], .literal "status" []], none, none, false⟩,
    ⟨"reload", [{ Parameter.literal "admin" [] with permission := some "kit.admin" },
      .literal "reload" []], none, none, false⟩]

/-- The permission of the shared word is held by a source that has all of them. -/
theorem holdsDeclared_iff_admin :
    ∃ t words, words = ["admin", "reload"] ∧ ofUsages "kit" adminUsages = .ok t ∧
      (t.dispatch .builtin () words).status = .complete ∧
      ∃ u steps after, t.Resolution .builtin () words u steps after ∧
        ∃ e ∈ u.usage.ways, (HoldsDeclared (Capabilities.builtin.permits ()) steps e ↔
          HoldsOthers (Capabilities.builtin.permits ()) steps e) := by
  obtain ⟨t, ht⟩ : ∃ t, ofUsages "kit" adminUsages = .ok t := ⟨_, rfl⟩
  have hcomplete : (t.dispatch .builtin () ["admin", "reload"]).status = .complete := by
    cases ht
    rfl
  rcases bind_eq_ok_iff.1 ht with ⟨g, hg, hseal⟩
  obtain ⟨⟨u, steps, after, hres⟩, hholds⟩ :=
    holdsDeclared_iff (.insertAll .new hg) hseal .builtin () _ hcomplete
  obtain ⟨-, ⟨e, he, hslots⟩, -, -, hiff⟩ := hholds u steps after hres
  exact ⟨t, _, rfl, ht, hcomplete, u, steps, after, hres, e, he, hiff e he hslots⟩

/-- A usage resolves for a source without the permission that it asks for on a word, since a usage
inserted before it has the same word without a permission. -/
theorem declared_unheld :
    ∃ t u p words, words = ["admin", "reload"] ∧ ofUsages "kit" adminUsages = .ok t ∧
      (t.dispatch (withheld "kit.admin") () words).status = .complete ∧
      (t.dispatch (withheld "kit.admin") () words).usage = some u ∧
      p ∈ u.usage.parameters ∧ p.isLiteral = true ∧
      (∃ b ∈ (t.dispatch (withheld "kit.admin") () words).bindings,
        b.node.parameter.sameSlot p = true) ∧
      (withheld "kit.admin").permits () p.permission = false := by
  refine ⟨_, _, _, _, rfl, rfl, rfl, rfl, List.mem_cons_self, rfl, ?_, by decide⟩
  exact ⟨_, List.mem_cons_self, by decide⟩

/-- Whether usages that share a node declare the same permission on it: each way of typing declares
what the first way along it does. -/
def SharesPermissions (t : CommandTree) : Prop :=
  ∀ u ∈ t.usages, ∀ e ∈ u.ways, ∀ (i : Nat) (p q : Parameter), e[i]? = some p →
    t.maker? ((slots e).take (i + 1)) = some q → p.permission = q.permission

/-- Where usages that share a node declare the same permission on it, a source to which an input
resolves holds the permissions that the usage declares. -/
theorem SharesPermissions.holdsDeclared {root : Parameter} {g : Grammar} {settings : TreeSettings}
    (hg : g.Reachable root) (hseal : g.seal settings = .ok t) (hshares : t.SharesPermissions)
    (hres : t.Resolution caps source tokens u steps after) {e : List Parameter}
    (he : e ∈ u.usage.ways) (hslots : steps.map Step.slot = slots e) :
    HoldsDeclared (caps.permits source) steps e := by
  intro i s p hs hp hbinds
  rcases hres.exists_way hg hseal with ⟨hnumber, -⟩
  have hmaker := (hres.maker hg hseal hs).1
  rw [hslots] at hmaker
  rw [hshares u.usage (List.mem_of_getElem? hnumber) e he i p _ hp hmaker]
  refine hres.permits_maker hg hseal (List.mem_of_getElem? hs) ?_
  cases s with
  | take | flag => rfl
  | pass => cases hbinds

/-! ## Permissions of flags -/

/-- Whether a source holds the permissions declared on the flags that an answer lists. -/
def PermitsFlags (permits : Option String → Bool) (flags : List BoundFlag) : Prop :=
  ∀ f ∈ flags, permits f.flag.permission = true

/-- The flags that the table was asked for on the way to a resolved usage are known to it. -/
theorem Resolution.knows (hres : t.Resolution caps source tokens u steps after) {f : TypedFlag}
    (hf : f ∈ steps.flatMap Step.tabled ++ after) : (t.judge caps source).Knows f := by
  rcases List.mem_append.1 hf with hf | hf
  · rcases List.mem_flatMap.1 hf with ⟨s, hs, hf⟩
    exact hres.trail.follows.knows_tabled hs f hf
  · exact hres.trail.known f hf

/-- A flag of an answer was known to the table, or it was typed at a node. -/
theorem Resolution.mem_flags_iff (hres : t.Resolution caps source tokens u steps after)
    {b : BoundFlag} :
    b ∈ (t.dispatch caps source tokens).flags ↔
      (∃ f ∈ steps.flatMap Step.tabled ++ after, f.bound = b) ∨
        ∃ n f, .flag n f ∈ steps ∧ f.bound = b := by
  rw [hres.flags, List.mem_append, List.mem_flatMap, List.mem_map]
  constructor
  · rintro (⟨s, hs, hb⟩ | ⟨f, hf, hb⟩)
    · rcases Step.mem_kept_iff.1 hb with ⟨f, hf, hbound⟩ | ⟨n, f, rfl, hbound⟩
      · exact .inl ⟨f, List.mem_append_left _ (List.mem_flatMap.2 ⟨s, hs, hf⟩), hbound⟩
      · exact .inr ⟨n, f, hs, hbound⟩
    · exact .inl ⟨f, List.mem_append_right _ hf, hb⟩
  · rintro (⟨f, hf, hb⟩ | ⟨n, f, hs, hb⟩)
    · rcases List.mem_append.1 hf with hf | hf
      · rcases List.mem_flatMap.1 hf with ⟨s, hs, hf⟩
        exact .inl ⟨s, hs, Step.mem_kept_iff.2 (.inl ⟨f, hf, hb⟩)⟩
      · exact .inr ⟨f, hf, hb⟩
    · exact .inl ⟨.flag n f, hs, Step.mem_kept_iff.2 (.inr ⟨n, f, rfl, hb⟩)⟩

/-- **Declared permissions of flags.** In a tree sealed from a grammar that can be built, a flag of
an answer is one that was typed at a flag node, and then the source holds the permission that is
declared on it, or one that the table knew before a node that takes words or after the last node.
So the source holds the permissions of all the flags of the answer exactly when it holds those of
the flags that the table knew. -/
theorem permitsFlags_iff {root : Parameter} {g : Grammar} {settings : TreeSettings}
    (hg : g.Reachable root) (hseal : g.seal settings = .ok t) (caps : Capabilities Source)
    (source : Source) (tokens : List String)
    (h : (t.dispatch caps source tokens).status = .complete) :
    (∃ u steps after, t.Resolution caps source tokens u steps after) ∧
      ∀ u steps after, t.Resolution caps source tokens u steps after →
        (∀ n f, Step.flag n f ∈ steps → caps.permits source f.bound.flag.permission = true) ∧
        (∀ f ∈ steps.flatMap Step.tabled ++ after,
          t.flags.lookup f.token = some f.bound.flag) ∧
        (PermitsFlags (caps.permits source) (t.dispatch caps source tokens).flags ↔
          ∀ f ∈ steps.flatMap Step.tabled ++ after,
            caps.permits source f.bound.flag.permission = true) := by
  refine ⟨dispatch_complete h, ?_⟩
  intro u steps after hres
  have htyped : ∀ n f, Step.flag n f ∈ steps →
      caps.permits source f.bound.flag.permission = true := by
    intro n f hs
    rw [hres.trail.follows.flag_eq hs]
    exact hres.permits_maker hg hseal hs rfl
  refine ⟨htyped, fun f hf => (hres.knows hf).lookup, ?_⟩
  constructor
  · intro hpermits f hf
    exact hpermits f.bound (hres.mem_flags_iff.2 (.inl ⟨f, hf, rfl⟩))
  · intro htable b hb
    rcases hres.mem_flags_iff.1 hb with ⟨f, hf, rfl⟩ | ⟨n, f, hs, rfl⟩
    · exact htable f hf
    · exact htyped n f hs

/-- A text, and a switch that asks for a permission. -/
def guardedUsages : List Usage :=
  [⟨"h", [.required "s" .string, { Parameter.switch "v" [] with permission := some "p" }],
    none, none, false⟩]

/-- The switch is typed before the text, where the table knows it, and after it. -/
theorem permitsFlags_iff_switch :
    ∃ t words, words = ["-v", "hello", "-v"] ∧ ofUsages "cmd" guardedUsages = .ok t ∧
      (t.dispatch .builtin () words).status = .complete ∧
      ∃ u steps after, t.Resolution .builtin () words u steps after ∧
        (PermitsFlags (Capabilities.builtin.permits ()) (t.dispatch .builtin () words).flags ↔
          ∀ f ∈ steps.flatMap Step.tabled ++ after,
            Capabilities.builtin.permits () f.bound.flag.permission = true) := by
  obtain ⟨t, ht⟩ : ∃ t, ofUsages "cmd" guardedUsages = .ok t := ⟨_, rfl⟩
  have hcomplete : (t.dispatch .builtin () ["-v", "hello", "-v"]).status = .complete := by
    cases ht
    rfl
  rcases bind_eq_ok_iff.1 ht with ⟨g, hg, hseal⟩
  obtain ⟨⟨u, steps, after, hres⟩, hflags⟩ :=
    permitsFlags_iff (.insertAll .new hg) hseal .builtin () _ hcomplete
  exact ⟨t, _, rfl, ht, hcomplete, u, steps, after, hres, (hflags u steps after hres).2.2⟩

/-- A flag that is typed before the first argument is bound for a source without the permission that
is declared on it. -/
theorem flag_unpermitted :
    ∃ t words, words = ["-v", "hello"] ∧ ofUsages "cmd" guardedUsages = .ok t ∧
      (t.dispatch (withheld "p") () words).status = .complete ∧
      ¬ PermitsFlags ((withheld "p").permits ()) (t.dispatch (withheld "p") () words).flags := by
  refine ⟨_, _, rfl, rfl, rfl, ?_⟩
  intro hpermits
  have hflag := hpermits ⟨{ Parameter.switch "v" [] with permission := some "p" }, none⟩
    List.mem_cons_self
  have hdenied : (withheld "p").permits () (some "p") = false := by decide
  rw [hdenied] at hflag
  cases hflag

end CommandTree

end CommandLanguage

import CommandLanguage.Proofs.FlagOrder
import CommandLanguage.Proofs.Gates
import CommandLanguage.Proofs.Seek
import CommandLanguage.Proofs.Undecidable
import CommandLanguage.Proofs.ValueSets

/-!
# Optional siblings

Two usages of a single optional argument are sealed into one tree if their types and priorities
differ, but that does not make both of them reachable. What an input resolves to is told in a closed
form (`CommandTree.usage_pair`): the empty input goes to the usage inserted last, and any other to
the argument that takes its words, of which the one with the higher priority is asked first. So the
usage inserted first cannot be reached where the other argument takes whatever its own would
(`CommandTree.reaches_pair_iff`, `CommandTree.sibling_unreached`).
-/

namespace CommandLanguage

/-! ## Arguments that take an input -/

/-- Whether an argument takes all the words of an input: a greedy one takes any words of which the
first is of its type, any other one takes a single word of its type that is no flag. -/
def Parameter.takesAll (p : Parameter) : List String → Bool
  | [] => false
  | token :: rest => p.valueType.admits token && (p.greedy || (!isFlagToken token && rest.isEmpty))

/-- An argument takes what another one does if its type admits as much and it is greedy if that one
is. -/
theorem Parameter.takesAll_of_within {p q : Parameter} (hgreedy : p.greedy = true → q.greedy = true)
    (hwithin : p.valueType.Within q.valueType) {tokens : List String}
    (h : p.takesAll tokens = true) : q.takesAll tokens = true := by
  cases tokens with
  | nil => cases h
  | cons token rest =>
    simp only [takesAll, Bool.and_eq_true, Bool.or_eq_true] at h ⊢
    exact ⟨hwithin token h.1, h.2.imp_left hgreedy⟩

/-- Every argument takes some input. -/
theorem Parameter.exists_takesAll (p : Parameter) : ∃ tokens, p.takesAll tokens = true := by
  rcases p.valueType.exists_probe_admits with ⟨w, hw, hadmits⟩
  have hplain : isFlagToken w = false := ValueType.isFlagToken_of_mem_probes hw
  exact ⟨[w], by simp [takesAll, hadmits, hplain]⟩

/-- An argument takes some input that another one does not exactly if it alone is greedy, or its
type admits a word that the other type does not. -/
theorem Parameter.exists_takesAll_alone_iff {p q : Parameter} :
    (∃ tokens, p.takesAll tokens = true ∧ q.takesAll tokens = false) ↔
      (p.greedy = true ∧ q.greedy = false) ∨ ¬p.valueType.Within q.valueType := by
  constructor
  · rintro ⟨tokens, htakes, hrefuses⟩
    by_contra hnot
    simp only [not_or, not_and, Bool.not_eq_false, not_not] at hnot
    rw [takesAll_of_within hnot.1 hnot.2 htakes] at hrefuses
    cases hrefuses
  · rintro (⟨hgreedy, hsingle⟩ | hwithin)
    · -- The other argument takes no more than one word.
      rcases p.valueType.exists_probe_admits with ⟨w, -, hadmits⟩
      exact ⟨[w, w], by simp [takesAll, hadmits, hgreedy], by simp [takesAll, hsingle]⟩
    · rcases ValueType.exists_plain_of_not_within hwithin with ⟨w, hplain, hadmits, hrefuses⟩
      exact ⟨[w], by simp [takesAll, hadmits, hplain], by simp [takesAll, hrefuses]⟩

/-- A node at which a usage ends, with nothing behind it. -/
def Node.ending (u : NumberedUsage) (p : Parameter) : Node :=
  ⟨⟨0, p, none, some u, none⟩, []⟩

/-- Whether a node is an optional argument at which a usage ends, with nothing behind it. -/
inductive Node.OptionalEnd : Node → Prop where
  | of (u : NumberedUsage) {p : Parameter} {type : ValueType} :
      p.kind = .argument type true → OptionalEnd (.ending u p)

theorem Node.OptionalEnd.isOptional {c : Node} (h : c.OptionalEnd) : c.isOptional = true := by
  rcases h with @⟨u, p, type, hkind⟩
  show p.isOptional = true
  simp [Parameter.isOptional, hkind]

theorem Node.OptionalEnd.isArgument {c : Node} (h : c.OptionalEnd) : c.isArgument = true := by
  rcases h with @⟨u, p, type, hkind⟩
  show (!p.isLiteral && !p.isFlag) = true
  simp [Parameter.isLiteral, Parameter.isFlag, hkind]

namespace Judge

variable {j : Judge} {p : Parameter} {type : ValueType} {u : NumberedUsage}

/-- Where no flags are known, a flag is taken by nothing but a greedy node. -/
theorem takeFlags_of_unknown (hflags : ∀ token, j.flags.lookup token = none) (stop : Bool)
    (token : String) (rest : List String) :
    j.takeFlags stop (token :: rest) =
      if isFlagToken token && !stop then none else some ([], token :: rest) := by
  rw [takeFlags]
  cases isFlagToken token <;> cases stop <;> simp [hflags]

/-- A usage that ends at an argument is found there if no word is left. -/
theorem seekBelow_ending (hflags : ∀ token, j.flags.lookup token = none)
    (left : List String) :
    j.seekBelow (.ending u p) left = if left.isEmpty then some ⟨u, [], []⟩ else none := by
  have hresolved : (Node.ending u p).resolved? = some u := rfl
  have hnothing : j.seekAny (Node.ending u p).children left = none := rfl
  rw [seekBelow, hnothing, seekHere, hresolved]
  cases left with
  | nil => rfl
  | cons token rest =>
    rw [takeFlags_of_unknown hflags]
    cases isFlagToken token <;> rfl

/-- What is found by trying an optional argument at which a usage ends. -/
theorem usage_seek_ending (hflags : ∀ token, j.flags.lookup token = none)
    (hfits : j.fits = Parameter.admits) (hkind : p.kind = .argument type true)
    (tokens : List String) :
    (j.seek (.ending u p) tokens).map Finding.usage =
      if p.takesAll tokens then some u else none := by
  have hflag : (Node.ending u p).isFlag = false := by
    show p.isFlag = false
    simp [Parameter.isFlag, hkind]
  have hgreedy : (Node.ending u p).isGreedy = p.greedy := rfl
  have haccepts : ∀ token,
      j.accepts (Node.ending u p).parameter token = p.valueType.admits token := by
    intro token
    show j.accepts p token = p.valueType.admits token
    simp [accepts, hkind, hfits, Parameter.admits]
  -- Nothing is behind the node, so passing over it finds nothing.
  have hpassing : ∀ tokens, (if (Node.ending u p).isSkippable then
      j.seekAny (Node.ending u p).children tokens else none) = none := fun _ => ite_self _
  cases tokens with
  | nil =>
    have hnone : j.flagsBefore (.ending u p) [] = some ([], []) := by simp [flagsBefore, takeFlags]
    rw [seek_eq, hnone]
    rfl
  | cons token rest =>
    rw [seek_eq, flagsBefore, hflag, if_neg Bool.false_ne_true, takeFlags_of_unknown hflags,
      hgreedy]
    cases hlooks : isFlagToken token && !p.greedy with
    | true =>
      have hnot : isFlagToken token = true ∧ p.greedy = false := by simpa using hlooks
      simp [Parameter.takesAll, hnot]
    | false =>
      simp only [Bool.false_eq_true, if_false, hpassing, haccepts, Option.orElse_eq_orElse,
        Option.orElse_eq_or, Option.or_none, seekBelow_ending hflags, read, consume, hflag, hgreedy,
        Parameter.takesAll]
      by_cases hadmits : p.valueType.admits token = true
      · by_cases hp : p.greedy = true
        · simp [hadmits, hp, Finding.after]
        · have hplain : isFlagToken token = false := by simpa [hp] using hlooks
          cases rest <;> simp [hadmits, hp, hplain, Finding.after]
      · simp [hadmits]

/-- Among optional arguments at which usages end, the first that takes the input is found. -/
theorem usage_seekAny (hflags : ∀ token, j.flags.lookup token = none)
    (hfits : j.fits = Parameter.admits) {cs : List Node}
    (hcs : ∀ c ∈ cs, c.OptionalEnd)
    (tokens : List String) :
    (j.seekAny cs tokens).map Finding.usage =
      (cs.find? (·.parameter.takesAll tokens)).bind (·.terminal) := by
  induction cs with
  | nil => rfl
  | cons c cs ih =>
    rcases List.forall_mem_cons.1 hcs with ⟨hc, hrest⟩
    rcases hc with @⟨u, p, type, hkind⟩
    have hseek := usage_seek_ending (u := u) hflags hfits hkind tokens
    rw [seekAny, List.find?_cons]
    by_cases htakes : p.takesAll tokens = true
    · rw [if_pos htakes] at hseek
      rcases Option.map_eq_some_iff.1 hseek with ⟨found, hfound, hu⟩
      have hfirst : (Node.ending u p).parameter.takesAll tokens = true := htakes
      rw [hfound, hfirst]
      simp [hu, Node.ending]
    · rw [if_neg htakes] at hseek
      have hnone : j.seek (.ending u p) tokens = none := Option.map_eq_none_iff.1 hseek
      have hfirst : (Node.ending u p).parameter.takesAll tokens = false :=
        Bool.eq_false_iff.2 htakes
      rw [hnone, hfirst]
      simpa using ih hrest

/-- Below a node with nothing but optional arguments at which usages end, the empty input is for the
node itself, and any other one for the first argument that takes it. -/
theorem usage_seekBelow (hflags : ∀ token, j.flags.lookup token = none)
    (hfits : j.fits = Parameter.admits) {n : Node}
    (hn : ∀ c ∈ n.children, c.OptionalEnd)
    (tokens : List String) :
    (j.seekBelow n tokens).map Finding.usage =
      if tokens = [] then n.resolved?
      else (n.children.find? (·.parameter.takesAll tokens)).bind (·.terminal) := by
  cases tokens with
  | nil =>
    have htake : j.takeFlags false [] = some ([], []) := rfl
    rw [seekBelow, seekAny_nil, seekHere, htake]
    cases n.resolved? <;> rfl
  | cons token rest =>
    have hhere : j.seekHere n (token :: rest) = none := by
      rw [seekHere, takeFlags_of_unknown hflags]
      cases isFlagToken token <;> rfl
    rw [seekBelow, hhere, if_neg (List.cons_ne_nil _ _), ← usage_seekAny hflags hfits hn]
    cases j.seekAny n.children (token :: rest) <;> rfl

end Judge

/-! ## The tree of two usages -/

/-- Whether a usage is one optional argument of a type, with the priority of the type. -/
structure Usage.Single (u : Usage) (p : Parameter) (type : ValueType) : Prop where
  parameters : u.parameters = [p]
  kind : p.kind = .argument type true
  priority : p.priority = type.defaultPriority

namespace Usage.Single

variable {u v : Usage} {p q : Parameter} {s t : ValueType}

theorem isDefault (h : u.Single p s) (hu : u.WellFormed) : u.isDefault = false := by
  rw [Bool.eq_false_iff]
  intro hdefault
  have hliteral := hu.literals hdefault p (by simp [h.parameters])
  simp [Parameter.isLiteral, h.kind] at hliteral

theorem flags (h : u.Single p s) : u.flags = [] := by
  simp [Usage.flags, h.parameters, Parameter.isFlag, h.kind]

theorem ways (h : u.Single p s) (hu : u.WellFormed) : u.ways = [[p], []] := by
  have hflag : p.isFlag = false := by simp [Parameter.isFlag, h.kind]
  have hoptional : p.isOptional = true := by simp [Parameter.isOptional, h.kind]
  simp [Usage.ways, h.isDefault hu, h.parameters, expansions, Segment.ofParameters, hflag,
    Segment.expansions, hoptional]

/-- What laying such a usage below a node does: the node and the child in the slot receive it. -/
theorem layAll_eq (h : u.Single p s) (hu : u.WellFormed) (number : Nat) (n : Node) :
    Node.layAll ⟨number, u⟩ u.ways n =
      (n.putChild p ((n.childOr p).receive ⟨number, u⟩)).receive ⟨number, u⟩ := by
  rw [h.ways hu]
  rfl

/-- A usage of a single argument is received where no usage ends, or another one of a single
argument. -/
theorem receive_eq (h : u.Single p s) (hu : u.WellFormed) {number : Nat} {n : Node}
    (hheld : ∀ held, n.terminal = some held →
      held.number ≠ number ∧ held.usage.parameters.length = 1) :
    n.receive ⟨number, u⟩ = { n with terminal := some ⟨number, u⟩ } := by
  rw [Node.receive, if_neg (by simp [h.isDefault hu]), Node.bind]
  cases hterminal : n.terminal with
  | none => rfl
  | some held =>
    obtain ⟨hnumber, hlength⟩ := hheld held hterminal
    simp [hnumber, hlength, h.parameters]

/-- The tree of a first usage of a single optional argument. -/
theorem laid_first (hu : u.Single p s) (hwell : u.WellFormed) (root : Parameter) :
    Grammar.laid root [u] =
      ⟨⟨0, root, none, some ⟨0, u⟩, none⟩, [.ending ⟨0, u⟩ p]⟩ := by
  have hchild : (Node.sprout p).receive ⟨0, u⟩ = .ending ⟨0, u⟩ p := by
    rw [hu.receive_eq hwell (by simp [Node.sprout])]
    rfl
  have hput : (Node.sprout root).putChild p (.ending ⟨0, u⟩ p) =
      ⟨⟨0, root, none, none, none⟩, [.ending ⟨0, u⟩ p]⟩ := rfl
  have hlaid : Grammar.laid root [u] = Node.layAll ⟨0, u⟩ u.ways (.sprout root) := rfl
  rw [hlaid, hu.layAll_eq hwell]
  show ((Node.sprout root).putChild p ((Node.sprout p).receive ⟨0, u⟩)).receive ⟨0, u⟩ = _
  rw [hchild, hput, hu.receive_eq hwell (by simp)]

/-- **Two optional arguments.** In the tree of two usages of a single optional argument the second
usage ends at the root. So it does at the only argument if the two are in one slot; else there are
two arguments, and at each of them its own usage ends. -/
theorem laid_pair (hu : u.Single p s) (hv : v.Single q t) (hwell : u.WellFormed)
    (hwell' : v.WellFormed) (root : Parameter) :
    Grammar.laid root [u, v] =
      ⟨⟨0, root, none, some ⟨1, v⟩, none⟩,
        if p.sameSlot q then [.ending ⟨1, v⟩ p]
        else Node.insertSibling (.ending ⟨1, v⟩ q) [.ending ⟨0, u⟩ p]⟩ := by
  have hlaid : Grammar.laid root [u, v] =
      Node.layAll ⟨1, v⟩ v.ways (Grammar.laid root [u]) := rfl
  rw [hlaid, hu.laid_first hwell, hv.layAll_eq hwell']
  by_cases hslot : p.sameSlot q = true
  · have hchild : Node.child? ⟨⟨0, root, none, some ⟨0, u⟩, none⟩, [.ending ⟨0, u⟩ p]⟩ q =
        some (.ending ⟨0, u⟩ p) := by simp [Node.child?, Node.ending, hslot]
    have hreceive : (Node.ending ⟨0, u⟩ p).receive ⟨1, v⟩ = .ending ⟨1, v⟩ p := by
      rw [hv.receive_eq hwell' (by simp [Node.ending, hu.parameters])]
      rfl
    rw [if_pos hslot, Node.childOr, hchild, Option.getD_some, hreceive, Node.putChild, hchild]
    rw [hv.receive_eq hwell' (by simp [hu.parameters])]
    simp [Node.replaceSibling, Node.ending, hslot]
  · have hchild : Node.child? ⟨⟨0, root, none, some ⟨0, u⟩, none⟩, [.ending ⟨0, u⟩ p]⟩ q =
        none := by simp [Node.child?, Node.ending, hslot]
    have hreceive : (Node.sprout q).receive ⟨1, v⟩ = .ending ⟨1, v⟩ q := by
      rw [hv.receive_eq hwell' (by simp [Node.sprout])]
      rfl
    rw [if_neg hslot, Node.childOr, hchild, Option.getD_none, hreceive, Node.putChild, hchild]
    rw [hv.receive_eq hwell' (by simp [hu.parameters])]

end Usage.Single

/-! ## Sealing -/

namespace Node

theorem arguments_bare (n : Node) : n.bare.arguments = n.arguments.map bare := by
  have hargument : ∀ c : Node, c.bare.isArgument = c.isArgument := by
    intro c
    simp [isArgument]
  rw [arguments, children_bare, List.filter_map, arguments]
  simp [Function.comp_def, hargument]

/-- Whether arguments can be told apart depends on nothing but the bare tree. -/
theorem hasIndistinctArguments_bare (n : Node) :
    n.bare.hasIndistinctArguments = n.hasIndistinctArguments := by
  have hoptional : ∀ c : Node, c.bare.isOptional = c.isOptional := by
    intro c
    simp [isOptional]
  simp [hasIndistinctArguments, arguments_bare, ofOneNature, Function.comp_def, hoptional]

end Node

/-- The arguments below the root of a sealed grammar can be told apart. -/
theorem Grammar.hasIndistinctArguments_of_seal {g : Grammar} {settings : TreeSettings}
    {t : CommandTree} (hseal : g.seal settings = .ok t) :
    g.root.hasIndistinctArguments = false := by
  have hfault := (seal_eq_ok_iff.1 hseal).1
  have hroot := (Node.firstFault?_eq_none_iff.1 hfault).1
  rw [Node.fault?_eq_none_iff] at hroot
  rw [Bool.eq_false_iff]
  intro h
  exact hroot (.inr (Node.hasIndistinctArguments_iff.1 h))

/-! ## Priorities -/

/-- The default priorities are far apart, or the greatest. -/
theorem ValueType.level_defaultPriority (t : ValueType) :
    0 ≤ t.defaultPriority.level ∧
      (t.defaultPriority.level ≤ 101 ∨ t.defaultPriority.level = 2147483647) := by
  unfold defaultPriority
  repeat' split
  all_goals decide

theorem Priority.lt_or_gt_of_ne {a b : Priority} (h : a ≠ b) : a < b ∨ b < a := by
  have hlevel : a.level ≠ b.level := fun heq => h (Priority.ext_level heq)
  exact Int.lt_or_gt_of_ne hlevel

/-- Optional siblings are in the order of the default priorities of their types. -/
theorem Usage.Single.siblingPriority_lt_iff {u v : Usage} {p q : Parameter} {s t : ValueType}
    (hu : u.Single p s) (hv : v.Single q t) :
    p.siblingPriority < q.siblingPriority ↔ s.defaultPriority < t.defaultPriority := by
  have hs := s.level_defaultPriority
  have ht := t.level_defaultPriority
  simp only [Parameter.siblingPriority, hu.kind, hv.kind, hu.priority, hv.priority]
  show (s.defaultPriority.plus 3).level < (t.defaultPriority.plus 3).level ↔
    s.defaultPriority.level < t.defaultPriority.level
  rw [Priority.level_plus, Priority.level_plus]
  omega

/-! ## Answers -/

namespace CommandTree

variable {Source : Type} {t : CommandTree} {caps : Capabilities Source} {source : Source}

/-- Where nothing is denied and some argument below the root is optional, the usage of an answer is
the one that seeking finds. -/
theorem usage_dispatch_eq (hpermits : ∀ gate, caps.permits source gate = true)
    (hoptional : ∃ c ∈ t.root.children, c.isOptional = true) (tokens : List String) :
    (t.dispatch caps source tokens).usage =
      ((t.judge caps source).seekBelow t.root tokens).map Finding.usage := by
  have hjudge : ∀ gate, (t.judge caps source).permits gate = true := hpermits
  have hfirst : t.refusesFirst (t.judge caps source) tokens = false := by
    rcases hoptional with ⟨c, hc, hskip⟩
    cases tokens with
    | nil => rfl
    | cons token rest =>
      rw [refusesFirst, Bool.and_eq_false_iff, List.all_eq_false]
      exact .inr ⟨c, hc, by simp [hskip]⟩
  rw [dispatch_eq_ofWalk (hpermits _) hfirst]
  have htells : Tells ((t.judge caps source).descend (.root t.root) tokens)
      ((t.judge caps source).seekBelow t.root tokens) := Judge.descend_tells hjudge _ tokens
  generalize (t.judge caps source).descend (.root t.root) tokens = walked at htells ⊢
  generalize (t.judge caps source).seekBelow t.root tokens = found at htells ⊢
  cases htells with
  | @hit h u hending =>
    rcases h with ⟨last, ending, bindings, flags⟩
    obtain rfl : ending = .complete u := hending
    rfl
  | miss => rfl

section Pair

variable {root : Parameter} {g : Grammar} {settings : TreeSettings} {u v : Usage}
  {p q : Parameter} {first second : ValueType}

/-- The tree of two usages of a single optional argument, but for numbers and permissions. -/
theorem bare_pair (hg : g.Reachable root) (husages : g.usages = [u, v]) (hu : u.Single p first)
    (hv : v.Single q second) :
    g.root.bare =
      ⟨⟨0, root, none, some ⟨1, v⟩, none⟩,
        if p.sameSlot q then [.ending ⟨1, v⟩ p]
        else if first.defaultPriority < second.defaultPriority then
          [.ending ⟨1, v⟩ q, .ending ⟨0, u⟩ p]
        else [.ending ⟨0, u⟩ p, .ending ⟨1, v⟩ q]⟩ := by
  have hwell := hg.faithful.wellFormed
  rw [husages] at hwell
  have horder : Node.insertSibling (.ending ⟨1, v⟩ q) [.ending ⟨0, u⟩ p] =
      if first.defaultPriority < second.defaultPriority then
        [.ending ⟨1, v⟩ q, .ending ⟨0, u⟩ p]
      else [.ending ⟨0, u⟩ p, .ending ⟨1, v⟩ q] := by
    show (if p.siblingPriority < q.siblingPriority then _ else _) = _
    rw [if_congr (hu.siblingPriority_lt_iff hv) rfl rfl]
    rfl
  rw [hg.bare_eq, husages, hu.laid_pair hv (hwell u (by simp)) (hwell v (by simp)), horder]

/-- **The answers of two optional siblings.** The empty input is for the second usage. Any other one
is for the argument that takes its words, and if both do for the one whose type comes first by
priority; at two arguments in one slot only the second usage ends. -/
theorem usage_pair (hg : g.Reachable root) (hseal : g.seal settings = .ok t)
    (husages : g.usages = [u, v]) (hu : u.Single p first) (hv : v.Single q second)
    (hfits : caps.fits = Parameter.admits) (hpermits : ∀ gate, caps.permits source gate = true)
    (tokens : List String) :
    (t.dispatch caps source tokens).usage =
      if tokens = [] then some ⟨1, v⟩
      else if p.sameSlot q then if p.takesAll tokens then some ⟨1, v⟩ else none
      else if first.defaultPriority < second.defaultPriority then
        if q.takesAll tokens then some ⟨1, v⟩ else if p.takesAll tokens then some ⟨0, u⟩ else none
      else if p.takesAll tokens then some ⟨0, u⟩
      else if q.takesAll tokens then some ⟨1, v⟩ else none := by
  have husages' : t.usages = [u, v] := (hg.of_seal hseal).2.1.trans husages
  have hbare := bare_pair (hg.of_seal hseal).1 husages' hu hv
  dsimp only at hbare
  have hflags : ∀ token, (t.judge caps source).flags.lookup token = none := by
    intro token
    show t.flags.lookup token = none
    rw [flags_of_seal hseal, husages, FlagTable.lookup_ofUsages]
    simp [FlagTable.declared, hu.flags, hv.flags]
  have hn : ∀ c ∈ t.root.bare.children, c.OptionalEnd := by
    rw [hbare]
    dsimp only
    split
    · simpa using Node.OptionalEnd.of _ hu.kind
    · split <;> simp [Node.OptionalEnd.of _ hu.kind, Node.OptionalEnd.of _ hv.kind]
  have hoptional : ∃ c ∈ t.root.children, c.isOptional = true := by
    have hne : t.root.bare.children ≠ [] := by
      rw [hbare]
      dsimp only
      split
      · simp
      · split <;> simp
    rw [Node.children_bare] at hn hne
    rcases List.exists_mem_of_ne_nil _ (by simpa using hne) with ⟨c, hc⟩
    exact ⟨c, hc, by simpa [Node.isOptional] using (hn _ (List.mem_map_of_mem hc)).isOptional⟩
  -- The answer is the first ending that takes the words, in the order of the priorities.
  rw [usage_dispatch_eq hpermits hoptional, ← Judge.seekBelow_bare,
    Judge.usage_seekBelow hflags hfits hn, hbare]
  by_cases hnone : tokens = []
  · rw [if_pos hnone, if_pos hnone]
    rfl
  · rw [if_neg hnone, if_neg hnone]
    dsimp only
    split
    · cases htakes : p.takesAll tokens <;> simp [htakes, Node.ending]
    · split
      · cases htakes : p.takesAll tokens <;> cases htakes' : q.takesAll tokens <;>
          simp [htakes, htakes', Node.ending]
      · cases htakes : p.takesAll tokens <;> cases htakes' : q.takesAll tokens <;>
          simp [htakes, htakes', Node.ending]

/-- Sealed siblings in slots of their own differ in their priorities. -/
theorem defaultPriority_ne_of_seal (hg : g.Reachable root) (hseal : g.seal settings = .ok t)
    (husages : g.usages = [u, v]) (hu : u.Single p first) (hv : v.Single q second)
    (hslot : p.sameSlot q = false) : first.defaultPriority ≠ second.defaultPriority := by
  intro hsame
  have hdistinct := Grammar.hasIndistinctArguments_of_seal hseal
  have hpriority : p.priority = q.priority := hu.priority.trans (hsame.trans hv.priority.symm)
  have hnot : ¬first.defaultPriority < second.defaultPriority := by
    rw [hsame]
    exact Int.lt_irrefl _
  have hend := Node.OptionalEnd.of ⟨0, u⟩ hu.kind
  have hend' := Node.OptionalEnd.of ⟨1, v⟩ hv.kind
  have hshared : (Node.ending ⟨0, u⟩ p).parameter.priority =
      (Node.ending ⟨1, v⟩ q).parameter.priority := hpriority
  rw [← Node.hasIndistinctArguments_bare, bare_pair hg husages hu hv, hslot,
    if_neg Bool.false_ne_true, if_neg hnot] at hdistinct
  simp [Node.hasIndistinctArguments, Node.arguments, Node.ofOneNature, Node.repeats,
    hend.isArgument, hend'.isArgument, hend.isOptional, hend'.isOptional, hshared] at hdistinct

/-- The first usage is the answer to some input exactly if the arguments are in slots of their own
and its argument takes words that the other one does not, if that one is asked before. -/
theorem exists_usage_first_iff (hg : g.Reachable root) (hseal : g.seal settings = .ok t)
    (husages : g.usages = [u, v]) (hu : u.Single p first) (hv : v.Single q second)
    (hfits : caps.fits = Parameter.admits) (hpermits : ∀ gate, caps.permits source gate = true) :
    (∃ tokens, (t.dispatch caps source tokens).usage = some ⟨0, u⟩) ↔
      p.sameSlot q = false ∧ ∃ tokens, p.takesAll tokens = true ∧
        (first.defaultPriority < second.defaultPriority → q.takesAll tokens = false) := by
  have husage := usage_pair hg hseal husages hu hv hfits hpermits
  have hother : some (⟨1, v⟩ : NumberedUsage) ≠ some ⟨0, u⟩ := by simp
  constructor
  · rintro ⟨tokens, hfirst⟩
    rw [husage tokens] at hfirst
    split at hfirst
    · exact absurd hfirst hother
    split at hfirst
    · split at hfirst
      · exact absurd hfirst hother
      · cases hfirst
    rename_i hslot
    refine ⟨Bool.eq_false_iff.2 hslot, tokens, ?_⟩
    split at hfirst
    · split at hfirst
      · exact absurd hfirst hother
      rename_i hrefuses
      split at hfirst
      · rename_i htakes
        exact ⟨htakes, fun _ => Bool.eq_false_iff.2 hrefuses⟩
      · cases hfirst
    · rename_i hnot
      split at hfirst
      · rename_i htakes
        exact ⟨htakes, fun hlower => absurd hlower hnot⟩
      · split at hfirst
        · exact absurd hfirst hother
        · cases hfirst
  · rintro ⟨hslot, tokens, htakes, hbefore⟩
    have hne : tokens ≠ [] := by
      rintro rfl
      cases htakes
    refine ⟨tokens, ?_⟩
    rw [husage tokens, if_neg hne, hslot, if_neg Bool.false_ne_true]
    by_cases hlower : first.defaultPriority < second.defaultPriority
    · rw [if_pos hlower, hbefore hlower, if_neg Bool.false_ne_true, if_pos htakes]
    · rw [if_neg hlower, if_pos htakes]

/-- **Which optional siblings can be reached.** In a sealed tree of two usages of a single optional
argument with default priorities, the empty input resolves to the second usage. Some input resolves
to the first one exactly if the arguments are in slots of their own and the first is not shadowed:
its type comes first by priority, or it is greedy and the other is not, or its type admits a word
that the other type does not. -/
theorem reaches_pair_iff (hg : g.Reachable root) (hseal : g.seal settings = .ok t)
    (husages : g.usages = [u, v]) (hu : u.Single p first) (hv : v.Single q second)
    (hfits : caps.fits = Parameter.admits) (hpermits : ∀ gate, caps.permits source gate = true) :
    ((t.dispatch caps source []).status = .complete ∧
      (t.dispatch caps source []).usage = some ⟨1, v⟩) ∧
    ((∃ tokens, (t.dispatch caps source tokens).status = .complete ∧
        (t.dispatch caps source tokens).usage = some ⟨0, u⟩) ↔
      p.sameSlot q = false ∧ (second.defaultPriority < first.defaultPriority ∨
        p.greedy = true ∧ q.greedy = false ∨ ¬first.Within second)) := by
  have hcomplete : ∀ {tokens w}, (t.dispatch caps source tokens).usage = some w →
      (t.dispatch caps source tokens).status = .complete := by
    intro tokens w hw
    apply (verdict_justified t caps source tokens).usage_iff.1
    rw [hw]
    rfl
  have hreached := exists_usage_first_iff hg hseal husages hu hv hfits hpermits
  have hp : p.valueType = first := by simp [Parameter.valueType, hu.kind, ParameterKind.valueType]
  have hq : q.valueType = second := by simp [Parameter.valueType, hv.kind, ParameterKind.valueType]
  constructor
  · have hempty : (t.dispatch caps source []).usage = some ⟨1, v⟩ :=
      usage_pair hg hseal husages hu hv hfits hpermits []
    exact ⟨hcomplete hempty, hempty⟩
  constructor
  · rintro ⟨tokens, -, hfirst⟩
    rcases hreached.1 ⟨tokens, hfirst⟩ with ⟨hslot, words, htakes, hbefore⟩
    refine ⟨hslot, ?_⟩
    have hne := defaultPriority_ne_of_seal hg hseal husages hu hv hslot
    rcases Priority.lt_or_gt_of_ne hne with hlower | hhigher
    · -- The second argument is asked first, and does not take the words that the first one does.
      right
      rw [← hp, ← hq]
      exact Parameter.exists_takesAll_alone_iff.1 ⟨words, htakes, hbefore hlower⟩
    · exact .inl hhigher
  · rintro ⟨hslot, hreach⟩
    have hwords : ∃ tokens, p.takesAll tokens = true ∧
        (first.defaultPriority < second.defaultPriority → q.takesAll tokens = false) := by
      rcases hreach with hhigher | halone
      · rcases p.exists_takesAll with ⟨words, htakes⟩
        exact ⟨words, htakes, fun hlower => absurd hlower (Int.lt_asymm hhigher)⟩
      · rw [← hp, ← hq] at halone
        rcases Parameter.exists_takesAll_alone_iff.2 halone with ⟨words, htakes, hrefuses⟩
        exact ⟨words, htakes, fun _ => hrefuses⟩
    rcases hreached.2 ⟨hslot, hwords⟩ with ⟨tokens, hfirst⟩
    exact ⟨tokens, hcomplete hfirst, hfirst⟩

end Pair

/-- A usage of one optional argument. -/
def optionalUsage (handler name : String) (type : ValueType) : Usage :=
  ⟨handler, [.optional name type], none, none, false⟩

theorem single_optionalUsage (handler name : String) (type : ValueType) :
    (optionalUsage handler name type).Single (.optional name type) type :=
  ⟨rfl, rfl, rfl⟩

/-- A truth value is no whole number, so the usage with one is reached though the other argument is
asked first. -/
theorem reaches_pair_iff_boolean :
    ∃ t u v, u = optionalUsage "a" "x" .boolean ∧ v = optionalUsage "b" "y" .long ∧
      ofUsages "cmd" [u, v] = .ok t ∧
      ((t.dispatch .builtin () []).status = .complete ∧
        (t.dispatch .builtin () []).usage = some ⟨1, v⟩) ∧
      ∃ tokens, (t.dispatch .builtin () tokens).status = .complete ∧
        (t.dispatch .builtin () tokens).usage = some ⟨0, u⟩ := by
  obtain ⟨t, ht⟩ : ∃ t, ofUsages "cmd"
      [optionalUsage "a" "x" .boolean, optionalUsage "b" "y" .long] = .ok t := ⟨_, rfl⟩
  rcases bind_eq_ok_iff.1 ht with ⟨g, hg, hseal⟩
  have husages : g.usages = [optionalUsage "a" "x" .boolean, optionalUsage "b" "y" .long] := by
    cases hg
    rfl
  have hpermits : ∀ gate, Capabilities.builtin.permits () gate = true := by
    intro gate
    cases gate <;> rfl
  obtain ⟨hsecond, hfirst⟩ := reaches_pair_iff (.insertAll .new hg) hseal husages
    (single_optionalUsage "a" "x" .boolean) (single_optionalUsage "b" "y" .long) rfl hpermits
  exact ⟨t, _, _, rfl, rfl, ht, hsecond, hfirst.2 ⟨by decide, .inr (.inr (by decide))⟩⟩

/-- A usage with a whole number of 32 bits is sealed beside one of 64 bits, and nothing that can be
typed resolves to it. -/
theorem sibling_unreached :
    ∃ t u v, u = optionalUsage "a" "x" .int ∧ v = optionalUsage "b" "y" .long ∧
      ofUsages "cmd" [u, v] = .ok t ∧
      ∀ tokens, (t.dispatch .builtin () tokens).usage ≠ some ⟨0, u⟩ := by
  obtain ⟨t, ht⟩ : ∃ t, ofUsages "cmd"
      [optionalUsage "a" "x" .int, optionalUsage "b" "y" .long] = .ok t := ⟨_, rfl⟩
  rcases bind_eq_ok_iff.1 ht with ⟨g, hg, hseal⟩
  have husages : g.usages = [optionalUsage "a" "x" .int, optionalUsage "b" "y" .long] := by
    cases hg
    rfl
  have hpermits : ∀ gate, Capabilities.builtin.permits () gate = true := by
    intro gate
    cases gate <;> rfl
  refine ⟨t, _, _, rfl, rfl, ht, fun tokens => ?_⟩
  have hslot : (Parameter.optional "x" .int).sameSlot (.optional "y" .long) = false := by decide
  have hlower : ValueType.int.defaultPriority < ValueType.long.defaultPriority := by decide
  rw [usage_pair (.insertAll .new hg) hseal husages (single_optionalUsage "a" "x" .int)
    (single_optionalUsage "b" "y" .long) rfl hpermits, hslot, if_neg Bool.false_ne_true,
    if_pos hlower]
  -- What the narrower number takes, the wider one has taken before.
  have hcovers : (Parameter.optional "x" .int).takesAll tokens = true →
      (Parameter.optional "y" .long).takesAll tokens = true :=
    Parameter.takesAll_of_within (p := .optional "x" .int) (q := .optional "y" .long) (fun h => h)
      ValueType.int_within_long
  split
  · simp
  · split
    · simp
    · rename_i hrefuses
      rw [if_neg fun htakes => hrefuses (hcovers htakes)]
      simp

end CommandTree

end CommandLanguage

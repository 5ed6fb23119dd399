import CommandLanguage.Proofs.Place

/-!
# What a resolved path accounts for

When an input resolves, its words fall into *portions*: what a node took, or a typed flag. The main
statement, `CommandTree.resolution_justified`, says that the answer is backed by the tree and by the
portions: its usage is the one of its last node, its bindings lie on the path to this node and leave
out nothing but flags and optional nodes, and its words are those of the bindings, but for flags.
-/

namespace CommandLanguage

/-! ## Portions of an input -/

/-- Neighbouring words of an input, with what they stand for. -/
inductive Portion where
  /-- The words that a node took. -/
  | taken (node : Node) (words : List String)
  /-- A typed flag. -/
  | flag (typed : TypedFlag)

namespace Portion

/-- The words of a portion. -/
def words : Portion → List String
  | taken _ ws => ws
  | flag f => f.words

/-- What a portion binds. -/
def binding? : Portion → Option Binding
  | taken n ws => some ⟨n, " ".intercalate ws⟩
  | flag _ => none

/-- The flag of a portion. -/
def flag? : Portion → Option BoundFlag
  | taken _ _ => none
  | flag f => some f.bound

/-- The words of portions. -/
def allWords (portions : List Portion) : List String :=
  portions.flatMap words

/-- What portions bind, in order. -/
def bindings (portions : List Portion) : List Binding :=
  portions.filterMap binding?

/-- The flags of portions, in order. -/
def flags (portions : List Portion) : List BoundFlag :=
  portions.filterMap flag?

section Lists

variable (n : Node) (ws : List String) (f : TypedFlag) (fs : List TypedFlag)
  (portions portions' : List Portion)

@[simp] theorem allWords_nil : allWords [] = [] := rfl

@[simp] theorem allWords_cons (portion : Portion) :
    allWords (portion :: portions) = portion.words ++ allWords portions := rfl

@[simp] theorem bindings_nil : bindings [] = [] := rfl

@[simp] theorem bindings_taken :
    bindings (taken n ws :: portions) = ⟨n, " ".intercalate ws⟩ :: bindings portions := rfl

@[simp] theorem bindings_flag : bindings (flag f :: portions) = bindings portions := rfl

@[simp] theorem flags_nil : flags [] = [] := rfl

@[simp] theorem flags_taken : flags (taken n ws :: portions) = flags portions := rfl

@[simp] theorem flags_flag : flags (flag f :: portions) = f.bound :: flags portions := rfl

@[simp] theorem allWords_append :
    allWords (portions ++ portions') = allWords portions ++ allWords portions' := by
  simp [allWords]

@[simp] theorem bindings_append :
    bindings (portions ++ portions') = bindings portions ++ bindings portions' := by
  simp [bindings]

@[simp] theorem flags_append :
    flags (portions ++ portions') = flags portions ++ flags portions' := by
  simp [flags]

@[simp] theorem allWords_map_flag : allWords (fs.map flag) = TypedFlag.allWords fs := by
  induction fs with
  | nil => rfl
  | cons f fs ih => simp [words, ih]

@[simp] theorem bindings_map_flag : bindings (fs.map flag) = [] := by
  induction fs with
  | nil => rfl
  | cons f fs ih => simpa using ih

@[simp] theorem flags_map_flag : flags (fs.map flag) = fs.map (·.bound) := by
  induction fs with
  | nil => rfl
  | cons f fs ih => simpa using ih

end Lists

end Portion

/-- The portions that a step reads. -/
def Step.portions : Step → List Portion
  | .take before n ws => before.map .flag ++ [.taken n ws]
  | .flag _ f => [.flag f]
  | .pass before _ => before.map .flag

/-- The portions that a trail reads. -/
def Portion.ofTrail (steps : List Step) (after : List TypedFlag) : List Portion :=
  steps.flatMap Step.portions ++ after.map .flag

theorem Portion.ofTrail_cons (s : Step) (steps : List Step) (after : List TypedFlag) :
    ofTrail (s :: steps) after = s.portions ++ ofTrail steps after := by
  simp [ofTrail]

namespace Judge

/-- Whether portions read words as the nodes of a path and the flags of the command allow: a node
takes one word that is no flag, or every word left if it is greedy, and a flag is known to the table
or to a flag node of the path. -/
inductive Reads (j : Judge) (path : List Node) : List Portion → Prop where
  | nil : Reads j path []
  | word {node : Node} {token : String} {rest : List Portion} :
      node.isGreedy = false → isFlagToken token = false → j.accepts node.parameter token = true →
      Reads j path rest → Reads j path (.taken node [token] :: rest)
  | greedy {node : Node} {token : String} {more : List String} :
      node.isGreedy = true → j.accepts node.parameter token = true →
      Reads j path [.taken node (token :: more)]
  | known {typed : TypedFlag} {rest : List Portion} :
      j.Knows typed → Reads j path rest → Reads j path (.flag typed :: rest)
  | node {node : Node} {typed : TypedFlag} {rest : List Portion} :
      node ∈ path → node.isFlag = true → j.accepts node.parameter typed.token = true →
      typed.bound.flag = node.parameter → j.Binds typed.bound →
      Reads j path rest → Reads j path (.flag typed :: rest)

variable {j : Judge} {path : List Node}

theorem Reads.known_append {fs : List TypedFlag} {rest : List Portion}
    (hknown : ∀ f ∈ fs, j.Knows f) (h : j.Reads path rest) :
    j.Reads path (fs.map .flag ++ rest) := by
  induction fs with
  | nil => exact h
  | cons f fs ih =>
    rcases List.forall_mem_cons.1 hknown with ⟨hf, hfs⟩
    exact .known hf (ih hfs)

/-- A step has words of its own or words after it. -/
theorem Allows.words_ne_nil {s : Step} {left : List String} (h : j.Allows s left) :
    s.words ++ left ≠ [] := by
  cases h <;> simp [Step.words, TypedFlag.words]

/-- A trail without words has no steps, and no flags after them. -/
theorem Trail.eq_nil_of_words {n : Node} {steps : List Step} {after : List TypedFlag}
    (h : j.Trail n steps after) (hwords : trailWords steps after = []) :
    steps = [] ∧ after = [] := by
  cases steps with
  | nil => exact ⟨rfl, TypedFlag.allWords_eq_nil.1 hwords⟩
  | cons s steps =>
    rw [trailWords_cons] at hwords
    exact absurd hwords h.tail.2.1.words_ne_nil

/-- The portions of a trail read its words. -/
theorem Trail.reads {n : Node} {steps : List Step} {after : List TypedFlag}
    (h : j.Trail n steps after) (hpath : ∀ s ∈ steps, s.node ∈ path) :
    j.Reads path (Portion.ofTrail steps after) := by
  induction steps generalizing n with
  | nil =>
    have hnil : j.Reads path [] := .nil
    simpa [Portion.ofTrail] using Reads.known_append h.known hnil
  | cons s steps ih =>
    rcases h.tail with ⟨-, hallows, -, hrest⟩
    rcases List.forall_mem_cons.1 hpath with ⟨hs, hsteps⟩
    have hreads := ih hrest hsteps
    rw [Portion.ofTrail_cons]
    generalize hleft : trailWords steps after = left at hallows
    cases hallows with
    | word _ hgreedy hknown htoken haccepts _ =>
      simpa [Step.portions] using Reads.known_append hknown (.word hgreedy htoken haccepts hreads)
    | greedy _ hgreedy hknown _ haccepts _ =>
      -- Nothing is left after a greedy node.
      rcases hrest.eq_nil_of_words hleft with ⟨rfl, rfl⟩
      simpa [Step.portions, Portion.ofTrail] using
        Reads.known_append hknown (.greedy hgreedy haccepts)
    | flag hflag haccepts _ hbound hbinds => exact .node hs hflag haccepts hbound hbinds hreads
    | pass _ hknown _ => exact .known_append hknown hreads

end Judge

namespace Portion

theorem allWords_ofTrail (steps : List Step) (after : List TypedFlag) :
    allWords (ofTrail steps after) = Judge.trailWords steps after := by
  induction steps with
  | nil => simp [ofTrail]
  | cons s steps ih =>
    rw [ofTrail_cons, allWords_append, Judge.trailWords_cons, ih]
    cases s <;> simp [Step.portions, Step.words, words]

theorem bindings_ofTrail (steps : List Step) (after : List TypedFlag) :
    bindings (ofTrail steps after) = Step.bindings steps := by
  induction steps with
  | nil => simp [ofTrail]
  | cons s steps ih =>
    rw [ofTrail_cons, bindings_append, ih]
    cases s <;> simp [Step.portions]

end Portion

/-! ## Bindings along a trail -/

/-- The bindings of steps are about nodes of the steps, in order. -/
theorem Step.bindings_sublist (steps : List Step) :
    ((Step.bindings steps).map (·.node)).Sublist (steps.map Step.node) := by
  induction steps with
  | nil => exact .refl _
  | cons s steps ih =>
    cases s with
    | take before n ws => exact ih.cons_cons n
    | flag n f => exact ih.cons n
    | pass before n => exact ih.cons n

/-- A node of a trail that is not bound is a flag, or it may be passed over. -/
theorem Judge.Follows.unbound {j : Judge} {n : Node} {steps : List Step} {left : List String}
    (h : j.Follows n steps left) {m : Node} (hm : m ∈ steps.map Step.node)
    (hunbound : m ∉ (Step.bindings steps).map (·.node)) :
    m.isFlag = true ∨ m.isSkippable = true := by
  induction h with
  | nil => simp at hm
  | @cons n s steps left _ hallows _ ih =>
    rcases List.mem_cons.1 hm with rfl | hm
    · generalize Step.allWords steps ++ left = rest at hallows
      cases hallows with
      | word | greedy => simp [Step.node] at hunbound
      | flag hflag => exact .inl hflag
      | pass hskip => exact .inr hskip
    · refine ih hm fun hbound => hunbound ?_
      rcases List.mem_map.1 hbound with ⟨b, hb, rfl⟩
      rcases List.mem_filterMap.1 hb with ⟨s', hs', hb'⟩
      exact List.mem_map.2 ⟨b, List.mem_filterMap.2 ⟨s', List.mem_cons_of_mem _ hs', hb'⟩, rfl⟩

/-- The last node of a trail is bound last, unless it is a flag. -/
theorem Judge.Trail.getLast?_bindings {j : Judge} {n : Node} {steps : List Step}
    {after : List TypedFlag} (h : j.Trail n steps after) {s : Step}
    (hs : s ∈ steps.getLast?) (hflag : s.node.isFlag = false) :
    ((Step.bindings steps).getLast?).map (·.node) = some s.node := by
  rcases List.getLast?_eq_some_iff.1 hs with ⟨front, rfl⟩
  rcases h.follows.exists_allows (s := s) (by simp) with ⟨left, hallows⟩
  have hpass : s.passes = false := h.arrives s hs
  cases hallows with
  | word | greedy => simp [Step.bindings_append, Step.node]
  | flag hisFlag => simp [Step.node, hisFlag] at hflag
  | pass => cases hpass

/-! ## Soundness of a resolved path -/

/-- Whether an answer is backed by a tree and by the words of its input. -/
structure Search.Justified (s : Search) (j : Judge) (root : Node) (tokens : List String)
    (u : NumberedUsage) : Prop where
  /-- The usage is the one of the last node, or what a literal without one falls back to. -/
  usage : s.last.node.terminal = some u ∨
    s.last.node.isLiteral = true ∧ s.last.node.terminal = none ∧ s.last.node.fallback = some u
  place : s.last ∈ root.places
  bound : (s.bindings.map (·.node)).Sublist s.last.path
  /-- Only flags and optional nodes of the path are not bound. -/
  unbound : ∀ n ∈ s.last.path, n ∉ s.bindings.map (·.node) →
    n.isFlag = true ∨ n.isSkippable = true
  final : s.last.path ≠ [] → s.last.node.isFlag = false →
    s.bindings.getLast?.map (·.node) = some s.last.node
  /-- The words are those of the bindings, in order, with flags between them. -/
  words : ∃ portions : List Portion, j.Reads s.last.path portions ∧
    tokens = Portion.allWords portions ∧ s.bindings = Portion.bindings portions

theorem Node.resolved?_eq_some_iff {n : Node} {u : NumberedUsage} :
    n.resolved? = some u ↔
      n.terminal = some u ∨ n.isLiteral = true ∧ n.terminal = none ∧ n.fallback = some u := by
  cases hterminal : n.terminal <;> cases hliteral : n.isLiteral <;>
    simp [Node.resolved?, hterminal, hliteral]

namespace CommandTree

variable {Source : Type}

/-- **Soundness of a resolved path.** The answer to an input that resolves is backed by the tree and
by the words of the input. -/
theorem resolution_justified (t : CommandTree) (caps : Capabilities Source) (source : Source)
    (tokens : List String) (h : (t.dispatch caps source tokens).status = .complete) :
    ∃ u, (t.dispatch caps source tokens).usage = some u ∧
      (t.dispatch caps source tokens).Justified (t.judge caps source) t.root tokens u := by
  rcases dispatch_complete h with ⟨u, steps, after, hres⟩
  have hpath : (t.dispatch caps source tokens).last.path = steps.map Step.node := by
    rw [hres.last, Place.path_along_root]
  refine ⟨u, hres.usage, ?_, ?_, ?_, ?_, ?_, ?_⟩
  · rw [hres.last]
    exact Node.resolved?_eq_some_iff.1 hres.resolved
  · rw [hres.last]
    exact hres.trail.follows.along_mem_places (p := .root t.root) (Node.root_mem_places t.root)
  · rw [hpath, hres.bindings]
    exact Step.bindings_sublist steps
  · rw [hpath, hres.bindings]
    intro n hn hunbound
    exact hres.trail.follows.unbound hn hunbound
  · rw [hpath, hres.bindings, hres.last]
    intro hne hflag
    have hsteps : steps ≠ [] := by simpa using hne
    rcases Option.isSome_iff_exists.1 (List.getLast?_isSome.2 hsteps) with ⟨s, hs⟩
    rw [Place.node_along_of_getLast? hs] at hflag ⊢
    exact hres.trail.getLast?_bindings hs hflag
  · rw [hpath, hres.bindings]
    refine ⟨Portion.ofTrail steps after, ?_, ?_, ?_⟩
    · exact hres.trail.reads fun s hs => List.mem_map_of_mem hs
    · rw [Portion.allWords_ofTrail]
      exact hres.words
    · exact (Portion.bindings_ofTrail steps after).symm

/-- A ban with flags before and after the target, and with a greedy reason that ends in a word like
a flag. -/
theorem resolution_justified_ban :
    ∃ t s words, words = ["-t", "60", "steve", "-s", "so", "-x"] ∧
      ofUsages "ban" [⟨"ban", [.required "target" .string, .switch "silent" ["s"],
        .valueFlag "time" ["t"] .int, { Parameter.optional "reason" .string with greedy := true }],
        none, none, false⟩] = .ok t ∧
      t.dispatch .builtin () words = s ∧ s.status = .complete ∧
      ∃ u, s.usage = some u ∧ s.Justified (t.judge .builtin ()) t.root words u :=
  ⟨_, _, _, rfl, rfl, rfl, rfl, resolution_justified _ _ _ _ rfl⟩

end CommandTree

end CommandLanguage

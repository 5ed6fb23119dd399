import CommandLanguage.Text.Lowercase
import CommandLanguage.Tree.Search
import CommandLanguage.TtlCache

/-!
# Completion

What could be typed next. The words before the one to complete lead from the root to positions of the
tree: a node whose children come next, a greedy node that takes one more word, or a flag that waits
for its value. Each position offers candidates, and those that begin with what has been typed are
suggested, without regard to case and each one once.

The positions depend on the source and on the words before the one to complete only, so they are kept
in a cache under these.
-/

namespace CommandLanguage

/-- A place for the word to complete. -/
inductive Position where
  /-- One of the children of a node comes next. -/
  | below (node : Node)
  /-- A greedy node takes one more word. -/
  | within (node : Node)
  /-- A flag waits for its value. -/
  | valueOf (flag : Parameter)

/-- Who asks for a completion, and what stands before the word to complete. -/
structure InputKey (Source : Type) where
  source : Source
  typed : List String
deriving DecidableEq

/-- The positions that were reached lately. -/
abbrev SuggestionCache (Source : Type) := TtlCache (InputKey Source) (List Position)

/-- A node that a walk has come to, and how many words lie before it. -/
structure Stop where
  node : Node
  before : Nat

namespace Judge

/-- The children of a node that take a word and that the source may use. -/
def takers (j : Judge) (n : Node) (token : String) : List Node :=
  n.children.filter fun c => j.accepts c.parameter token && j.permits c.permission

/-- Whether a word is a literal of its own, which hides its siblings. -/
def decides (n : Node) : Bool :=
  n.isLiteral && !n.isGreedy

/-- The position that a node makes of the last word typed before the one to complete, if the walk ends
there: a greedy node, or a flag whose value comes next. -/
def position? (last : Bool) (n : Node) : Option Position :=
  if n.isGreedy then some (.within n)
  else if n.parameter.input?.isSome && last then some (.valueOf n.parameter)
  else none

/-- What a word leads to from a node: the positions where the walk ends, and the nodes from which it
goes on. The first literal that takes the word is the only way on. -/
def advance (j : Judge) (last : Bool) (n : Node) (token : String) : List Position × List Node :=
  let takers := j.takers n token
  let before := takers.takeWhile (!decides ·)
  let ways :=
    match takers.find? decides with
    | some literal => [literal]
    | none => before.filter fun c => (position? last c).isNone
  (before.filterMap (position? last), ways)

/-- What the next word leads to from a stop: the positions where the walk ends, and the stops from
which it goes on. Flags that have no node here are passed over by their names. -/
def proceed (j : Judge) (target : Nat) (stop : Stop) (token : String) :
    List Position × List Stop :=
  let last := stop.before + 1 == target
  let (found, ways) := j.advance last stop.node token
  if ways.isEmpty then
    -- No node goes on with this word, so it may be a flag that has no node here.
    match j.flags.lookup token with
    | none => (found, [])
    | some flag =>
      if flag.input?.isSome && last then (found ++ [.valueOf flag], [])
      else (found, [⟨stop.node, stop.before + flag.flagSpan⟩])
  else (found, ways.map fun m => ⟨m, stop.before + m.parameter.flagSpan⟩)

/-! ### The walk ends

A walk goes on from a stop to children of its node, or at the node itself, with fewer words left. -/

/-- Bounds together. -/
def addUp : List Nat → Nat
  | [] => 0
  | n :: ns => n + addUp ns

theorem addUp_append (ns ms : List Nat) : addUp (ns ++ ms) = addUp ns + addUp ms := by
  induction ns with
  | nil => simp [addUp]
  | cons n ns ih => rw [List.cons_append, addUp, addUp, ih, Nat.add_assoc]

/-- A bound on the stops of a walk that begins at a node with `left` words left. -/
def effort : (left : Nat) → Node → Nat
  | 0, _ => 1
  | left + 1, n => 1 + effort left n + addUp (n.children.map (effort left))

theorem effort_pos (left : Nat) (n : Node) : 0 < effort left n := by
  cases left <;> simp only [effort] <;> omega

theorem effort_mono {left left' : Nat} (h : left ≤ left') (n : Node) :
    effort left n ≤ effort left' n := by
  induction h with
  | refl => exact Nat.le_refl _
  | step _ ih =>
    simp only [effort]
    omega

/-- Fewer nodes with fewer words left have a smaller bound. -/
theorem addUp_effort_le {ways cs : List Node} (h : ways.Sublist cs) {left : Nat} {rest : Node → Nat}
    (hrest : ∀ m ∈ ways, rest m ≤ left) :
    addUp (ways.map fun m => effort (rest m) m) ≤ addUp (cs.map (effort left)) := by
  induction h with
  | slnil => exact Nat.le_refl _
  | cons c _ ih =>
    have hcs := ih hrest
    rw [List.map_cons, addUp]
    omega
  | cons_cons c _ ih =>
    have hcs := ih fun m hm => hrest m (List.mem_cons_of_mem _ hm)
    have hc := effort_mono (hrest c List.mem_cons_self) c
    rw [List.map_cons, List.map_cons, addUp, addUp]
    omega

/-- The nodes from which a walk goes on are children. -/
theorem advance_sublist (j : Judge) (last : Bool) (n : Node) (token : String) :
    (j.advance last n token).2.Sublist n.children := by
  have htakers : (j.takers n token).Sublist n.children := List.filter_sublist
  unfold advance
  dsimp only
  split
  · rename_i literal hfind
    exact (List.singleton_sublist.2 (List.mem_of_find?_eq_some hfind)).trans htakers
  · exact (List.filter_sublist.trans (List.takeWhile_sublist _)).trans htakers

/-- The bound of a stop among `total` words. -/
def bound (total : Nat) (stop : Stop) : Nat :=
  effort (total - stop.before) stop.node

/-- Going on from a stop makes the bound smaller. -/
theorem addUp_bound_proceed_lt (j : Judge) {total : Nat} {stop : Stop} (h : stop.before < total)
    (target : Nat) (token : String) :
    addUp ((j.proceed target stop token).2.map (bound total)) < bound total stop := by
  obtain ⟨left, hleft⟩ := Nat.exists_eq_succ_of_ne_zero (Nat.sub_ne_zero_of_lt h)
  have hspan : ∀ p : Parameter, 1 ≤ p.flagSpan := by
    intro p
    unfold Parameter.flagSpan
    split <;> omega
  rw [bound, hleft, effort]
  have hpos := effort_pos left stop.node
  unfold proceed
  dsimp only
  split
  · split
    · simp only [List.map_nil, addUp]
      omega
    · rename_i flag _
      split
      · simp only [List.map_nil, addUp]
        omega
      · have hflag := hspan flag
        have hhere : effort (total - (stop.before + flag.flagSpan)) stop.node ≤
            effort left stop.node := effort_mono (by omega) _
        simp only [List.map_cons, List.map_nil, addUp, bound]
        omega
  · have hrest : ∀ m : Node, total - (stop.before + m.parameter.flagSpan) ≤ left := by
      intro m
      have hm := hspan m.parameter
      omega
    have hways := addUp_effort_le (j.advance_sublist (stop.before + 1 == target) stop.node token)
      fun m _ => hrest m
    rw [List.map_map]
    simp only [Function.comp_def, bound]
    omega

/-- The positions that a walk ends at, from stops that are still to be looked at, latest first. -/
def traverse (j : Judge) (tokens : List String) (target : Nat) : List Stop → List Position
  | [] => []
  | stop :: stops =>
    if stop.before = target then .below stop.node :: traverse j tokens target stops
    else if h : stop.before < tokens.length then
      let next := j.proceed target stop tokens[stop.before]
      next.1 ++ traverse j tokens target (next.2 ++ stops)
    else traverse j tokens target stops
termination_by stops => addUp (stops.map (bound tokens.length))
decreasing_by
  · have hpos := effort_pos (tokens.length - stop.before) stop.node
    simp only [List.map_cons, addUp, bound]
    omega
  · have hnext := addUp_bound_proceed_lt j h target tokens[stop.before]
    simp only [List.map_append, addUp_append, List.map_cons, addUp]
    omega
  · have hpos := effort_pos (tokens.length - stop.before) stop.node
    simp only [List.map_cons, addUp, bound]
    omega

/-- Whether a node may be shown. -/
def shows (j : Judge) (n : Node) : Bool :=
  n.parameter.isAlwaysListed || j.permits n.permission

/-- The nodes that can be typed once a node is passed over: its children, and those below the optional
ones of them, later siblings first. Flags are left out, what is not shown, and what has the same value
type as the node above it. -/
def beyond (j : Judge) : Node → List Node
  | node@⟨_, children⟩ =>
    let offered (c : Node) : Bool :=
      !c.isFlag && c.parameter.valueType != node.parameter.valueType && j.shows c
    children.filter offered ++ beyondAll j offered children
where
  beyondAll (j : Judge) (offered : Node → Bool) : List Node → List Node
    | [] => []
    | c :: cs =>
      beyondAll j offered cs ++ if offered c && c.isOptional then beyond j c else []

/-- The parameter that stands for the value of a flag. -/
def valueParameter (flag : Parameter) : Parameter :=
  { Parameter.required flag.name flag.valueType with suggestions := flag.suggestions }

/-- The parameters that offer candidates at a position. -/
def candidates (j : Judge) (overlapping : Bool) : Position → List Parameter
  | .below n =>
    (n.children.filter j.shows).flatMap fun c =>
      c.parameter ::
        if overlapping && c.isSkippable then (j.beyond c).map (·.parameter) else []
  | .within n => [n.parameter]
  | .valueOf flag => [valueParameter flag]

end Judge

/-- The first of each of several equal texts. -/
def distinct : List String → List String
  | [] => []
  | s :: ss => s :: (distinct ss).filter (· ≠ s)

/-- Whether a text begins with another, without regard to case. -/
def beginsLike (typed s : String) : Bool :=
  (Text.lowercase typed).toList.isPrefixOf (Text.lowercase s).toList

namespace CommandTree

variable {Source : Type}

/-- The positions for the word at `target`. -/
def positions (t : CommandTree) (caps : Capabilities Source) (source : Source)
    (tokens : List String) (target : Nat) : List Position :=
  (t.judge caps source).traverse tokens target [⟨t.root, 0⟩]

/-- What positions suggest for a word that begins with `typed`. -/
def suggestions (t : CommandTree) (caps : Capabilities Source) (ctx : SuggestionContext Source)
    (typed : String) (positions : List Position) : List String :=
  let j := t.judge caps ctx.source
  let offered := positions.flatMap fun position =>
    (j.candidates t.settings.overlappingSuggestions position).flatMap (caps.suggest ctx)
  distinct (offered.filter (beginsLike typed))

/-- The cache that completion of a tree begins with. -/
def emptyCache (t : CommandTree) : SuggestionCache Source :=
  .empty t.settings.suggestionTtl

/-- Complete the word at `target`, of which `typed` has been typed, among the words after the command
name. There is nothing to suggest to a source that may not use the command, nor past the first
missing word. -/
def complete [DecidableEq Source] (t : CommandTree) (caps : Capabilities Source)
    (cache : SuggestionCache Source) (now : Nat) (source : Source) (tokens : List String)
    (target : Nat) (typed : String) : List String × SuggestionCache Source :=
  if !caps.permits source t.root.permission || tokens.length < target then ([], cache)
  else
    let (positions, cache) :=
      cache.getOrInsert now ⟨source, tokens.take target⟩ (t.positions caps source tokens target)
    (t.suggestions caps ⟨source, tokens, target⟩ typed positions, cache)

end CommandTree

end CommandLanguage

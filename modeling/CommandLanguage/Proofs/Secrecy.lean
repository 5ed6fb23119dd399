import CommandLanguage.Proofs.CompletionCache
import CommandLanguage.Proofs.CompletionWalk
import CommandLanguage.Proofs.DeclaredPermissions

/-!
# What completion keeps to itself

Suggestions that are declared on a parameter whose permission a source lacks are no business of the
source. Other suggestions may be put in their place, throughout a tree and its flag table
(`CommandTree.redeclare`): the walk of completion leads to the same positions
(`Judge.reach_redeclare`), and what these offer is the same wherever a node is shown or was passed
through, since the gate of a node is the permission that is declared on its parameter
(`Judge.candidates_redeclare`).

The value of a flag that only the flag table knows is the one exception: no gate is asked there, and
the suggestions that are declared on the flag are shown to everyone. `CommandTree.withholds_iff` says
that completion never shows what is withheld but for these, and `CommandTree.value_leaked` is a case
of one.
-/

namespace CommandLanguage

/-! ## Other suggestions -/

/-- A parameter with other suggestions, if it is no literal and what it declares is withheld. -/
def Parameter.redeclare (permits : Option String → Bool) (texts : List String) (p : Parameter) :
    Parameter :=
  if !p.isLiteral && !permits p.permission then { p with suggestions := texts } else p

/-- A tree with other suggestions on each parameter that is withheld. -/
def Node.redeclare (permits : Option String → Bool) (texts : NodeData → List String) : Node → Node
  | ⟨data, children⟩ =>
    ⟨{ data with parameter := data.parameter.redeclare permits (texts data) },
      redeclareAll permits texts children⟩
where
  redeclareAll (permits : Option String → Bool) (texts : NodeData → List String) :
      List Node → List Node
    | [] => []
    | c :: cs => redeclare permits texts c :: redeclareAll permits texts cs

/-- A flag table with other suggestions on each flag that is withheld. -/
def FlagTable.redeclare (permits : Option String → Bool) (texts : Parameter → List String)
    (t : FlagTable) : FlagTable where
  owners := t.owners.map fun entry => (entry.1, entry.2.redeclare permits (texts entry.2))
  flags := t.flags.map fun flag => flag.redeclare permits (texts flag)

/-- A command tree with other suggestions on each parameter that is withheld, in its nodes and in its
flag table. -/
def CommandTree.redeclare (t : CommandTree) (permits : Option String → Bool)
    (own : NodeData → List String) (known : Parameter → List String) : CommandTree :=
  { t with root := t.root.redeclare permits own, flags := t.flags.redeclare permits known }

section

variable {permits : Option String → Bool} {texts texts' : List String} {p : Parameter}

namespace Parameter

@[simp] theorem name_redeclare : (p.redeclare permits texts).name = p.name := by
  unfold redeclare
  split <;> rfl

@[simp] theorem kind_redeclare : (p.redeclare permits texts).kind = p.kind := by
  unfold redeclare
  split <;> rfl

@[simp] theorem greedy_redeclare : (p.redeclare permits texts).greedy = p.greedy := by
  unfold redeclare
  split <;> rfl

@[simp] theorem permission_redeclare : (p.redeclare permits texts).permission = p.permission := by
  unfold redeclare
  split <;> rfl

@[simp] theorem isLiteral_redeclare : (p.redeclare permits texts).isLiteral = p.isLiteral := by
  simp [isLiteral]

@[simp] theorem isFlag_redeclare : (p.redeclare permits texts).isFlag = p.isFlag := by
  simp [isFlag]

@[simp] theorem isOptional_redeclare : (p.redeclare permits texts).isOptional = p.isOptional := by
  simp [isOptional]

@[simp] theorem isAlwaysListed_redeclare :
    (p.redeclare permits texts).isAlwaysListed = p.isAlwaysListed := by
  simp [isAlwaysListed]

@[simp] theorem input?_redeclare : (p.redeclare permits texts).input? = p.input? := by
  simp [input?]

@[simp] theorem valueType_redeclare : (p.redeclare permits texts).valueType = p.valueType := by
  simp [valueType]

@[simp] theorem flagSpan_redeclare : (p.redeclare permits texts).flagSpan = p.flagSpan := by
  simp [flagSpan]

@[simp] theorem answersTo_redeclare (word : String) :
    (p.redeclare permits texts).answersTo word = p.answersTo word := by
  simp [answersTo, names, aliases]

/-- A parameter keeps its suggestions where the source holds its permission. -/
theorem redeclare_of_permits (texts : List String)
    (h : p.isLiteral = true ∨ permits p.permission = true) : p.redeclare permits texts = p := by
  rcases h with h | h <;> simp [redeclare, h]

/-- Suggestions that take the place of others leave no trace of them. -/
@[simp] theorem redeclare_redeclare :
    (p.redeclare permits texts).redeclare permits texts' = p.redeclare permits texts' := by
  by_cases h : (!p.isLiteral && !permits p.permission) = true
  · have hsame : (!(p.redeclare permits texts).isLiteral &&
        !permits (p.redeclare permits texts).permission) = true := by
      simpa using h
    rw [redeclare, if_pos hsame, redeclare, redeclare, if_pos h, if_pos h]
  · have hkept : ∀ texts, p.redeclare permits texts = p := by
      intro texts
      rw [redeclare, if_neg h]
    rw [hkept, hkept]

end Parameter

namespace Node

variable {own : NodeData → List String}

theorem redeclareAll_eq_map (cs : List Node) :
    redeclare.redeclareAll permits own cs = cs.map (redeclare permits own) := by
  induction cs with
  | nil => rfl
  | cons c cs ih => rw [redeclare.redeclareAll, ih, List.map_cons]

@[simp] theorem children_redeclare (n : Node) :
    (n.redeclare permits own).children = n.children.map (redeclare permits own) := by
  rcases n with ⟨data, children⟩
  rw [redeclare, redeclareAll_eq_map]

@[simp] theorem parameter_redeclare (n : Node) :
    (n.redeclare permits own).parameter = n.parameter.redeclare permits (own n.toNodeData) := by
  rcases n with ⟨data, children⟩
  rw [redeclare]

@[simp] theorem permission_redeclare (n : Node) :
    (n.redeclare permits own).permission = n.permission := by
  rcases n with ⟨data, children⟩
  rw [redeclare]

@[simp] theorem redeclare_redeclare (n : Node) :
    (n.redeclare permits own).redeclare permits (fun _ => texts) =
      n.redeclare permits fun _ => texts := by
  induction n using Node.induction with
  | step n ih =>
    rcases n with ⟨data, children⟩
    have hchildren : (children.map (redeclare permits own)).map (redeclare permits fun _ => texts) =
        children.map (redeclare permits fun _ => texts) := by
      rw [List.map_map]
      exact List.map_congr_left ih
    simp only [redeclare, redeclareAll_eq_map, hchildren, Parameter.redeclare_redeclare]

end Node

namespace FlagTable

variable {known : Parameter → List String}

theorem lookup_redeclare (t : FlagTable) (token : String) :
    (t.redeclare permits known).lookup token =
      (t.lookup token).map fun flag => flag.redeclare permits (known flag) := by
  have howner : ∀ (owners : List (String × Parameter)) (key : String),
      (owners.map fun entry => (entry.1, entry.2.redeclare permits (known entry.2))).lookup key =
        (owners.lookup key).map fun flag => flag.redeclare permits (known flag) := by
    intro owners key
    induction owners with
    | nil => rfl
    | cons entry owners ih =>
      rw [List.map_cons, List.lookup_cons, List.lookup_cons, ih]
      cases key == entry.1 <;> rfl
  unfold lookup
  cases flagAlias? token with
  | none => rfl
  | some name => exact howner t.owners _

@[simp] theorem redeclare_redeclare (t : FlagTable) :
    (t.redeclare permits known).redeclare permits (fun _ => texts) =
      t.redeclare permits fun _ => texts := by
  simp [redeclare, Function.comp_def]

end FlagTable

end

/-! ## Gates that are declared -/

/-- Whether throughout a tree a permission that a parameter declares is that of its node. -/
inductive Node.Gated : Node → Prop where
  | mk {n : Node} (own : ∀ x, n.parameter.permission = some x → n.permission = some x)
    (below : ∀ c ∈ n.children, c.Gated) : n.Gated

namespace Node.Gated

variable {n : Node}

theorem own (h : n.Gated) : ∀ x, n.parameter.permission = some x → n.permission = some x := by
  cases h with
  | mk own _ => exact own

theorem child (h : n.Gated) {c : Node} (hc : c ∈ n.children) : c.Gated := by
  cases h with
  | mk _ below => exact below c hc

/-- Who passes the gate of a node holds the permission that is declared on its parameter. -/
theorem permits_parameter (h : n.Gated) {caps : Option String → Bool} (hnone : caps none = true)
    (hpermits : caps n.permission = true) : caps n.parameter.permission = true := by
  cases hdeclared : n.parameter.permission with
  | none => exact hnone
  | some x => rwa [h.own x hdeclared] at hpermits

theorem redeclare (h : n.Gated) (permits : Option String → Bool) (own : NodeData → List String) :
    (n.redeclare permits own).Gated := by
  induction h with
  | mk own' _ ih =>
    refine .mk (by simpa using own') ?_
    intro c' hc'
    rw [Node.children_redeclare] at hc'
    rcases List.mem_map.1 hc' with ⟨c, hc, rfl⟩
    exact ih c hc

/-- A tree is gated if what is at its paths is. -/
theorem of_view (happart : n.Apart)
    (h : ∀ path e x, n.view path = some e → e.parameter.permission = some x →
      e.permission = some x) : n.Gated := by
  induction n using Node.induction with
  | step n ih =>
    refine .mk (fun x hx => h [] _ x n.view_nil hx) ?_
    intro c hc
    refine ih c hc (happart.child hc) ?_
    intro path e x he hx
    exact h (c.parameter.slot :: path) e x ((happart.view_child hc path).trans he) hx

end Node.Gated

/-- The tree of a grammar that can be built is gated. -/
theorem Grammar.Outlined.gated {g : Grammar} (h : g.Outlined) : g.root.Gated :=
  .of_view h.apart fun _ _ _ he hx => h.permission he hx

/-! ## Walks with other suggestions -/

/-- Whether suggestions play no part in what words fit. -/
def IgnoresSuggestions (fits : String → Parameter → Bool) : Prop :=
  ∀ token p texts, fits token { p with suggestions := texts } = fits token p

theorem ignoresSuggestions_admits : IgnoresSuggestions Parameter.admits :=
  fun _ _ _ => rfl

/-- A position with other suggestions on the parameters that are withheld. -/
def Position.redeclare (permits : Option String → Bool) (texts : List String) : Position → Position
  | .below n => .below (n.redeclare permits fun _ => texts)
  | .within n => .within (n.redeclare permits fun _ => texts)
  | .valueOf flag => .valueOf (flag.redeclare permits texts)

namespace Judge

/-- A judge whose flags have other suggestions. -/
def redeclare (j : Judge) (known : Parameter → List String) : Judge :=
  { j with flags := j.flags.redeclare j.permits known }

variable {j : Judge} {texts : List String} {own : NodeData → List String}
  {known : Parameter → List String}

@[simp] theorem permits_redeclare : (j.redeclare known).permits = j.permits := rfl

section Walk

variable (hfits : IgnoresSuggestions j.fits)
include hfits

theorem accepts_redeclare (p : Parameter) (token : String) :
    (j.redeclare known).accepts (p.redeclare j.permits texts) token = j.accepts p token := by
  have hsame : j.fits token (p.redeclare j.permits texts) = j.fits token p := by
    unfold Parameter.redeclare
    split
    · exact hfits token p texts
    · rfl
  have hnames : (p.redeclare j.permits texts).answersTo = p.answersTo := by
    funext word
    exact Parameter.answersTo_redeclare word
  unfold accepts
  rw [Parameter.kind_redeclare, hnames]
  split
  · rfl
  · rfl
  · exact if_congr Iff.rfl hsame rfl

theorem takers_redeclare (n : Node) (token : String) :
    (j.redeclare known).takers (n.redeclare j.permits own) token =
      (j.takers n token).map (Node.redeclare j.permits own) := by
  unfold takers
  rw [Node.children_redeclare, List.filter_map]
  congr 1
  refine List.filter_congr fun c _ => ?_
  simp [accepts_redeclare hfits]

/-- Other suggestions lead a walk to the same nodes. -/
theorem advance_redeclare (last : Bool) (n : Node) (token : String) :
    (j.redeclare known).advance last (n.redeclare j.permits fun _ => texts) token =
      ((j.advance last n token).1.map (Position.redeclare j.permits texts),
        (j.advance last n token).2.map (Node.redeclare j.permits fun _ => texts)) := by
  have hposition : ∀ c : Node, position? last (c.redeclare j.permits fun _ => texts) =
      (position? last c).map (Position.redeclare j.permits texts) := by
    intro c
    cases hgreedy : c.parameter.greedy with
    | true => simp [position?, Node.isGreedy, hgreedy, Position.redeclare]
    | false =>
      cases hvalue : c.parameter.input?.isSome && last with
      | true => simp [position?, Node.isGreedy, hgreedy, hvalue, Position.redeclare]
      | false => simp [position?, Node.isGreedy, hgreedy, hvalue]
  have hdecides : decides ∘ Node.redeclare j.permits (fun _ => texts) = decides := by
    funext c
    simp [decides, Node.isLiteral, Node.isGreedy]
  have hdecides' : (fun c => !decides c) ∘ Node.redeclare j.permits (fun _ => texts) =
      fun c => !decides c := by
    funext c
    exact congrArg (!·) (congrFun hdecides c)
  have hfree : (fun c => (position? last c).isNone) ∘ Node.redeclare j.permits (fun _ => texts) =
      fun c => (position? last c).isNone := by
    funext c
    rw [Function.comp_apply, hposition, Option.isNone_map]
  have hposition' : position? last ∘ Node.redeclare j.permits (fun _ => texts) =
      Option.map (Position.redeclare j.permits texts) ∘ position? last := funext hposition
  unfold advance
  dsimp only
  rw [takers_redeclare hfits, List.find?_map, hdecides, List.takeWhile_map, hdecides',
    List.filterMap_map, hposition', List.filter_map, hfree, List.map_filterMap]
  cases (j.takers n token).find? decides <;> rfl

/-- Other suggestions lead a walk to the same positions. -/
theorem reach_redeclare (words : List String) (n : Node) :
    (j.redeclare fun _ => texts).reach words (n.redeclare j.permits fun _ => texts) =
      (j.reach words n).map (Position.redeclare j.permits texts) := by
  induction hlength : words.length using Nat.strongRecOn generalizing words n with
  | ind length ih =>
    cases words with
    | nil => simp [reach, Position.redeclare]
    | cons token rest =>
      -- What is left after a node or flag is shorter.
      have honward : ∀ (span : Nat) (m : Node),
          (j.redeclare fun _ => texts).reach (rest.drop span) (m.redeclare j.permits fun _ => texts) =
            (j.reach (rest.drop span) m).map (Position.redeclare j.permits texts) := by
        intro span m
        refine ih _ ?_ (rest.drop span) m rfl
        rw [← hlength, List.length_drop, List.length_cons]
        omega
      have hlookup : (j.redeclare fun _ => texts).flags.lookup token =
          (j.flags.lookup token).map (Parameter.redeclare j.permits texts) :=
        FlagTable.lookup_redeclare j.flags token
      rw [reach, reach, advance_redeclare hfits]
      dsimp only
      rw [List.isEmpty_map, hlookup]
      by_cases hways : (j.advance rest.isEmpty n token).2.isEmpty = true
      · rw [if_pos hways, if_pos hways]
        cases j.flags.lookup token with
        | none => rfl
        | some flag =>
          simp only [Option.map_some, Parameter.input?_redeclare, Parameter.flagSpan_redeclare]
          by_cases hvalue : (flag.input?.isSome && rest.isEmpty) = true
          · simp [hvalue, Position.redeclare]
          · simp [hvalue, honward]
      · rw [if_neg hways, if_neg hways, List.map_append, List.flatMap_map, List.map_flatMap]
        simp only [Node.parameter_redeclare, Parameter.flagSpan_redeclare, honward]

end Walk

/-! ## What is offered -/

@[simp] theorem shows_redeclare (n : Node) :
    (j.redeclare known).shows (n.redeclare j.permits own) = j.shows n := by
  simp [shows]

theorem beyondAll_redeclare {offered offered' : Node → Bool} {cs : List Node}
    (hoffered : ∀ c ∈ cs, offered' (c.redeclare j.permits own) = offered c)
    (hbeyond : ∀ c ∈ cs, (j.redeclare known).beyond (c.redeclare j.permits own) =
      (j.beyond c).map (Node.redeclare j.permits own)) :
    beyond.beyondAll (j.redeclare known) offered' (cs.map (Node.redeclare j.permits own)) =
      (beyond.beyondAll j offered cs).map (Node.redeclare j.permits own) := by
  induction cs with
  | nil => rfl
  | cons c cs ih =>
    rw [List.forall_mem_cons] at hoffered hbeyond
    rw [List.map_cons, beyond.beyondAll, beyond.beyondAll, ih hoffered.2 hbeyond.2, hoffered.1,
      hbeyond.1, List.map_append]
    have hoptional : (c.redeclare j.permits own).isOptional = c.isOptional := by
      simp [Node.isOptional]
    rw [hoptional]
    split <;> rfl

/-- With other suggestions the same nodes can be typed beyond a node. -/
theorem beyond_redeclare (n : Node) :
    (j.redeclare known).beyond (n.redeclare j.permits own) =
      (j.beyond n).map (Node.redeclare j.permits own) := by
  induction n using Node.induction with
  | step n ih =>
    rcases n with ⟨data, children⟩
    have hoffered : ∀ c ∈ children,
        (!(c.redeclare j.permits own).isFlag &&
          (c.redeclare j.permits own).parameter.valueType !=
            (data.parameter.redeclare j.permits (own data)).valueType &&
          (j.redeclare known).shows (c.redeclare j.permits own)) =
        (!c.isFlag && c.parameter.valueType != data.parameter.valueType && j.shows c) := by
      intro c _
      simp [Node.isFlag]
    rw [Node.redeclare, Node.redeclareAll_eq_map, beyond, beyond, List.map_append,
      beyondAll_redeclare hoffered ih, List.filter_map]
    exact congrArg (List.map _ · ++ _) (List.filter_congr hoffered)

theorem mem_beyondAll {offered : Node → Bool} {cs : List Node} {m : Node}
    (h : m ∈ beyond.beyondAll j offered cs) : ∃ c ∈ cs, m ∈ j.beyond c := by
  induction cs with
  | nil => cases h
  | cons c cs ih =>
    rw [beyond.beyondAll] at h
    rcases List.mem_append.1 h with h | h
    · rcases ih h with ⟨c', hc', hm⟩
      exact ⟨c', List.mem_cons_of_mem _ hc', hm⟩
    · split at h
      · exact ⟨c, List.mem_cons_self, h⟩
      · cases h

/-- What can be typed beyond a node may be shown. -/
theorem gated_of_mem_beyond {n m : Node} (hn : n.Gated) (h : m ∈ j.beyond n) :
    m.Gated ∧ j.shows m = true := by
  induction n using Node.induction with
  | step n ih =>
    rcases n with ⟨data, children⟩
    rw [beyond] at h
    rcases List.mem_append.1 h with h | h
    · obtain ⟨hm, hoffered⟩ := List.mem_filter.1 h
      simp only [Bool.and_eq_true] at hoffered
      exact ⟨hn.child hm, hoffered.2⟩
    · rcases mem_beyondAll h with ⟨c, hc, hm⟩
      exact ih c hc (hn.child hc) hm

/-- What may be shown keeps its suggestions. -/
theorem parameter_redeclare_of_shows (hnone : j.permits none = true) {n : Node} (hn : n.Gated)
    (h : j.shows n = true) (texts : List String) :
    n.parameter.redeclare j.permits texts = n.parameter := by
  refine Parameter.redeclare_of_permits texts ?_
  rcases Bool.or_eq_true_iff.1 h with hlisted | hpermits
  · left
    unfold Parameter.isAlwaysListed at hlisted
    unfold Parameter.isLiteral
    split at hlisted
    · rfl
    · cases hlisted
  · exact .inr (hn.permits_parameter hnone hpermits)

/-- Whether nothing that is withheld is offered at a position. -/
def Discreet (j : Judge) : Position → Prop
  | .below n => n.Gated
  | .within n => j.permits n.parameter.permission = true
  | .valueOf flag => j.permits flag.permission = true

/-- **Other suggestions change nothing.** A discreet position offers the same. -/
theorem candidates_redeclare (hnone : j.permits none = true) (known : Parameter → List String)
    (texts : List String) (overlapping : Bool) {position : Position} (h : j.Discreet position) :
    (j.redeclare known).candidates overlapping (position.redeclare j.permits texts) =
      j.candidates overlapping position := by
  cases position with
  | within n =>
    have hsame := Parameter.redeclare_of_permits texts (.inr h)
    simp [candidates, Position.redeclare, hsame]
  | valueOf flag =>
    have hsame := Parameter.redeclare_of_permits texts (.inr h)
    simp [candidates, Position.redeclare, hsame]
  | below n =>
    have hshown : (n.redeclare j.permits fun _ => texts).children.filter (j.redeclare known).shows =
        (n.children.filter j.shows).map (Node.redeclare j.permits fun _ => texts) := by
      rw [Node.children_redeclare, List.filter_map]
      exact congrArg (List.map _) (List.filter_congr fun c _ => shows_redeclare c)
    have hbeyond : ∀ c ∈ n.children,
        ((j.redeclare known).beyond (c.redeclare j.permits fun _ => texts)).map (·.parameter) =
          (j.beyond c).map (·.parameter) := by
      intro c hc
      rw [beyond_redeclare, List.map_map]
      refine List.map_congr_left fun m hm => ?_
      obtain ⟨hgated, hshows⟩ := gated_of_mem_beyond (h.child hc) hm
      simp [parameter_redeclare_of_shows hnone hgated hshows]
    unfold candidates
    simp only [Position.redeclare]
    rw [hshown, List.flatMap_map]
    refine List.flatMap_congr fun c hc => ?_
    obtain ⟨hc, hshows⟩ := List.mem_filter.1 hc
    have hskippable : (c.redeclare j.permits fun _ => texts).isSkippable = c.isSkippable := by
      simp [Node.isSkippable, Node.isOptional, Node.isFlag]
    rw [hbeyond c hc, hskippable, Node.parameter_redeclare,
      parameter_redeclare_of_shows hnone (h.child hc) hshows]

/-- A node that ends a walk was let through, so that it is discreet. -/
theorem discreet_of_mem_advance (hnone : j.permits none = true) {last : Bool} {n : Node}
    (hn : n.Gated) {token : String} {position : Position}
    (h : position ∈ (j.advance last n token).1) : j.Discreet position := by
  obtain ⟨c, hc, hposition⟩ := exists_taker_of_mem_advance h
  obtain ⟨hchild, htakes⟩ := List.mem_filter.1 hc
  have hpermits := (hn.child hchild).permits_parameter hnone (Bool.and_eq_true_iff.1 htakes).2
  rcases hposition with rfl | ⟨-, rfl⟩
  · exact hpermits
  · exact hpermits

/-- Words that lead to the value of a flag end in one for which the flag table has the flag, if the
position is not discreet. -/
theorem discreet_of_mem_reach (hnone : j.permits none = true) {words : List String} {n : Node}
    (hn : n.Gated) {position : Position} (h : position ∈ j.reach words n) :
    j.Discreet position ∨ ∃ token flag, words.getLast? = some token ∧
      j.flags.lookup token = some flag ∧ position = .valueOf flag := by
  have hgated : ∀ {m left}, j.Comes n words m left → m.Gated := fun hcomes =>
    hcomes.hereditary (fun _ hm _ hc => hm.child hc) hn
  cases mem_reach_iff.1 h with
  | below hcomes => exact .inl (hgated hcomes)
  | taken hcomes hposition => exact .inl (discreet_of_mem_advance hnone (hgated hcomes) hposition)
  | @known _ token flag hcomes _ hlookup _ =>
    obtain ⟨front, hwords⟩ := hcomes.suffix
    exact .inr ⟨token, flag, by simp [← hwords], hlookup, rfl⟩

/-- A flag whose value is a position takes one. -/
theorem input?_of_mem_reach {words : List String} {n : Node} {flag : Parameter}
    (h : .valueOf flag ∈ j.reach words n) : flag.input?.isSome = true := by
  cases mem_reach_iff.1 h with
  | taken _ hposition =>
    obtain ⟨c, -, heq | ⟨hinput, heq⟩⟩ := exists_taker_of_mem_advance hposition
    · cases heq
    · obtain rfl := Position.valueOf.inj heq
      exact hinput
  | known _ _ _ hinput => exact hinput

end Judge

/-! ## Texts that were not there before -/

namespace Text

/-- A digit after a text changes nothing in its lower-case form. -/
theorem lowercaseFrom_append_zeros (before cs : List Char) (k : Nat) :
    lowercaseFrom before (cs ++ List.replicate k '0') =
      lowercaseFrom before cs ++ List.replicate k '0' := by
  have hzeros : ∀ before, lowercaseFrom before (List.replicate k '0') = List.replicate k '0' := by
    induction k with
    | zero => exact fun before => rfl
    | succ k ih =>
      intro before
      rw [List.replicate_succ, lowercaseFrom, ih]
      rfl
  -- The digit ends a word as the end of a text does.
  have hmeets : ∀ cs, meetsCased (cs ++ List.replicate k '0') = meetsCased cs := by
    intro cs
    induction cs with
    | nil =>
      cases k with
      | zero => rfl
      | succ k =>
        have hdigit : isCaseIgnorable '0' = false ∧ isCased '0' = false := by decide +kernel
        simp [meetsCased, List.replicate_succ, hdigit.1, hdigit.2]
    | cons c cs ih =>
      unfold meetsCased at ih ⊢
      rw [List.cons_append, List.dropWhile_cons, List.dropWhile_cons]
      split
      · exact ih
      · rfl
  induction cs generalizing before with
  | nil => exact hzeros before
  | cons c cs ih =>
    rw [List.cons_append, lowercaseFrom, lowercaseFrom, hmeets, ih, List.append_assoc]

end Text

/-- Among any texts one is missing that begins like what has been typed. -/
theorem exists_beginsLike_not_mem (typed : String) (ss : List String) :
    ∃ s, beginsLike typed s = true ∧ s ∉ ss := by
  obtain ⟨k, hk⟩ : ∃ k, ∀ s ∈ ss, s.length < k := by
    induction ss with
    | nil => exact ⟨0, by simp⟩
    | cons s ss ih =>
      rcases ih with ⟨k, hk⟩
      refine ⟨k + s.length + 1, List.forall_mem_cons.2 ⟨by omega, fun s' hs' => ?_⟩⟩
      have hlt := hk s' hs'
      omega
  refine ⟨String.ofList (typed.toList ++ List.replicate k '0'), ?_, ?_⟩
  · unfold beginsLike Text.lowercase
    rw [String.toList_ofList, String.toList_ofList, String.toList_ofList,
      Text.lowercaseFrom_append_zeros, List.isPrefixOf_iff_prefix]
    exact List.prefix_append _ _
  · intro hmem
    have hlt := hk _ hmem
    rw [String.length_ofList, List.length_append, List.length_replicate] at hlt
    omega

/-! ## What completion shows -/

namespace CommandTree

variable {Source : Type} [DecidableEq Source] {t : CommandTree} {caps : Capabilities Source}
  {request : CompletionRequest Source} {texts : List String}

/-- Whether a request is about the value of a flag: it is answered, and its words lead there. -/
structure AwaitsValue (t : CommandTree) (caps : Capabilities Source)
    (request : CompletionRequest Source) (flag : Parameter) : Prop where
  permits : caps.permits request.source t.root.permission = true
  typed : request.target ≤ request.tokens.length
  position : .valueOf flag ∈
    t.positions caps request.source request.tokens request.target

@[simp] theorem redeclare_redeclare (permits : Option String → Bool) (own : NodeData → List String)
    (known : Parameter → List String) :
    (t.redeclare permits own known).redeclare permits (fun _ => texts) (fun _ => texts) =
      t.redeclare permits (fun _ => texts) fun _ => texts := by
  simp [redeclare]

omit [DecidableEq Source] in
/-- Other suggestions lead to the same positions. -/
theorem positions_redeclare (hfits : IgnoresSuggestions caps.fits)
    (h : request.target ≤ request.tokens.length) :
    (t.redeclare (caps.permits request.source) (fun _ => texts) fun _ => texts).positions caps
        request.source request.tokens request.target =
      (t.positions caps request.source request.tokens request.target).map
        (Position.redeclare (caps.permits request.source) texts) := by
  rw [positions_eq_reach _ caps _ h, positions_eq_reach t caps _ h]
  exact Judge.reach_redeclare (j := t.judge caps request.source) hfits _ t.root

/-- Where no flag whose value is awaited is withheld, all suggestions that are withheld may be the
same. -/
theorem answer_redeclare_const (texts : List String) (hfits : IgnoresSuggestions caps.fits)
    (hgated : t.root.Gated)
    (hawaits : ∀ flag, t.AwaitsValue caps request flag →
      caps.permits request.source flag.permission = true)
    {cache cache' : SuggestionCache Source} (hcache : t.Truthful caps cache)
    (hcache' : (t.redeclare (caps.permits request.source) (fun _ => texts)
      fun _ => texts).Truthful caps cache') :
    ((t.redeclare (caps.permits request.source) (fun _ => texts) fun _ => texts).answer caps
        cache' request).1 = (t.answer caps cache request).1 := by
  rw [(hcache.answer request).1, (hcache'.answer request).1]
  have hroot : (t.redeclare (caps.permits request.source) (fun _ => texts)
      fun _ => texts).root.permission = t.root.permission := Node.permission_redeclare t.root
  rw [hroot]
  split
  · rfl
  · rename_i hguard
    simp only [Bool.or_eq_true, Bool.not_eq_true', decide_eq_true_eq, not_or] at hguard
    have htyped : request.target ≤ request.tokens.length := by omega
    rw [positions_redeclare hfits htyped]
    have hnone : (t.judge caps request.source).permits none = true := rfl
    have hdiscreet : ∀ position ∈ t.positions caps request.source request.tokens request.target,
        (t.judge caps request.source).Discreet position := by
      intro position hposition
      have hreach := hposition
      rw [positions_eq_reach t caps _ htyped] at hreach
      rcases Judge.discreet_of_mem_reach hnone hgated hreach with
        hdiscreet | ⟨token, flag, -, -, rfl⟩
      · exact hdiscreet
      · exact hawaits flag ⟨by simpa using hguard.1, htyped, hposition⟩
    unfold suggestions
    dsimp only
    rw [List.flatMap_map]
    congr 2
    refine List.flatMap_congr fun position hposition => ?_
    have hsame := Judge.candidates_redeclare hnone (fun _ => texts) texts
      t.settings.overlappingSuggestions (hdiscreet position hposition)
    exact congrArg (List.flatMap _) hsame

omit [DecidableEq Source] in
/-- A flag whose value is awaited with other suggestions stands for one whose value is awaited. -/
theorem AwaitsValue.of_redeclare (hfits : IgnoresSuggestions caps.fits)
    {own : NodeData → List String} {known : Parameter → List String} {flag : Parameter}
    (h : (t.redeclare (caps.permits request.source) own known).AwaitsValue caps request flag) :
    ∃ flag', t.AwaitsValue caps request flag' ∧ flag'.permission = flag.permission := by
  have hposition := List.mem_map_of_mem (f := Position.redeclare (caps.permits request.source) [])
    h.position
  -- Without any suggestions that are withheld the two trees are one.
  rw [← positions_redeclare hfits h.typed, redeclare_redeclare, positions_redeclare hfits h.typed]
    at hposition
  rcases List.mem_map.1 hposition with ⟨position, hmem, heq⟩
  cases position with
  | below n => cases heq
  | within n => cases heq
  | valueOf flag' =>
    have hflag : flag'.redeclare (caps.permits request.source) [] =
        flag.redeclare (caps.permits request.source) [] := Position.valueOf.inj heq
    refine ⟨flag', ⟨?_, h.typed, hmem⟩, by simpa using congrArg Parameter.permission hflag⟩
    have hroot := h.permits
    rwa [redeclare, Node.permission_redeclare] at hroot

/-- What is suggested for the value of a flag is shown, whoever asks. -/
theorem mem_answer_of_awaits (hfits : IgnoresSuggestions caps.fits)
    (hsuggest : ∀ ctx p, caps.suggest ctx p = p.offers) {flag : Parameter}
    (h : t.AwaitsValue caps request flag)
    (hwithheld : caps.permits request.source flag.permission = false) {s : String}
    (hs : beginsLike request.typed s = true) {cache : SuggestionCache Source}
    (hcache : (t.redeclare (caps.permits request.source) (fun _ => [s])
      fun _ => [s]).Truthful caps cache) :
    s ∈ ((t.redeclare (caps.permits request.source) (fun _ => [s]) fun _ => [s]).answer caps cache
      request).1 := by
  have hroot : caps.permits request.source (t.redeclare (caps.permits request.source)
      (fun _ => [s]) fun _ => [s]).root.permission = true := by
    rw [redeclare, Node.permission_redeclare]
    exact h.permits
  have hposition := List.mem_map_of_mem (f := Position.redeclare (caps.permits request.source) [s])
    h.position
  rw [← positions_redeclare hfits h.typed] at hposition
  refine (hcache.mem_answer_iff request).2 ⟨hroot, h.typed, hs, _, hposition, ?_⟩
  -- The flag is no literal, so that the text stands in the place of its suggestions.
  have hinput : flag.input?.isSome = true := by
    have hreach := h.position
    rw [positions_eq_reach t caps _ h.typed] at hreach
    exact Judge.input?_of_mem_reach hreach
  have hliteral : flag.isLiteral = false := by
    by_contra hliteral
    have hflag := Parameter.isFlag_of_isLiteral (by simpa using hliteral)
    simp [Parameter.input?_eq_none hflag] at hinput
  refine ⟨_, List.mem_singleton_self _, ?_⟩
  rw [hsuggest]
  simp [Judge.valueParameter, Parameter.required, Parameter.ofKind, Parameter.offers,
    Parameter.redeclare, hliteral, hwithheld]

/-- Whether a request is answered alike whatever suggestions take the place of those that are
withheld from its source, and whatever was asked before. -/
def Withholds (t : CommandTree) (caps : Capabilities Source) (request : CompletionRequest Source) :
    Prop :=
  ∀ (own : NodeData → List String) (known : Parameter → List String)
    (past past' : List (CompletionRequest Source)),
    ((t.redeclare (caps.permits request.source) own known).answer caps
        ((t.redeclare (caps.permits request.source) own known).cacheAfter caps past') request).1 =
      (t.answer caps (t.cacheAfter caps past) request).1

/-- **What completion keeps to itself.** In a tree sealed from a grammar that can be built, with
suggestions that are declared, a completion does not depend on those that are declared on parameters
whose permission the source lacks, exactly when it is not about the value of a flag whose permission
the source lacks. Such a flag is the one that the flag table has for the word before. -/
theorem withholds_iff {root : Parameter} {g : Grammar} {settings : TreeSettings}
    (hg : g.Reachable root) (hseal : g.seal settings = .ok t)
    (hfits : IgnoresSuggestions caps.fits)
    (hsuggest : ∀ ctx p, caps.suggest ctx p = p.offers) (request : CompletionRequest Source) :
    (t.Withholds caps request ↔ ∀ flag, t.AwaitsValue caps request flag →
      caps.permits request.source flag.permission = true) ∧
    ∀ flag, t.AwaitsValue caps request flag →
      caps.permits request.source flag.permission = true ∨
        ∃ token, (request.tokens.take request.target).getLast? = some token ∧
          t.flags.lookup token = some flag := by
  have hgated : t.root.Gated := (hg.of_seal hseal).1.outlined.gated
  refine ⟨⟨?_, ?_⟩, ?_⟩
  · intro hwithholds flag hawaits
    by_contra hdenied
    have hwithheld : caps.permits request.source flag.permission = false := by simpa using hdenied
    -- A text that is not among the answers would be shown if it was declared on the flag.
    obtain ⟨s, hs, hnew⟩ := exists_beginsLike_not_mem request.typed
      (t.answer caps (t.cacheAfter caps []) request).1
    have hshown := mem_answer_of_awaits hfits hsuggest hawaits hwithheld hs
      (truthful_cacheAfter [])
    rw [hwithholds (fun _ => [s]) (fun _ => [s]) [] []] at hshown
    exact hnew hshown
  · intro hpermits own known past past'
    have hgated' : (t.redeclare (caps.permits request.source) own known).root.Gated :=
      hgated.redeclare _ _
    have hpermits' : ∀ flag,
        (t.redeclare (caps.permits request.source) own known).AwaitsValue caps request flag →
          caps.permits request.source flag.permission = true := by
      intro flag hawaits
      rcases hawaits.of_redeclare hfits with ⟨flag', hflag', hpermission⟩
      rw [← hpermission]
      exact hpermits flag' hflag'
    -- Both answers are those of the tree in which nothing that is withheld is suggested.
    have hold := answer_redeclare_const [] hfits hgated hpermits
      (truthful_cacheAfter past) (truthful_cacheAfter [])
    have hnew := answer_redeclare_const [] hfits hgated' hpermits'
      (truthful_cacheAfter past') (truthful_cacheAfter [])
    rw [redeclare_redeclare] at hnew
    rw [← hnew, hold]
  · intro flag hawaits
    have hreach := hawaits.position
    rw [positions_eq_reach t caps _ hawaits.typed] at hreach
    have hnone : (t.judge caps request.source).permits none = true := rfl
    rcases Judge.discreet_of_mem_reach hnone hgated hreach with
      hdiscreet | ⟨token, flag', hlast, hlookup, heq⟩
    · exact .inl hdiscreet
    · obtain rfl := Position.valueOf.inj heq
      exact .inr ⟨token, hlast, hlookup⟩

/-- A player, and for how long, which takes a permission to say. -/
def banUsages : List Usage :=
  [⟨"ban", [.required "player" .string,
    { Parameter.valueFlag "time" [] .int with
      permission := some "ban.time", suggestions := ["10", "60"] }], none, none, false⟩]

/-- A source who may not say for how long asks what can be typed after the player, where the flag is
one of the nodes. -/
theorem withholds_iff_ban :
    ∃ t request, ofUsages "ban" banUsages = .ok t ∧ request = ⟨0, (), ["steve", "-"], 1, "-"⟩ ∧
      t.Withholds (withheld "ban.time") request := by
  obtain ⟨t, ht⟩ : ∃ t, ofUsages "ban" banUsages = .ok t := ⟨_, rfl⟩
  rcases bind_eq_ok_iff.1 ht with ⟨g, hg, hseal⟩
  refine ⟨t, _, ht, rfl, ?_⟩
  refine (withholds_iff (.insertAll .new hg) hseal ignoresSuggestions_admits (fun _ _ => rfl) _).1.2 ?_
  intro flag hawaits
  exfalso
  have hpositions : (ofUsages "ban" banUsages).toOption.map (fun t =>
      (t.positions (withheld "ban.time") () ["steve", "-"] 1).any fun position =>
        match position with
        | .valueOf _ => true
        | _ => false) = some false := by decide +kernel
  rw [ht] at hpositions
  have hnone := Option.some.inj hpositions
  rw [List.any_eq_false] at hnone
  exact hnone _ hawaits.position rfl

/-- The same source is shown the suggestions for the value of the flag once its name is typed. -/
theorem value_leaked :
    ∃ t request, ofUsages "ban" banUsages = .ok t ∧
      request = ⟨0, (), ["steve", "-time", ""], 2, ""⟩ ∧
      (withheld "ban.time").permits () (some "ban.time") = false ∧
      (t.answer (withheld "ban.time") t.emptyCache request).1 = ["10", "60"] ∧
      ¬ t.Withholds (withheld "ban.time") request := by
  obtain ⟨t, ht⟩ : ∃ t, ofUsages "ban" banUsages = .ok t := ⟨_, rfl⟩
  have hshown : (ofUsages "ban" banUsages).toOption.map (fun t =>
      (t.answer (withheld "ban.time") t.emptyCache ⟨0, (), ["steve", "-time", ""], 2, ""⟩).1) =
        some ["10", "60"] := by decide +kernel
  have hchanged : (ofUsages "ban" banUsages).toOption.map (fun t =>
      let t' := t.redeclare ((withheld "ban.time").permits ()) (fun _ => ["5"]) fun _ => ["5"]
      (t'.answer (withheld "ban.time") t'.emptyCache ⟨0, (), ["steve", "-time", ""], 2, ""⟩).1) =
        some ["5"] := by decide +kernel
  rw [ht] at hshown hchanged
  refine ⟨t, _, ht, rfl, by decide, Option.some.inj hshown, ?_⟩
  intro hwithholds
  have hsame := hwithholds (fun _ => ["5"]) (fun _ => ["5"]) [] []
  have heq : ["5"] = ["10", "60"] :=
    (Option.some.inj hchanged).symm.trans (hsame.trans (Option.some.inj hshown))
  simp at heq

end CommandTree

end CommandLanguage

import CommandLanguage.Proofs.TypedFlag

/-!
# Trails

What a walk did on the way to its answer, as data. A `Step` is what happens at one node: the node
takes words, it is a flag that is typed, or it is passed over. A *trail* is a list of steps down a
tree, with the flags typed after the last one.

Trails say what walks find, and need no order in which nodes are tried:

* `Judge.descend_sound`: what a walk finds is the end of a trail, or something that the source may
  not use;
* `Judge.descend_complete`: where there is a trail to a usage, a walk finds something.
-/

namespace CommandLanguage

/-! ## Steps -/

/-- What a walk does with one node. -/
inductive Step where
  /-- The node takes words, after flags of the command. -/
  | take (before : List TypedFlag) (node : Node) (words : List String)
  /-- The node is a flag, and it is typed. -/
  | flag (node : Node) (typed : TypedFlag)
  /-- The node is passed over, after flags of the command. -/
  | pass (before : List TypedFlag) (node : Node)

namespace Step

/-- The node of a step. -/
def node : Step → Node
  | take _ n _ => n
  | flag n _ => n
  | pass _ n => n

/-- The words that a step reads. -/
def words : Step → List String
  | take before _ ws => TypedFlag.allWords before ++ ws
  | flag _ f => f.words
  | pass before _ => TypedFlag.allWords before

/-- The words that steps read. -/
def allWords (steps : List Step) : List String :=
  steps.flatMap words

/-- What a step binds. -/
def binding? : Step → Option Binding
  | take _ n ws => some ⟨n, " ".intercalate ws⟩
  | flag _ _ => none
  | pass _ _ => none

/-- What steps bind, in order. -/
def bindings (steps : List Step) : List Binding :=
  steps.filterMap binding?

/-- The flags that the answer has from a step. Those typed before a node that is passed over are not
among them. -/
def kept : Step → List BoundFlag
  | take before _ _ => before.map (·.bound)
  | flag _ f => [f.bound]
  | pass _ _ => []

/-- The flags typed before a node that is passed over. -/
def lost : Step → List TypedFlag
  | pass before _ => before
  | _ => []

/-- Whether a node is passed over. -/
def passes : Step → Bool
  | pass _ _ => true
  | _ => false

@[simp] theorem allWords_nil : allWords [] = [] := rfl

@[simp] theorem allWords_cons (s : Step) (steps : List Step) :
    allWords (s :: steps) = s.words ++ allWords steps := rfl

@[simp] theorem bindings_nil : bindings [] = [] := rfl

theorem bindings_cons (s : Step) (steps : List Step) :
    bindings (s :: steps) = s.binding?.toList ++ bindings steps := by
  cases s <;> rfl

@[simp] theorem bindings_take (before : List TypedFlag) (n : Node) (ws : List String)
    (steps : List Step) :
    bindings (take before n ws :: steps) = ⟨n, " ".intercalate ws⟩ :: bindings steps := rfl

@[simp] theorem bindings_flag (n : Node) (f : TypedFlag) (steps : List Step) :
    bindings (flag n f :: steps) = bindings steps := rfl

@[simp] theorem bindings_pass (before : List TypedFlag) (n : Node) (steps : List Step) :
    bindings (pass before n :: steps) = bindings steps := rfl

theorem bindings_append (steps steps' : List Step) :
    bindings (steps ++ steps') = bindings steps ++ bindings steps' := by
  simp [bindings]

end Step

/-- The place to which steps lead. -/
def Place.along (p : Place) : List Step → Place
  | [] => p
  | s :: steps => (p.child s.node).along steps

/-- What a walk finds at the end of steps. -/
def Hit.ofSteps (p : Place) (steps : List Step) (after : List TypedFlag) (ending : Ending) :
    Hit where
  last := p.along steps
  ending := ending
  bindings := Step.bindings steps
  flags := steps.flatMap Step.kept ++ after.map (·.bound)

theorem Hit.ofSteps_cons (p : Place) (s : Step) (steps : List Step) (after : List TypedFlag)
    (ending : Ending) :
    Hit.ofSteps p (s :: steps) after ending =
      (Hit.ofSteps (p.child s.node) steps after ending).after s.binding?.toList s.kept := by
  simp [Hit.ofSteps, Hit.after, Place.along, Step.bindings_cons]

/-! ## Trails -/

namespace Judge

/-- Whether a step may be made in front of `rest`, the words left after it. -/
inductive Allows (j : Judge) : Step → List String → Prop where
  /-- A node takes a word of its own. -/
  | word {before : List TypedFlag} {node : Node} {token : String} {rest : List String} :
      node.isFlag = false → node.isGreedy = false → (∀ f ∈ before, j.Knows f) →
      isFlagToken token = false → j.accepts node.parameter token = true →
      j.permits node.permission = true → Allows j (.take before node [token]) rest
  /-- A greedy node takes every word left. -/
  | greedy {before : List TypedFlag} {node : Node} {token : String} {more : List String} :
      node.isFlag = false → node.isGreedy = true → (∀ f ∈ before, j.Knows f) →
      j.StopsAt true (token :: more) → j.accepts node.parameter token = true →
      j.permits node.permission = true → Allows j (.take before node (token :: more)) []
  | flag {node : Node} {typed : TypedFlag} {rest : List String} :
      node.isFlag = true → j.accepts node.parameter typed.token = true →
      j.permits node.permission = true → typed.bound.flag = node.parameter →
      j.Binds typed.bound → Allows j (.flag node typed) rest
  /-- A node may be passed over if it is optional and some word is left. -/
  | pass {before : List TypedFlag} {node : Node} {token : String} {rest : List String} :
      node.isSkippable = true → (∀ f ∈ before, j.Knows f) →
      j.StopsAt node.isGreedy (token :: rest) → Allows j (.pass before node) (token :: rest)

/-- Whether steps lead down from a node, one child after the other, in front of `left`. -/
inductive Follows (j : Judge) : Node → List Step → List String → Prop where
  | nil {n : Node} {left : List String} : Follows j n [] left
  | cons {n : Node} {s : Step} {steps : List Step} {left : List String} :
      s.node ∈ n.children → j.Allows s (Step.allWords steps ++ left) →
      Follows j s.node steps left → Follows j n (s :: steps) left

/-- Each step on the way may be made, in front of what is left after it. -/
theorem Follows.exists_allows {j : Judge} {n : Node} {steps : List Step} {left : List String}
    (h : j.Follows n steps left) {s : Step} (hs : s ∈ steps) : ∃ rest, j.Allows s rest := by
  induction h with
  | nil => simp at hs
  | cons _ hallows _ ih =>
    rcases List.mem_cons.1 hs with rfl | hs
    · exact ⟨_, hallows⟩
    · exact ih hs

/-- The first of some steps lead down in front of the words of the others. -/
theorem Follows.append_left {j : Judge} {n : Node} {front back : List Step} {left : List String}
    (h : j.Follows n (front ++ back) left) : j.Follows n front (Step.allWords back ++ left) := by
  induction front generalizing n with
  | nil => exact .nil
  | cons s front ih =>
    cases h with
    | cons hmem hallows hrest =>
      refine .cons hmem ?_ (ih hrest)
      simpa [Step.allWords] using hallows

/-- Whether steps lead down from a node through all words, but for the flags typed at the end. The
last node has been reached: it is not passed over. -/
structure Trail (j : Judge) (n : Node) (steps : List Step) (after : List TypedFlag) : Prop where
  follows : j.Follows n steps (TypedFlag.allWords after)
  known : ∀ f ∈ after, j.Knows f
  arrives : ∀ s ∈ steps.getLast?, s.passes = false

/-- The words of steps and of the flags after them. -/
def trailWords (steps : List Step) (after : List TypedFlag) : List String :=
  Step.allWords steps ++ TypedFlag.allWords after

variable {j : Judge}

@[simp] theorem trailWords_nil (after : List TypedFlag) :
    trailWords [] after = TypedFlag.allWords after := rfl

@[simp] theorem trailWords_cons (s : Step) (steps : List Step) (after : List TypedFlag) :
    trailWords (s :: steps) after = s.words ++ trailWords steps after := by
  simp [trailWords]

/-- A trail of no steps: only flags are typed. -/
theorem Trail.nil {n : Node} {after : List TypedFlag} (hknown : ∀ f ∈ after, j.Knows f) :
    j.Trail n [] after :=
  ⟨.nil, hknown, by simp⟩

/-- A step before a trail; one that passes over a node needs another after it. -/
theorem Trail.cons {n : Node} {s : Step} {steps : List Step} {after : List TypedFlag}
    (hmem : s.node ∈ n.children) (hallows : j.Allows s (trailWords steps after))
    (harrives : s.passes = false ∨ steps ≠ []) (ht : j.Trail s.node steps after) :
    j.Trail n (s :: steps) after := by
  refine ⟨.cons hmem hallows ht.follows, ht.known, ?_⟩
  intro last hlast
  cases steps with
  | nil =>
    obtain rfl : s = last := by simpa using hlast
    simpa using harrives
  | cons s' steps => exact ht.arrives last (by simpa using hlast)

/-- What is left of a trail after its first step is a trail. -/
theorem Trail.tail {n : Node} {s : Step} {steps : List Step} {after : List TypedFlag}
    (ht : j.Trail n (s :: steps) after) :
    s.node ∈ n.children ∧ j.Allows s (trailWords steps after) ∧
      (s.passes = false ∨ steps ≠ []) ∧ j.Trail s.node steps after := by
  rcases ht with ⟨hfollows, hknown, harrives⟩
  cases hfollows with
  | cons hmem hallows hrest =>
    refine ⟨hmem, hallows, ?_, hrest, hknown, ?_⟩
    · cases steps with
      | nil => exact .inl (harrives s (by simp))
      | cons s' steps => exact .inr (by simp)
    · intro last hlast
      cases steps with
      | nil => simp at hlast
      | cons s' steps => exact harrives last (by simpa using hlast)

end Judge

end CommandLanguage

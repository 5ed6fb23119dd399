import CommandLanguage.Proofs.Reach
import CommandLanguage.Proofs.TypedFlag
import Mathlib.Data.List.TakeWhile

/-!
# Where completion comes

Completion reads the words that have been typed in its own way: the next word goes to each child that
takes it, and where no child goes on with a word it is passed over if the flag table knows it.
`Judge.Comes` tells this as a relation, and `Judge.mem_reach_iff` says where the walk ends.
-/

namespace CommandLanguage

namespace Judge

variable {j : Judge}

/-- Whether completion comes from a node in front of words to another one in front of the words that
are left. -/
inductive Comes (j : Judge) : Node → List String → Node → List String → Prop where
  | here {n : Node} {words : List String} : Comes j n words n words
  /-- A child takes the next word, and the one after it if it is a flag with a value. -/
  | down {n c m : Node} {token : String} {rest left : List String} :
      c ∈ (j.advance rest.isEmpty n token).2 →
      Comes j c (rest.drop (c.parameter.flagSpan - 1)) m left → Comes j n (token :: rest) m left
  /-- No child goes on with the next word, but the flag table knows it. -/
  | past {n m : Node} {token : String} {flag : Parameter} {rest left : List String} :
      (j.advance rest.isEmpty n token).2 = [] → j.flags.lookup token = some flag →
      (flag.input?.isSome && rest.isEmpty) = false →
      Comes j n (rest.drop (flag.flagSpan - 1)) m left → Comes j n (token :: rest) m left

namespace Comes

variable {n m k : Node} {words left left' : List String}

theorem trans (h : j.Comes n words m left) (h' : j.Comes m left k left') :
    j.Comes n words k left' := by
  induction h with
  | here => exact h'
  | down hc _ ih => exact .down hc (ih h')
  | past hways hlookup hvalue _ ih => exact .past hways hlookup hvalue (ih h')

/-- The words that are left are the last of the words. -/
theorem suffix (h : j.Comes n words m left) : left <:+ words := by
  induction h with
  | here => exact List.suffix_refl _
  | down _ _ ih => exact (ih.trans (List.drop_suffix _ _)).trans (List.suffix_cons _ _)
  | past _ _ _ _ ih => exact (ih.trans (List.drop_suffix _ _)).trans (List.suffix_cons _ _)

/-- What holds of the children of all nodes of which it holds, holds of the nodes that completion
comes to. -/
theorem hereditary {P : Node → Prop} (hP : ∀ n, P n → ∀ c ∈ n.children, P c)
    (h : j.Comes n words m left) (hn : P n) : P m := by
  induction h with
  | here => exact hn
  | @down n c m token rest left hc _ ih => exact ih (hP n hn c ((j.advance_sublist _ n token).subset hc))
  | past _ _ _ _ ih => exact ih hn

/-- What is reached from where completion comes is reached from where it began. -/
theorem mem_reach (h : j.Comes n words m left) {position : Position}
    (hposition : position ∈ j.reach left m) : position ∈ j.reach words n := by
  induction h with
  | here => exact hposition
  | @down n c m token rest left hc _ ih =>
    rw [reach]
    dsimp only
    rw [if_neg (by rw [List.isEmpty_iff]; exact List.ne_nil_of_mem hc)]
    exact List.mem_append_right _ (List.mem_flatMap.2 ⟨c, hc, ih hposition⟩)
  | past hways hlookup hvalue _ ih =>
    rw [reach]
    dsimp only
    rw [if_pos (by rw [List.isEmpty_iff]; exact hways), hlookup]
    dsimp only
    rw [if_neg (by simpa using hvalue)]
    exact List.mem_append_right _ (ih hposition)

end Comes

/-- Whether completion ends at a position, from a node in front of words. -/
inductive Ends (j : Judge) (n : Node) (words : List String) : Position → Prop where
  /-- All words are read. -/
  | below {m : Node} : j.Comes n words m [] → Ends j n words (.below m)
  /-- A word is taken by a greedy node, or by a flag whose value comes next. -/
  | taken {m : Node} {token : String} {rest : List String} {position : Position} :
      j.Comes n words m (token :: rest) → position ∈ (j.advance rest.isEmpty m token).1 →
      Ends j n words position
  /-- The last word is no node's, and for the flag table it is a flag whose value comes next. -/
  | known {m : Node} {token : String} {flag : Parameter} :
      j.Comes n words m [token] → (j.advance true m token).2 = [] →
      j.flags.lookup token = some flag → flag.input?.isSome = true → Ends j n words (.valueOf flag)

/-- Completion ends where it ends from where it comes. -/
theorem Ends.of_comes {n m : Node} {words left : List String} {position : Position}
    (h : j.Ends m left position) (hcomes : j.Comes n words m left) : j.Ends n words position := by
  cases h with
  | below h => exact .below (hcomes.trans h)
  | taken h hposition => exact .taken (hcomes.trans h) hposition
  | known h hways hlookup hinput => exact .known (hcomes.trans h) hways hlookup hinput

/-- **The walk as a relation.** What words lead to is where completion ends. -/
theorem mem_reach_iff {words : List String} {n : Node} {position : Position} :
    position ∈ j.reach words n ↔ j.Ends n words position := by
  constructor
  · intro h
    fun_induction reach j words n with
    | case1 n =>
      obtain rfl := List.mem_singleton.1 h
      exact .below .here
    | case2 token rest n found ways hadvance hways hlookup =>
      exact .taken .here (by rwa [hadvance])
    | case3 token rest n found ways hadvance hways flag hlookup hvalue =>
      obtain ⟨hinput, hlast⟩ := Bool.and_eq_true_iff.1 hvalue
      obtain rfl := List.isEmpty_iff.1 hlast
      rcases List.mem_append.1 h with h | h
      · exact .taken .here (by rwa [hadvance])
      · obtain rfl := List.mem_singleton.1 h
        have hnone : (j.advance true n token).2 = ways := congrArg Prod.snd hadvance
        exact .known .here (by rw [hnone]; simpa using hways) hlookup hinput
    | case4 token rest n found ways hadvance hways flag hlookup hvalue ih =>
      rcases List.mem_append.1 h with h | h
      · exact .taken .here (by rwa [hadvance])
      · refine (ih h).of_comes (.past ?_ hlookup (by simpa using hvalue) .here)
        rw [hadvance]
        simpa using hways
    | case5 token rest n found ways hadvance hways ih =>
      rcases List.mem_append.1 h with h | h
      · exact .taken .here (by rwa [hadvance])
      · rcases List.mem_flatMap.1 h with ⟨c, hc, h⟩
        exact (ih c h).of_comes (.down (by rw [hadvance]; exact hc) .here)
  · intro h
    cases h with
    | below h => exact h.mem_reach (by rw [reach]; exact List.mem_singleton_self _)
    | taken h hposition =>
      refine h.mem_reach ?_
      rw [reach]
      dsimp only
      split
      · split
        · exact hposition
        · split <;> exact List.mem_append_left _ hposition
      · exact List.mem_append_left _ hposition
    | known h hways hlookup hinput =>
      refine h.mem_reach ?_
      rw [reach]
      dsimp only
      simp [hways, hlookup, hinput]

/-- The nodes whose children are offered are those that completion comes to by all words. -/
theorem below_mem_reach_iff {words : List String} {n m : Node} :
    .below m ∈ j.reach words n ↔ j.Comes n words m [] := by
  rw [mem_reach_iff]
  constructor
  · intro h
    cases h with
    | below h => exact h
    | taken _ hposition =>
      -- A word ends the walk at greedy nodes and at flags alone.
      obtain ⟨c, -, heq | ⟨-, heq⟩⟩ := exists_taker_of_mem_advance hposition
      · cases heq
      · cases heq
  · exact .below

/-! ## Without literals -/

end Judge

/-- Whether no node below is a literal. -/
inductive Node.LiteralFree : Node → Prop where
  | intro {n : Node} : (∀ c ∈ n.children, c.isLiteral = false) →
      (∀ c ∈ n.children, LiteralFree c) → LiteralFree n

namespace Node.LiteralFree

variable {n c : Node}

theorem isLiteral (h : n.LiteralFree) (hc : c ∈ n.children) : c.isLiteral = false := by
  cases h with
  | intro hliteral _ => exact hliteral c hc

theorem child (h : n.LiteralFree) (hc : c ∈ n.children) : c.LiteralFree := by
  cases h with
  | intro _ hchildren => exact hchildren c hc

end Node.LiteralFree

namespace Judge

variable {j : Judge}

/-- Where no child is a literal, a word leads to each child that takes it and does not end the walk. -/
theorem mem_advance_iff {n c : Node} (hn : n.LiteralFree) {last : Bool} {token : String} :
    c ∈ (j.advance last n token).2 ↔
      c ∈ n.children ∧ j.accepts c.parameter token = true ∧ j.permits c.permission = true ∧
        position? last c = none := by
  have hdecides : ∀ c ∈ j.takers n token, ¬ decides c = true := by
    intro c hc
    simp [decides, hn.isLiteral (List.mem_filter.1 hc).1]
  have hways : (j.advance last n token).2 =
      (j.takers n token).filter fun c => (position? last c).isNone := by
    unfold advance
    dsimp only
    rw [List.find?_eq_none.2 hdecides]
    dsimp only
    rw [List.takeWhile_eq_self_iff.2 (by simpa using hdecides)]
  simp only [hways, takers, List.mem_filter, Bool.and_eq_true, Option.isNone_iff_eq_none, and_assoc]

/-- A flag of the table that no child takes is passed over. -/
theorem Knows.comes {n : Node} (hn : n.LiteralFree) {f : TypedFlag} (hf : j.Knows f)
    (hchildren : ∀ c ∈ n.children, j.accepts c.parameter f.token = false) (left : List String) :
    j.Comes n (f.words ++ left) n left := by
  rcases f with ⟨token, bound⟩
  have hways : ∀ last, (j.advance last n token).2 = [] := by
    intro last
    refine List.eq_nil_iff_forall_not_mem.2 fun c hc => ?_
    obtain ⟨hchild, haccepts, -⟩ := (mem_advance_iff hn).1 hc
    rw [hchildren c hchild] at haccepts
    cases haccepts
  have hlookup := hf.lookup
  cases hf.binds with
  | switch hinput =>
    refine .past (hways _) hlookup (by simp [hinput]) ?_
    simpa [Parameter.flagSpan, hinput] using Comes.here
  | value hinput _ =>
    refine .past (hways _) hlookup (by simp) ?_
    simpa [Parameter.flagSpan, hinput] using Comes.here

end Judge

end CommandLanguage

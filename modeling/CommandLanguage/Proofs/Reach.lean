import CommandLanguage.Proofs.Path
import CommandLanguage.Tree.Completion

/-!
# Completion, word by word

The walk of completion keeps a stack of stops, each with the number of words before it, and is given
every word of the input. Here the same walk is told as a recursion on the words before the one to
complete (`Judge.reach`). No stop lies behind the word to complete
(`Judge.before_le_of_mem_proceed`), so a walk finds what is reached from its stops, one after the
other (`Judge.traverse_eq`). The positions of a tree depend on no other words
(`CommandTree.positions_eq_of_take_eq`).
-/

namespace CommandLanguage

namespace Judge

variable {j : Judge}

/-- The positions that words lead to from a node. -/
def reach (j : Judge) : List String → Node → List Position
  | [], n => [.below n]
  | token :: rest, n =>
    let (found, ways) := j.advance rest.isEmpty n token
    if ways.isEmpty then
      match j.flags.lookup token with
      | none => found
      | some flag =>
        if flag.input?.isSome && rest.isEmpty then found ++ [.valueOf flag]
        else found ++ reach j (rest.drop (flag.flagSpan - 1)) n
    else found ++ ways.flatMap fun m => reach j (rest.drop (m.parameter.flagSpan - 1)) m
termination_by words => words.length
decreasing_by all_goals simp only [List.length_drop, List.length_cons]; omega

/-! ## What a word leads to -/

/-- A position that a word ends at is a greedy node that took the word, or the value of a flag that
did. -/
theorem exists_taker_of_mem_advance {last : Bool} {n : Node} {token : String} {position : Position}
    (h : position ∈ (j.advance last n token).1) :
    ∃ c ∈ j.takers n token, position = .within c ∨
      c.parameter.input?.isSome = true ∧ position = .valueOf c.parameter := by
  rcases List.mem_filterMap.1 h with ⟨c, hc, hposition⟩
  refine ⟨c, (List.takeWhile_sublist _).subset hc, ?_⟩
  unfold position? at hposition
  split at hposition
  · exact .inl (Option.some.inj hposition).symm
  · split at hposition
    · rename_i hvalue
      exact .inr ⟨(Bool.and_eq_true_iff.1 hvalue).1, (Option.some.inj hposition).symm⟩
    · cases hposition

/-- A flag whose value is to be completed is no way on. -/
theorem input?_of_mem_advance {last : Bool} {n m : Node} {token : String}
    (h : m ∈ (j.advance last n token).2) : (m.parameter.input?.isSome && last) = false := by
  unfold advance at h
  dsimp only at h
  split at h
  · rename_i literal hfind
    obtain rfl : m = literal := by simpa using h
    have hdecides := List.find?_some hfind
    simp only [decides, Bool.and_eq_true] at hdecides
    rw [Parameter.input?_eq_none (Parameter.isFlag_of_isLiteral hdecides.1)]
    rfl
  · have hposition := (List.mem_filter.1 h).2
    unfold position? at hposition
    split at hposition
    · cases hposition
    · split at hposition
      · cases hposition
      · rename_i hvalue
        simpa using hvalue

/-- A flag takes one word or two, the second being its value. -/
theorem flagSpan_eq (p : Parameter) : p.flagSpan = 1 + if p.input?.isSome then 1 else 0 := by
  unfold Parameter.flagSpan
  split <;> rfl

/-! ## No stop lies behind the word to complete -/

/-- Where the walk goes on there are more words before it, and not more than before the word to
complete. -/
theorem before_le_of_mem_proceed {target : Nat} {stop next : Stop} {token : String}
    (hstop : stop.before < target) (h : next ∈ (j.proceed target stop token).2) :
    stop.before < next.before ∧ next.before ≤ target := by
  have hspan : ∀ p : Parameter, (p.input?.isSome && stop.before + 1 == target) = false →
      stop.before < stop.before + p.flagSpan ∧ stop.before + p.flagSpan ≤ target := by
    intro p hp
    rw [flagSpan_eq]
    cases hinput : p.input?.isSome with
    | false => simp; omega
    | true =>
      have hne : stop.before + 1 ≠ target := by simpa [hinput] using hp
      simp; omega
  unfold proceed at h
  dsimp only at h
  split at h
  · split at h
    · simp at h
    · split at h
      · simp at h
      · rename_i hvalue
        obtain rfl := List.mem_singleton.1 h
        exact hspan _ (by simpa using hvalue)
  · rcases List.mem_map.1 h with ⟨m, hm, rfl⟩
    exact hspan _ (input?_of_mem_advance hm)

/-! ## The walk as a recursion -/

/-- What is reached from a stop is what its next word ends at, and what is reached from where the walk
goes on. -/
theorem reach_eq_proceed {words : List String} {stop : Stop} {token : String} {rest : List String}
    (hwords : words.drop stop.before = token :: rest) :
    j.reach (token :: rest) stop.node =
      (j.proceed words.length stop token).1 ++
        (j.proceed words.length stop token).2.flatMap fun next =>
          j.reach (words.drop next.before) next.node := by
  have hlast : (stop.before + 1 == words.length) = rest.isEmpty := by
    have hlength : words.length - stop.before = rest.length + 1 := by
      simpa using congrArg List.length hwords
    rw [Bool.eq_iff_iff, beq_iff_eq, List.isEmpty_iff_length_eq_zero]
    omega
  have hdrop : ∀ p : Parameter,
      words.drop (stop.before + p.flagSpan) = rest.drop (p.flagSpan - 1) := by
    intro p
    have hspan := flagSpan_eq p
    rw [← List.drop_drop, hwords, hspan, Nat.add_comm 1, List.drop_succ_cons, Nat.add_sub_cancel]
  rw [reach, proceed]
  dsimp only
  rw [hlast]
  by_cases hways : (j.advance rest.isEmpty stop.node token).2.isEmpty = true
  · rw [if_pos hways, if_pos hways]
    cases hlookup : j.flags.lookup token with
    | none => simp
    | some flag =>
      dsimp only
      by_cases hvalue : (flag.input?.isSome && rest.isEmpty) = true
      · simp [hvalue]
      · simp [hvalue, hdrop]
  · rw [if_neg hways, if_neg hways]
    simp only [List.flatMap_map, hdrop]

/-- **The walk word by word.** A walk finds what is reached from its stops, one after the other. -/
theorem traverse_eq {tokens : List String} {target : Nat} (htarget : target ≤ tokens.length)
    {stops : List Stop} (hstops : ∀ stop ∈ stops, stop.before ≤ target) :
    j.traverse tokens target stops =
      stops.flatMap fun stop => j.reach ((tokens.take target).drop stop.before) stop.node := by
  have hlength : (tokens.take target).length = target := by
    rw [List.length_take]
    omega
  fun_induction traverse j tokens target stops with
  | case1 => rfl
  | case2 stop stops heq ih =>
    rw [ih (List.forall_mem_cons.1 hstops).2, List.flatMap_cons,
      List.drop_eq_nil_of_le (by omega), reach]
    rfl
  | case3 stop stops hne hlt next ih =>
    rcases List.forall_mem_cons.1 hstops with ⟨hstop, hrest⟩
    have hbefore : stop.before < target := by omega
    have hwords : (tokens.take target).drop stop.before =
        tokens[stop.before] :: (tokens.take target).drop (stop.before + 1) := by
      rw [List.drop_eq_getElem_cons (by omega), List.getElem_take]
    have hnext : ∀ s ∈ next.2 ++ stops, s.before ≤ target := by
      intro s hs
      rcases List.mem_append.1 hs with hs | hs
      · exact (before_le_of_mem_proceed hbefore hs).2
      · exact hrest s hs
    rw [ih hnext, List.flatMap_append, List.flatMap_cons, hwords, reach_eq_proceed hwords, hlength,
      List.append_assoc]
  | case4 stop stops hne hge ih =>
    have hstop := hstops stop List.mem_cons_self
    omega

end Judge

namespace CommandTree

variable {Source : Type}

/-- The positions of a tree are those that the words before the one to complete lead to. -/
theorem positions_eq_reach (t : CommandTree) (caps : Capabilities Source) (source : Source)
    {tokens : List String} {target : Nat} (h : target ≤ tokens.length) :
    t.positions caps source tokens target =
      (t.judge caps source).reach (tokens.take target) t.root := by
  rw [positions, Judge.traverse_eq h (by simp)]
  simp

/-- The positions of a tree depend on the words before the one to complete alone. -/
theorem positions_eq_of_take_eq (t : CommandTree) (caps : Capabilities Source) (source : Source)
    {tokens tokens' : List String} {target : Nat} (h : tokens.take target = tokens'.take target) :
    t.positions caps source tokens target = t.positions caps source tokens' target := by
  have hlengths := congrArg List.length h
  rw [List.length_take, List.length_take] at hlengths
  rcases Nat.lt_or_ge tokens.length target with hlt | hge
  · -- All words are typed, so the inputs are the same.
    obtain rfl : tokens = tokens' := by
      rwa [List.take_of_length_le (by omega), List.take_of_length_le (by omega)] at h
    rfl
  · rw [positions_eq_reach t caps source hge, positions_eq_reach t caps source (by omega), h]

end CommandTree

end CommandLanguage

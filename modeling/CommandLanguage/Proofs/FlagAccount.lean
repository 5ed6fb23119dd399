import CommandLanguage.Proofs.Resolution

/-!
# Accounting for typed flags

An answer *lists the typed flags* if the words of its input fall into portions of which its bindings
and its flags are all, in order. `CommandTree.flags_listed_iff` says exactly when an answer does:
when no flag was typed directly before a node that the path passes over. Such flags are read, but no
answer has them; `CommandTree.flags_unlisted` is the smallest case.
-/

namespace CommandLanguage

/-- How many words are joined in a text is clear from the text, for words at the end of others. -/
theorem eq_of_suffix_of_intercalate_eq {ws ws' : List String} (hsuffix : ws <:+ ws')
    (hne : ws ≠ []) (h : " ".intercalate ws = " ".intercalate ws') : ws = ws' := by
  rcases hsuffix with ⟨front, rfl⟩
  by_cases hfront : front = []
  · simp [hfront]
  · rw [String.intercalate_append_of_ne_nil hfront hne] at h
    have hlength := congrArg String.length h
    simp only [String.length_append] at hlength
    have hblank : " ".length = 1 := rfl
    omega

namespace Portion

/-- How many words of portions are covered by bindings. -/
def allCovered : List Portion → Nat
  | [] => 0
  | taken _ ws :: portions => ws.length + allCovered portions
  | flag _ :: portions => allCovered portions

@[simp] theorem allCovered_nil : allCovered [] = 0 := rfl

@[simp] theorem allCovered_taken (n : Node) (ws : List String) (portions : List Portion) :
    allCovered (taken n ws :: portions) = ws.length + allCovered portions := rfl

@[simp] theorem allCovered_flag (f : TypedFlag) (portions : List Portion) :
    allCovered (flag f :: portions) = allCovered portions := rfl

/-- How many words flags have. -/
def spans : List BoundFlag → Nat
  | [] => 0
  | f :: fs => f.flag.flagSpan + spans fs

@[simp] theorem spans_nil : spans [] = 0 := rfl

@[simp] theorem spans_cons (f : BoundFlag) (fs : List BoundFlag) :
    spans (f :: fs) = f.flag.flagSpan + spans fs := rfl

@[simp] theorem spans_append (fs gs : List BoundFlag) :
    spans (fs ++ gs) = spans fs + spans gs := by
  induction fs with
  | nil => simp
  | cons f fs ih =>
    rw [List.cons_append, spans_cons, spans_cons, ih]
    omega

end Portion

namespace Judge

variable {j : Judge} {path path' : List Node} {portions portions' : List Portion}

open Portion

/-- Every word is covered by what a node took or by a flag. -/
theorem Reads.length_eq (h : j.Reads path portions) :
    (allWords portions).length = allCovered portions + spans (Portion.flags portions) := by
  induction h with
  | nil => rfl
  | word _ _ _ _ ih =>
    simp [words, ih]
    omega
  | greedy => simp [words]
  | known hknown _ ih =>
    simp [words, ih, hknown.binds.length_words]
    omega
  | node _ _ _ _ hbinds _ ih =>
    simp [words, ih, hbinds.length_words]
    omega

/-- A binding covers one word, but for that of a greedy node, which comes last and covers every word
left. -/
theorem Reads.covered_cases (h : j.Reads path portions) :
    ((∀ b ∈ bindings portions, b.node.isGreedy = false) ∧
        allCovered portions = (bindings portions).length) ∨
      ∃ front node ws, bindings portions = front ++ [⟨node, " ".intercalate ws⟩] ∧
        node.isGreedy = true ∧ ws ≠ [] ∧ ws <:+ allWords portions ∧
        allCovered portions = front.length + ws.length := by
  induction h with
  | nil => exact .inl ⟨by simp, rfl⟩
  | @word node token rest hgreedy _ _ _ ih =>
    rcases ih with ⟨hall, hcovered⟩ | ⟨front, last, ws, hbindings, hlast, hne, hsuffix, hcovered⟩
    · left
      constructor
      · simpa [hgreedy] using hall
      · simp [hcovered]
        omega
    · right
      refine ⟨⟨node, token⟩ :: front, last, ws, ?_, hlast, hne, ?_, ?_⟩
      · simp [hbindings]
      · simpa [words] using hsuffix.trans (List.suffix_cons token _)
      · simp [hcovered]
        omega
  | @greedy node token more hgreedy _ =>
    right
    refine ⟨[], node, token :: more, rfl, hgreedy, by simp, ?_, ?_⟩
    · simp [words]
    · simp
  | @known typed rest _ _ ih | @node _ typed rest _ _ _ _ _ _ ih =>
    rcases ih with ⟨hall, hcovered⟩ | ⟨front, last, ws, hbindings, hlast, hne, hsuffix, hcovered⟩
    · left
      constructor
      · simpa using hall
      · simpa using hcovered
    · right
      refine ⟨front, last, ws, ?_, hlast, hne, ?_, ?_⟩
      · simpa using hbindings
      · simpa [words] using hsuffix.trans (List.suffix_append typed.words _)
      · simpa using hcovered

/-- How many words bindings cover does not depend on how the words are split. -/
theorem Reads.allCovered_eq (h : j.Reads path portions) (h' : j.Reads path' portions')
    (hwords : allWords portions = allWords portions')
    (hbindings : bindings portions = bindings portions') :
    allCovered portions = allCovered portions' := by
  rcases h.covered_cases with ⟨hall, hcovered⟩ |
    ⟨front, node, ws, hlast, hgreedy, hne, hsuffix, hcovered⟩ <;>
  rcases h'.covered_cases with ⟨hall', hcovered'⟩ |
    ⟨front', node', ws', hlast', hgreedy', hne', hsuffix', hcovered'⟩
  · rw [hcovered, hcovered', hbindings]
  · have hmem : ⟨node', " ".intercalate ws'⟩ ∈ bindings portions := by
      rw [hbindings, hlast']
      simp
    have hfalse := hall _ hmem
    simp [hgreedy'] at hfalse
  · have hmem : ⟨node, " ".intercalate ws⟩ ∈ bindings portions' := by
      rw [← hbindings, hlast]
      simp
    have hfalse := hall' _ hmem
    simp [hgreedy] at hfalse
  · rw [hlast, hlast'] at hbindings
    rcases List.append_inj' hbindings rfl with ⟨rfl, hb⟩
    have hjoin : " ".intercalate ws = " ".intercalate ws' := by
      have hb' := List.cons.inj hb |>.1
      exact (Binding.mk.inj hb').2
    have hws : ws = ws' := by
      rw [← hwords] at hsuffix'
      rcases List.suffix_or_suffix_of_suffix hsuffix hsuffix' with hle | hle
      · exact eq_of_suffix_of_intercalate_eq hle hne hjoin
      · exact (eq_of_suffix_of_intercalate_eq hle hne' hjoin.symm).symm
    rw [hcovered, hcovered', hws]

end Judge

/-! ## Flags that an answer lists -/

/-- Whether an answer lists the flags of its input: the words fall into portions of which the
bindings and the flags of the answer are all, in order. -/
def Search.ListsFlags (s : Search) (j : Judge) (tokens : List String) : Prop :=
  ∃ portions : List Portion, j.Reads s.last.path portions ∧ tokens = Portion.allWords portions ∧
    s.bindings = Portion.bindings portions ∧ s.flags = Portion.flags portions

/-- The words of an answer that lists its flags, when no binding is greedy: one for each binding,
one for each switch and two for each flag with a value. -/
theorem Search.ListsFlags.length_eq {s : Search} {j : Judge} {tokens : List String}
    (h : s.ListsFlags j tokens) (hgreedy : ∀ b ∈ s.bindings, b.node.isGreedy = false) :
    tokens.length = s.bindings.length + Portion.spans s.flags := by
  rcases h with ⟨portions, hreads, rfl, hbindings, hflags⟩
  rw [hreads.length_eq, hflags]
  rcases hreads.covered_cases with ⟨-, hcovered⟩ | ⟨front, node, ws, hlast, hnode, -⟩
  · rw [hcovered, hbindings]
  · have hfalse := hgreedy ⟨node, " ".intercalate ws⟩ (by rw [hbindings, hlast]; simp)
    simp [hnode] at hfalse

namespace Portion

/-- Flags without words are none. -/
theorem eq_nil_of_spans_eq_zero {fs : List BoundFlag} (h : spans fs = 0) : fs = [] := by
  cases fs with
  | nil => rfl
  | cons f fs =>
    have hspan : 1 ≤ f.flag.flagSpan := by
      unfold Parameter.flagSpan
      split <;> omega
    rw [spans_cons] at h
    omega

/-- The flags of a trail are those that the answer has and those typed before nodes passed over. -/
theorem spans_flags_ofTrail (steps : List Step) (after : List TypedFlag) :
    spans (flags (ofTrail steps after)) =
      spans (steps.flatMap Step.kept ++ after.map (·.bound)) +
        spans ((steps.flatMap Step.lost).map (·.bound)) := by
  induction steps with
  | nil => simp [ofTrail]
  | cons s steps ih =>
    rw [ofTrail_cons, flags_append, spans_append, ih]
    cases s with
    | take before n ws =>
      simp [Step.portions, Step.kept, Step.lost]
      omega
    | flag n f =>
      simp [Step.portions, Step.kept, Step.lost]
      omega
    | pass before n =>
      simp [Step.portions, Step.kept, Step.lost]
      omega

/-- The flags of a trail are those of the answer if none was typed before a node passed over. -/
theorem flags_ofTrail {steps : List Step} {after : List TypedFlag}
    (h : ∀ s ∈ steps, s.lost = []) :
    flags (ofTrail steps after) = steps.flatMap Step.kept ++ after.map (·.bound) := by
  induction steps with
  | nil => simp [ofTrail]
  | cons s steps ih =>
    rcases List.forall_mem_cons.1 h with ⟨hs, hsteps⟩
    rw [ofTrail_cons, flags_append, ih hsteps]
    cases s with
    | take before n ws => simp [Step.portions, Step.kept]
    | flag n f => simp [Step.portions, Step.kept]
    | pass before n =>
      obtain rfl : before = [] := hs
      simp [Step.portions, Step.kept]

end Portion

namespace CommandTree

variable {Source : Type}

/-- **What becomes of typed flags.** The answer to an input that resolves lists all of them exactly
when none was typed directly before a node that its path passes over. However the words are split,
the bindings and the listed flags leave out the words of such flags and no others. -/
theorem flags_listed_iff (t : CommandTree) (caps : Capabilities Source) (source : Source)
    (tokens : List String) (h : (t.dispatch caps source tokens).status = .complete) :
    (∃ u steps after, t.Resolution caps source tokens u steps after) ∧
      ∀ u steps after, t.Resolution caps source tokens u steps after →
        ((t.dispatch caps source tokens).ListsFlags (t.judge caps source) tokens ↔
          ∀ s ∈ steps, s.lost = []) ∧
        ∀ portions,
          (t.judge caps source).Reads (t.dispatch caps source tokens).last.path portions →
          tokens = Portion.allWords portions →
          (t.dispatch caps source tokens).bindings = Portion.bindings portions →
          tokens.length = Portion.allCovered portions +
            Portion.spans (t.dispatch caps source tokens).flags +
            Portion.spans ((steps.flatMap Step.lost).map (·.bound)) := by
  refine ⟨dispatch_complete h, fun u steps after hres => ?_⟩
  have hpath : (t.dispatch caps source tokens).last.path = steps.map Step.node := by
    rw [hres.last, Place.path_along_root]
  have htrail : (t.judge caps source).Reads (t.dispatch caps source tokens).last.path
      (Portion.ofTrail steps after) := by
    rw [hpath]
    exact hres.trail.reads fun s hs => List.mem_map_of_mem hs
  have hwords : tokens = Portion.allWords (Portion.ofTrail steps after) := by
    rw [Portion.allWords_ofTrail]
    exact hres.words
  have hbindings : (t.dispatch caps source tokens).bindings =
      Portion.bindings (Portion.ofTrail steps after) := by
    rw [Portion.bindings_ofTrail]
    exact hres.bindings
  -- The account of the trail carries over to every other way of splitting the words.
  have hcount : ∀ portions,
      (t.judge caps source).Reads (t.dispatch caps source tokens).last.path portions →
      tokens = Portion.allWords portions →
      (t.dispatch caps source tokens).bindings = Portion.bindings portions →
      tokens.length = Portion.allCovered portions +
        Portion.spans (t.dispatch caps source tokens).flags +
        Portion.spans ((steps.flatMap Step.lost).map (·.bound)) := by
    intro portions hreads hsplit hbound
    have hcovered : Portion.allCovered portions =
        Portion.allCovered (Portion.ofTrail steps after) :=
      hreads.allCovered_eq htrail (hsplit.symm.trans hwords) (hbound.symm.trans hbindings)
    have hlength : tokens.length = Portion.allCovered (Portion.ofTrail steps after) +
        Portion.spans (Portion.flags (Portion.ofTrail steps after)) := by
      rw [← htrail.length_eq, ← hwords]
    rw [hcovered, hlength, Portion.spans_flags_ofTrail, hres.flags]
    omega
  refine ⟨⟨?_, ?_⟩, hcount⟩
  · rintro ⟨portions, hreads, hsplit, hbound, hflags⟩ s hs
    have hlength : tokens.length = Portion.allCovered portions +
        Portion.spans (t.dispatch caps source tokens).flags := by
      rw [hflags, ← hreads.length_eq, ← hsplit]
    have hlost : Portion.spans ((steps.flatMap Step.lost).map (·.bound)) = 0 := by
      have htotal := hcount portions hreads hsplit hbound
      omega
    have hnil := List.map_eq_nil_iff.1 (Portion.eq_nil_of_spans_eq_zero hlost)
    exact List.flatMap_eq_nil_iff.1 hnil s hs
  · intro hlost
    refine ⟨Portion.ofTrail steps after, htrail, hwords, hbindings, ?_⟩
    rw [hres.flags, Portion.flags_ofTrail hlost]

/-- A switch before the optional number and one after the text: the answer has the second. -/
theorem flags_listed_iff_switch :
    ∃ t words, words = ["-v", "hello", "-v"] ∧
      ofUsages "cmd" [⟨"h", [.optional "n" .int, .required "s" .string, .switch "v" []],
        none, none, false⟩] = .ok t ∧
      (t.dispatch .builtin () words).status = .complete ∧
      ∃ u steps after, t.Resolution .builtin () words u steps after ∧
        ((t.dispatch .builtin () words).ListsFlags (t.judge .builtin ()) words ↔
          ∀ s ∈ steps, s.lost = []) := by
  obtain ⟨t, ht⟩ : ∃ t, ofUsages "cmd" [⟨"h", [.optional "n" .int, .required "s" .string,
      .switch "v" []], none, none, false⟩] = .ok t := ⟨_, rfl⟩
  have hcomplete : (t.dispatch .builtin () ["-v", "hello", "-v"]).status = .complete := by
    cases ht
    rfl
  rcases flags_listed_iff t .builtin () _ hcomplete with ⟨⟨u, steps, after, hres⟩, hlisted⟩
  exact ⟨t, _, rfl, ht, hcomplete, u, steps, after, hres, (hlisted u steps after hres).1⟩

/-- A flag typed before an optional argument that is not given is in no answer. -/
theorem flags_unlisted :
    ∃ t words, words = ["-v", "hello"] ∧
      ofUsages "cmd" [⟨"h", [.optional "n" .int, .required "s" .string, .switch "v" []],
        none, none, false⟩] = .ok t ∧
      (t.dispatch .builtin () words).status = .complete ∧
      (t.dispatch .builtin () words).flags = [] ∧
      ¬ (t.dispatch .builtin () words).ListsFlags (t.judge .builtin ()) words := by
  refine ⟨_, _, rfl, rfl, rfl, rfl, fun h => ?_⟩
  have hlength : 2 = 1 + 0 := h.length_eq (by decide)
  omega

end CommandTree

end CommandLanguage

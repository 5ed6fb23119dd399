import CommandLanguage.Proofs.UnknownFlag

/-!
# The first word

Before a walk starts, the first word is held against the children of the root, and the answer is
given at once if it is no flag and none of them can take it or be passed over. The walk would have
come to the same. Each child leads astray at the root (`Judge.visit_of_refuses`), so that is where the
misses of all of them merge (`Judge.explore_of_refuses`); and the words are not only flags, so the
root itself completes nothing (`Judge.descend_of_refuses`). The answers are the same in every part
(`CommandTree.dispatch_eq_walk`).
-/

namespace CommandLanguage

namespace Judge

variable {j : Judge} {p : Place} {c : Node} {cs : List Node} {token : String} {rest : List String}

/-- Whether a node can neither take a word nor be passed over. -/
structure Refuses (j : Judge) (token : String) (c : Node) : Prop where
  required : c.isOptional = false
  rejects : j.accepts c.parameter token = false

/-- A node that refuses a word leads astray at its parent. -/
theorem visit_of_refuses (hplain : isFlagToken token = false) (h : j.Refuses token c) :
    j.visit p c (token :: rest) = .error ⟨p, false⟩ := by
  have henter : j.enter p c [] token rest = .error ⟨p, false⟩ := by simp [enter, h.rejects]
  have hskip : c.isSkippable = false := by simp [Node.isSkippable, h.required]
  rw [visit_eq, flagsBefore_of_plain hplain]
  simp [henter, hskip]

/-- Siblings that refuse a word lead astray at their parent, as if there were none. -/
theorem explore_of_refuses (hplain : isFlagToken token = false) (h : ∀ c ∈ cs, j.Refuses token c) :
    ∃ astray, j.explore p cs (token :: rest) = .error astray ∧
      astray.getD ⟨p, false⟩ = ⟨p, false⟩ := by
  induction cs with
  | nil => exact ⟨none, rfl, rfl⟩
  | cons c cs ih =>
    rcases List.forall_mem_cons.1 h with ⟨hc, hcs⟩
    rcases ih hcs with ⟨others, hothers, hmerged⟩
    refine ⟨some (others.elim ⟨p, false⟩ (Miss.merge ⟨p, false⟩)), ?_, ?_⟩
    · rw [explore, visit_of_refuses hplain hc, hothers]
      rfl
    · cases others with
      | none => rfl
      | some other =>
        obtain rfl : other = ⟨p, false⟩ := hmerged
        simp [Miss.merge]

/-- Below a place whose children all refuse the first word, a walk misses at the place: what is left
does not consist of flags, so the place completes nothing. -/
theorem descend_of_refuses (hplain : isFlagToken token = false)
    (h : ∀ c ∈ p.node.children, j.Refuses token c) :
    j.descend p (token :: rest) = .error ⟨p, false⟩ := by
  rcases explore_of_refuses hplain h with ⟨astray, hexplore, hmerged⟩
  rw [descend, hexplore]
  simp [close, takeFlags_of_plain hplain, hmerged]

end Judge

namespace CommandTree

variable {Source : Type}

/-- What it takes for the first word to be refused. -/
theorem refusesFirst_iff {t : CommandTree} {j : Judge} {tokens : List String} :
    t.refusesFirst j tokens = true ↔
      ∃ token rest, tokens = token :: rest ∧ isFlagToken token = false ∧
        ∀ c ∈ t.root.children, j.Refuses token c := by
  cases tokens with
  | nil => simp [refusesFirst]
  | cons token rest =>
    simp only [refusesFirst, Bool.and_eq_true, Bool.not_eq_true', List.all_eq_true]
    constructor
    · rintro ⟨hplain, hchildren⟩
      exact ⟨token, rest, rfl, hplain, fun c hc => ⟨(hchildren c hc).1, (hchildren c hc).2⟩⟩
    · rintro ⟨_, _, ⟨rfl, rfl⟩, hplain, hchildren⟩
      exact ⟨hplain, fun c hc => ⟨(hchildren c hc).required, (hchildren c hc).rejects⟩⟩

/-- **The first word.** For a source that may use the command, the answer is that of the walk, also
where it is given without one because the first word is refused. -/
theorem dispatch_eq_walk (t : CommandTree) (caps : Capabilities Source) (source : Source)
    (tokens : List String) (hroot : caps.permits source t.root.permission = true) :
    t.dispatch caps source tokens = t.walk caps source tokens := by
  have hpermits : (t.judge caps source).permits t.root.permission = true := hroot
  simp only [dispatch, hpermits, Bool.not_true, Bool.false_eq_true, if_false]
  split
  · rename_i hrefuses
    rcases refusesFirst_iff.1 hrefuses with ⟨token, rest, rfl, hplain, hchildren⟩
    rw [walk, Judge.descend_of_refuses hplain hchildren]
  · rfl

/-- A first word that none of two literals is, before a flag and a value. -/
theorem dispatch_eq_walk_refused :
    ∃ t, ofUsages "kit" [⟨"give", [.literal "give" [], .required "kit" .string, .switch "silent" ["s"]],
        none, none, false⟩, ⟨"list", [.literal "list" []], none, none, false⟩] = .ok t ∧
      Capabilities.builtin.permits () t.root.permission = true ∧
      t.refusesFirst (t.judge .builtin ()) ["gve", "-s", "pvp"] = true ∧
      (t.walk .builtin () ["gve", "-s", "pvp"]).status = .unknown ∧
      t.dispatch .builtin () ["gve", "-s", "pvp"] = t.walk .builtin () ["gve", "-s", "pvp"] :=
  ⟨_, rfl, rfl, by decide, by decide, dispatch_eq_walk _ .builtin () _ rfl⟩

end CommandTree

end CommandLanguage

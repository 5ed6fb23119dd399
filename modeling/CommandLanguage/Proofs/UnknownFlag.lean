import CommandLanguage.Proofs.Astray
import CommandLanguage.Proofs.FlagMeaning
import CommandLanguage.Proofs.Resolution

/-!
# Unknown flags

What a word that looks like a flag but is none does to an input that resolves without it. The words
then resolve to nothing, unless some flag waits for the word as its value, and the answer tells the
least deep of the *ways* in which they lead astray (`Judge.Way`, `Judge.descend_merges`). The ways
that come by the word have failed, but those that turn off before it have not. So the answer is a
failure only where no way turns off earlier (`CommandTree.status_of_unknownFlag`): always if nothing
but flags is typed before the word, and never if some child of the root does not take the first word.
-/

namespace CommandLanguage

/-! ## Ways astray -/

/-- What becomes of trying a node at which nothing is found: it leads astray by itself, or the walk
goes on below it with the words that it leaves. -/
inductive Attempt where
  | rejected (miss : Miss)
  | onward (left : List String)

/-- A miss that has failed too if a malformed flag is at the front of the words. -/
def Judge.mark (j : Judge) (tokens : List String) (m : Miss) : Miss :=
  ⟨m.last, m.failed || (j.takeFlags false tokens).isNone⟩

@[simp] theorem Judge.last_mark (j : Judge) (tokens : List String) (m : Miss) :
    (j.mark tokens m).last = m.last := rfl

/-- Two misses merge into one at the place of one of them. -/
theorem Miss.last_merge (m k : Miss) :
    (m.merge k).last = m.last ∨ (m.merge k).last = k.last := by
  unfold Miss.merge
  split
  · exact .inl rfl
  · split
    · exact .inl rfl
    · exact .inr rfl

/-- Two misses merge into one that has failed if one has that is as shallow as both. -/
theorem Miss.failed_merge_iff (m k : Miss) :
    (m.merge k).failed = true ↔
      m.failed = true ∧ m.last.depth = min m.last.depth k.last.depth ∨
        k.failed = true ∧ k.last.depth = min m.last.depth k.last.depth := by
  unfold Miss.merge
  split
  · rename_i heq
    simp [heq]
  · rename_i hne
    split
    · rename_i hlt
      rw [Int.min_eq_left (Int.le_of_lt hlt)]
      simp [Ne.symm hne]
    · rename_i hge
      rw [Int.min_eq_right (Int.not_lt.1 hge)]
      simp [hne]

/-- Whether a miss is what merging others gives: at the place of one of the least deep ones, and
failed if one of these is. -/
structure Miss.Merges (m : Miss) (ways : Miss → Prop) : Prop where
  least : ∀ k, ways k → m.last.depth ≤ k.last.depth
  attained : ∃ k, ways k ∧ k.last = m.last
  failed_iff : m.failed = true ↔ ∃ k, ways k ∧ k.last.depth = m.last.depth ∧ k.failed = true

namespace Miss.Merges

variable {m k : Miss} {ways ways' : Miss → Prop}

theorem self (m : Miss) : m.Merges (· = m) where
  least := by
    rintro k rfl
    exact Int.le_refl _
  attained := ⟨m, rfl, rfl⟩
  failed_iff := by simp

theorem congr (h : m.Merges ways) (hways : ∀ k, ways k ↔ ways' k) : m.Merges ways' := by
  have heq : ways = ways' := funext fun k => propext (hways k)
  rwa [← heq]

/-- A merged miss is one of all that were merged into the two. -/
theorem merge (hm : m.Merges ways) (hk : k.Merges ways') :
    (m.merge k).Merges fun x => ways x ∨ ways' x where
  least := by
    intro x hx
    rw [Judge.depth_merge]
    rcases hx with hx | hx
    · exact Int.le_trans (Int.min_le_left _ _) (hm.least x hx)
    · exact Int.le_trans (Int.min_le_right _ _) (hk.least x hx)
  attained := by
    rcases last_merge m k with hlast | hlast
    · rcases hm.attained with ⟨x, hx, heq⟩
      exact ⟨x, .inl hx, heq.trans hlast.symm⟩
    · rcases hk.attained with ⟨x, hx, heq⟩
      exact ⟨x, .inr hx, heq.trans hlast.symm⟩
  failed_iff := by
    rw [failed_merge_iff, hm.failed_iff, hk.failed_iff, Judge.depth_merge]
    constructor
    · rintro (⟨⟨x, hx, heq, hfailed⟩, hdepth⟩ | ⟨⟨x, hx, heq, hfailed⟩, hdepth⟩)
      · exact ⟨x, .inl hx, heq.trans hdepth, hfailed⟩
      · exact ⟨x, .inr hx, heq.trans hdepth, hfailed⟩
    · -- A way as shallow as the two of them is as shallow as the side it belongs to.
      rintro ⟨x, hx | hx, hdepth, hfailed⟩
      · have hle := hm.least x hx
        have hside : m.last.depth = min m.last.depth k.last.depth := by omega
        exact .inl ⟨⟨x, hx, hdepth.trans hside.symm, hfailed⟩, hside⟩
      · have hle := hk.least x hx
        have hside : k.last.depth = min m.last.depth k.last.depth := by omega
        exact .inr ⟨⟨x, hx, hdepth.trans hside.symm, hfailed⟩, hside⟩

/-- Misses may be marked before they are merged. -/
theorem mark (hm : m.Merges ways) (j : Judge) (tokens : List String) :
    (j.mark tokens m).Merges fun x => ∃ k, ways k ∧ j.mark tokens k = x where
  least := by
    rintro x ⟨k, hk, rfl⟩
    exact hm.least k hk
  attained := by
    rcases hm.attained with ⟨k, hk, hlast⟩
    exact ⟨j.mark tokens k, ⟨k, hk, rfl⟩, hlast⟩
  failed_iff := by
    simp only [Judge.mark, Bool.or_eq_true, hm.failed_iff]
    constructor
    · rintro (⟨k, hk, hdepth, hfailed⟩ | hmalformed)
      · exact ⟨_, ⟨k, hk, rfl⟩, hdepth, Bool.or_eq_true_iff.2 (.inl hfailed)⟩
      · rcases hm.attained with ⟨k, hk, hlast⟩
        exact ⟨_, ⟨k, hk, rfl⟩, congrArg Place.depth hlast, Bool.or_eq_true_iff.2 (.inr hmalformed)⟩
    · rintro ⟨_, ⟨k, hk, rfl⟩, hdepth, hmarked⟩
      exact (Bool.or_eq_true_iff.1 hmarked).imp_left fun hfailed => ⟨k, hk, hdepth, hfailed⟩

/-- A merged miss has failed if a least deep one has. -/
theorem failed_iff_least (h : m.Merges ways) :
    m.failed = true ↔
      ∃ k, ways k ∧ k.failed = true ∧ ∀ x, ways x → k.last.depth ≤ x.last.depth := by
  rw [h.failed_iff]
  constructor
  · rintro ⟨k, hk, hdepth, hfailed⟩
    refine ⟨k, hk, hfailed, fun x hx => ?_⟩
    rw [hdepth]
    exact h.least x hx
  · rintro ⟨k, hk, hfailed, hleast⟩
    rcases h.attained with ⟨x, hx, hlast⟩
    have hle := hleast x hx
    rw [hlast] at hle
    exact ⟨k, hk, Int.le_antisymm hle (h.least k hk), hfailed⟩

end Miss.Merges

namespace Judge

variable {j : Judge} {p : Place} {c : Node} {cs : List Node} {tokens : List String} {m : Miss}

/-- What becomes of trying a node. -/
def attempt (j : Judge) (p : Place) (c : Node) (tokens : List String) : Attempt :=
  match j.flagsBefore c tokens with
  | none => .rejected ⟨p, true⟩
  | some (_, []) => .rejected ⟨p, false⟩
  | some (taken, token :: rest) =>
    if j.accepts c.parameter token then
      match j.consume c taken token rest with
      | none => .rejected ⟨p, true⟩
      | some (_, _, []) => .rejected ⟨if c.isSkippable then p else p.child c, false⟩
      | some (_, _, left) => .onward left
    else .rejected ⟨p, false⟩

/-- A way in which words lead astray below a place: where nothing follows, at a node that rejects
them, or below one that takes some of them. It has failed too if it comes by a malformed flag. -/
inductive Way (j : Judge) : Place → List String → Miss → Prop where
  | leaf {p : Place} {tokens : List String} : p.node.children = [] →
      Way j p tokens (j.mark tokens ⟨p, false⟩)
  | rejected {p : Place} {c : Node} {tokens : List String} {m : Miss} : c ∈ p.node.children →
      j.attempt p c tokens = .rejected m → Way j p tokens (j.mark tokens m)
  | onward {p : Place} {c : Node} {tokens left : List String} {m : Miss} : c ∈ p.node.children →
      j.attempt p c tokens = .onward left → Way j (p.child c) left m →
      Way j p tokens (j.mark tokens m)

/-- Where nothing follows, the only way astray is at the place itself. -/
theorem way_iff_of_leaf (hleaf : p.node.children = []) :
    j.Way p tokens m ↔ m = j.mark tokens ⟨p, false⟩ := by
  constructor
  · intro h
    cases h with
    | leaf => rfl
    | rejected hc | onward hc =>
      rw [hleaf] at hc
      cases hc
  · rintro rfl
    exact .leaf hleaf

/-- Elsewhere each way astray is by a child. -/
theorem way_iff (hne : p.node.children ≠ []) :
    j.Way p tokens m ↔ ∃ k, (∃ c ∈ p.node.children, j.attempt p c tokens = .rejected k ∨
      ∃ left, j.attempt p c tokens = .onward left ∧ j.Way (p.child c) left k) ∧
        j.mark tokens k = m := by
  constructor
  · intro h
    cases h with
    | leaf hleaf => exact absurd hleaf hne
    | rejected hc hattempt => exact ⟨_, ⟨_, hc, .inl hattempt⟩, rfl⟩
    | onward hc hattempt hway => exact ⟨_, ⟨_, hc, .inr ⟨_, hattempt, hway⟩⟩, rfl⟩
  · rintro ⟨k, ⟨c, hc, hattempt | ⟨left, hattempt, hway⟩⟩, rfl⟩
    · exact .rejected hc hattempt
    · exact .onward hc hattempt hway

/-- A node at which nothing is found is rejected, or nothing is found below it. -/
theorem attempt_cases (h : j.visit p c tokens = .error m) :
    j.attempt p c tokens = .rejected m ∨
      ∃ left, j.attempt p c tokens = .onward left ∧ j.descend (p.child c) left = .error m := by
  cases visit_strays h with
  | malformed hflags => exact .inl (by simp [attempt, hflags])
  | ended hflags => exact .inl (by simp [attempt, hflags])
  | entered hflags hstrays =>
    cases hstrays with
    | refused haccepts => exact .inl (by simp [attempt, hflags, haccepts])
    | unbound haccepts hconsume => exact .inl (by simp [attempt, hflags, haccepts, hconsume])
    | arrived haccepts hconsume => exact .inl (by simp [attempt, hflags, haccepts, hconsume])
    | @onward bindings flags left m haccepts hconsume hleft hdown =>
      refine .inr ⟨left, ?_, hdown⟩
      cases left with
      | nil => exact absurd rfl hleft
      | cons next left => simp [attempt, hflags, haccepts, hconsume]

/-- Siblings lead astray as merging what each of them does. -/
theorem explore_merges {ways : Node → Miss → Prop}
    (hvisit : ∀ c ∈ cs, ∀ m, j.visit p c tokens = .error m → m.Merges (ways c))
    (h : j.explore p cs tokens = .error (some m)) : m.Merges fun k => ∃ c ∈ cs, ways c k := by
  induction cs generalizing m with
  | nil => cases h
  | cons c cs ih =>
    rcases List.forall_mem_cons.1 hvisit with ⟨hc, hcs⟩
    rcases explore_cons_eq_error h with ⟨own, others, hown, hrest, heq⟩
    obtain rfl := Option.some.inj heq
    cases others with
    | none =>
      obtain rfl := eq_nil_of_explore hrest
      exact (hc own hown).congr (by simp)
    | some other => exact ((hc own hown).merge (ih hcs hrest)).congr (by simp)

/-- A rejection is at the place or at the node that is tried. -/
theorem last_of_rejected (h : j.attempt p c tokens = .rejected m) :
    m.last = p ∨ m.last = p.child c := by
  unfold attempt at h
  split at h
  · obtain rfl := Attempt.rejected.inj h
    exact .inl rfl
  · obtain rfl := Attempt.rejected.inj h
    exact .inl rfl
  split at h
  · split at h
    · obtain rfl := Attempt.rejected.inj h
      exact .inl rfl
    · obtain rfl := Attempt.rejected.inj h
      dsimp only
      split
      · exact .inl rfl
      · exact .inr rfl
    · cases h
  · obtain rfl := Attempt.rejected.inj h
    exact .inl rfl

/-- No way astray is above the place that it starts from. -/
theorem Way.depth_le (h : j.Way p tokens m) : p.depth ≤ m.last.depth := by
  induction h with
  | leaf => exact Int.le_refl _
  | rejected _ hattempt =>
    rw [last_mark]
    rcases last_of_rejected hattempt with hlast | hlast
    · rw [hlast]
    · rw [hlast, Place.depth_child]
      omega
  | onward _ _ _ ih =>
    rw [last_mark]
    rw [Place.depth_child] at ih
    omega

variable {token : String} {rest : List String}

theorem takeFlags_of_plain (hplain : isFlagToken token = false) (stop : Bool) :
    j.takeFlags stop (token :: rest) = some ([], token :: rest) := by
  simp [takeFlags, hplain]

theorem flagsBefore_of_plain (hplain : isFlagToken token = false) :
    j.flagsBefore c (token :: rest) = some ([], token :: rest) := by
  unfold flagsBefore
  split
  · rfl
  · exact takeFlags_of_plain hplain _

/-- A node that does not take a word that is no flag leads astray at its parent. -/
theorem attempt_of_refused (hplain : isFlagToken token = false)
    (hrefuses : j.accepts c.parameter token = false) :
    j.attempt p c (token :: rest) = .rejected ⟨p, false⟩ := by
  simp [attempt, flagsBefore_of_plain hplain, hrefuses]

/-- In front of a word that is no flag no rejection has failed. -/
theorem failed_of_rejected (hplain : isFlagToken token = false)
    (h : j.attempt p c (token :: rest) = .rejected m) : m.failed = false := by
  rw [attempt, flagsBefore_of_plain hplain] at h
  dsimp only at h
  split at h
  · rename_i haccepts
    split at h
    · rename_i hconsume
      -- Only a flag node can lack a value, and the word is no flag.
      exfalso
      cases hflag : c.isFlag with
      | false =>
        rw [consume, hflag, if_neg Bool.false_ne_true] at hconsume
        split at hconsume <;> cases hconsume
      | true =>
        have hnamed := (accepts_flag_iff hflag).1 haccepts
        rcases (Option.any_eq_true _ _).1 hnamed with ⟨name, hname, -⟩
        simp [isFlagToken, hname] at hplain
    · obtain rfl := Attempt.rejected.inj h
      rfl
    · cases h
  · obtain rfl := Attempt.rejected.inj h
    rfl

/-- In front of a word that is no flag no way astray has failed at the place that it starts from. -/
theorem Way.failed_of_depth (hplain : isFlagToken token = false)
    (h : j.Way p (token :: rest) m) (hdepth : m.last.depth = p.depth) : m.failed = false := by
  have hmark : ∀ k, (j.mark (token :: rest) k).failed = k.failed := by
    intro k
    simp [mark, takeFlags_of_plain hplain]
  cases h with
  | leaf => rw [hmark]
  | rejected _ hattempt =>
    rw [hmark]
    exact failed_of_rejected hplain hattempt
  | onward _ _ hway =>
    have hdeep := hway.depth_le
    rw [Place.depth_child] at hdeep
    rw [last_mark] at hdepth
    omega

/-- A walk that finds nothing in words with a malformed flag at their front has failed. -/
theorem failed_of_malformed (htake : j.takeFlags false tokens = none)
    (h : j.descend p tokens = .error m) : m.failed = true := by
  rcases descend_eq_error h with ⟨astray, -, rfl⟩
  simp [htake]

/-- Behind known flags an unknown one is malformed. -/
theorem takeFlags_of_unknown_behind {before after : List String} {flags : List BoundFlag}
    (hbefore : j.takeFlags false before = some (flags, [])) (hlooks : isFlagToken token = true)
    (hunknown : j.flags.lookup token = none) :
    j.takeFlags false (before ++ token :: after) = none := by
  obtain ⟨typed, hknown, -, -, hwords⟩ := takeFlags_sound hbefore
  rw [List.append_nil] at hwords
  rw [hwords, takeFlags_allWords hknown, takeFlags]
  simp [hlooks, hunknown]

/-- **Where walks go astray.** A walk that finds nothing tells one of the least deep of the ways in
which its words lead astray, and it has failed if one of the least deep ways has. -/
theorem descend_merges (h : j.descend p tokens = .error m) : m.Merges (j.Way p tokens) := by
  rcases p with ⟨n, above⟩
  induction n using Node.induction generalizing above tokens m with
  | step n ih =>
    rcases descend_eq_error h with ⟨astray, hexplore, heq⟩
    have hmark : m = j.mark tokens (astray.getD ⟨⟨n, above⟩, false⟩) := heq
    rw [hmark]
    -- Each child leads astray by itself or below it.
    have hvisit : ∀ c ∈ n.children, ∀ k, j.visit ⟨n, above⟩ c tokens = .error k →
        k.Merges fun x => j.attempt ⟨n, above⟩ c tokens = .rejected x ∨
          ∃ left, j.attempt ⟨n, above⟩ c tokens = .onward left ∧
            j.Way (Place.child ⟨n, above⟩ c) left x := by
      intro c hc k hk
      rcases attempt_cases hk with hattempt | ⟨left, hattempt, hdown⟩
      · exact (Miss.Merges.self k).congr (by simp [hattempt, eq_comm])
      · exact (ih c hc (n :: above) hdown).congr (by simp [hattempt, Place.child])
    cases astray with
    | none =>
      have hleaf := eq_nil_of_explore hexplore
      refine ((Miss.Merges.self _).mark j tokens).congr fun x => ?_
      rw [way_iff_of_leaf (p := ⟨n, above⟩) hleaf]
      simp [eq_comm]
    | some k =>
      have hne : n.children ≠ [] := by
        intro hleaf
        rw [hleaf, explore] at hexplore
        cases hexplore
      exact ((explore_merges hvisit hexplore).mark j tokens).congr fun x =>
        (way_iff (p := ⟨n, above⟩) hne).symm

/-- Where a child does not take the first word, and that one is no flag, a walk that finds nothing
has not failed. -/
theorem failed_of_refused {token : String} {rest : List String}
    (hplain : isFlagToken token = false) (hc : c ∈ p.node.children)
    (hrefuses : j.accepts c.parameter token = false)
    (h : j.descend p (token :: rest) = .error m) : m.failed = false := by
  have hmerges := descend_merges h
  rw [Bool.eq_false_iff, Ne, hmerges.failed_iff]
  rintro ⟨way, hway, hdepth, hfailed⟩
  -- The child leads astray at the place, and no way has failed there.
  have hhere : j.Way p (token :: rest) (j.mark (token :: rest) ⟨p, false⟩) :=
    .rejected hc (attempt_of_refused hplain hrefuses)
  have hle := hmerges.least _ hhere
  have hge := hway.depth_le
  rw [last_mark] at hle
  dsimp only at hle
  have hshallow : way.last.depth = p.depth := by omega
  rw [hway.failed_of_depth hplain hshallow] at hfailed
  cases hfailed

end Judge

/-! ## The portion of a word -/

/-- A word of a concatenation is in one of the parts. -/
theorem exists_part_of_flatMap {α β : Type} {f : α → List β} {xs : List α} {front back : List β}
    {y : β} (h : xs.flatMap f = front ++ y :: back) :
    ∃ before x after front' back', xs = before ++ x :: after ∧ f x = front' ++ y :: back' ∧
      front = before.flatMap f ++ front' := by
  induction xs generalizing front with
  | nil => simp at h
  | cons x xs ih =>
    rw [List.flatMap_cons] at h
    rcases List.append_eq_append_iff.1 h with ⟨rest, rfl, hrest⟩ | ⟨rest, hx, hrest⟩
    · -- The word is in a later part.
      rcases ih hrest with ⟨before, x', after, front', back', rfl, hword, rfl⟩
      exact ⟨x :: before, x', after, front', back', rfl, hword, by simp⟩
    · cases rest with
      | nil =>
        -- The word is the first of the later parts.
        have hfirst : xs.flatMap f = [] ++ y :: back := by simpa using hrest.symm
        rcases ih hfirst with ⟨before, x', after, front', back', rfl, hword, hfront⟩
        refine ⟨x :: before, x', after, front', back', rfl, hword, ?_⟩
        rw [List.flatMap_cons, List.append_assoc, ← hfront]
        simpa using hx.symm
      | cons y' rest =>
        obtain ⟨rfl, -⟩ := List.cons.inj hrest
        exact ⟨[], x, xs, front, rest, rfl, hx, by simp⟩

namespace Judge

variable {j : Judge} {n : Node} {steps : List Step} {after : List TypedFlag} {portion : Portion}

/-- Whether words may end in a flag that waits for its value: some trail reads them up to the word
of a flag that has a value. -/
def Awaits (j : Judge) (n : Node) (words : List String) : Prop :=
  ∃ steps after portions f portions', j.Trail n steps after ∧
    Portion.ofTrail steps after = portions ++ .flag f :: portions' ∧
    f.bound.value.isSome = true ∧ words = Portion.allWords portions ++ [f.token]

/-- A portion of a trail is a word that is no flag, the words of a greedy node, a flag of the table,
or one typed at a node. -/
theorem Trail.portion_cases (h : j.Trail n steps after)
    (hportion : portion ∈ Portion.ofTrail steps after) :
    (∃ m token, portion = .taken m [token] ∧ isFlagToken token = false) ∨
      (∃ s ∈ steps, s.node.isGreedy = true ∧ ∃ ws, portion = .taken s.node ws) ∨
      ∃ f, portion = .flag f ∧ (j.Knows f ∨ ∃ m, .flag m f ∈ steps) := by
  rcases List.mem_append.1 hportion with hportion | hportion
  · rcases List.mem_flatMap.1 hportion with ⟨s, hs, hportion⟩
    rcases h.follows.exists_allows hs with ⟨rest, hallows⟩
    cases hallows with
    | word _ _ hknown htoken =>
      rcases List.mem_append.1 hportion with hportion | hportion
      · rcases List.mem_map.1 hportion with ⟨f, hf, rfl⟩
        exact .inr (.inr ⟨f, rfl, .inl (hknown f hf)⟩)
      · obtain rfl := List.mem_singleton.1 hportion
        exact .inl ⟨_, _, rfl, htoken⟩
    | greedy _ hgreedy hknown =>
      rcases List.mem_append.1 hportion with hportion | hportion
      · rcases List.mem_map.1 hportion with ⟨f, hf, rfl⟩
        exact .inr (.inr ⟨f, rfl, .inl (hknown f hf)⟩)
      · exact .inr (.inl ⟨_, hs, hgreedy, _, List.mem_singleton.1 hportion⟩)
    | flag =>
      obtain rfl := List.mem_singleton.1 hportion
      exact .inr (.inr ⟨_, rfl, .inr ⟨_, hs⟩⟩)
    | pass _ hknown =>
      rcases List.mem_map.1 hportion with ⟨f, hf, rfl⟩
      exact .inr (.inr ⟨f, rfl, .inl (hknown f hf)⟩)
  · rcases List.mem_map.1 hportion with ⟨f, hf, rfl⟩
    exact .inr (.inr ⟨f, rfl, .inl (h.known f hf)⟩)

/-- Words that do not end in a flag await nothing. -/
theorem not_awaits_of_plain {words : List String}
    (h : ∀ w ∈ words.getLast?, isFlagToken w = false) : ¬j.Awaits n words := by
  rintro ⟨steps, after, portions, f, portions', htrail, hportions, hvalue, rfl⟩
  have hplain : isFlagToken f.token = false := h f.token (by simp)
  have hportion : Portion.flag f ∈ Portion.ofTrail steps after := by simp [hportions]
  have hlooks : isFlagToken f.token = true := by
    rcases htrail.portion_cases hportion with ⟨m, token, heq, -⟩ | ⟨s, -, -, ws, heq⟩ |
      ⟨f', heq, hknown | ⟨m, hs⟩⟩
    · cases heq
    · cases heq
    · obtain rfl := Portion.flag.inj heq
      exact isFlagToken_of_lookup hknown.lookup
    · obtain rfl := Portion.flag.inj heq
      have hnamed := (htrail.follows.named_of_flag hs).2.1
      rcases (Option.any_eq_true _ _).1 hnamed with ⟨word, hword, -⟩
      simp [isFlagToken, hword]
  rw [hplain] at hlooks
  cases hlooks

end Judge

namespace CommandTree

variable {Source : Type} {t : CommandTree} {caps : Capabilities Source} {source : Source}
  {before after : List String} {token : String}

/-- A word that looks like a flag, and is none that the table knows, is read only as the value of
the flag in front of it. -/
theorem Resolution.awaits {root : Parameter} {g : Grammar} {settings : TreeSettings}
    (hg : g.Reachable root) (hseal : g.seal settings = .ok t)
    (hgreedy : ∀ u ∈ t.usages, ∀ p ∈ u.parameters, p.greedy = false)
    (hlooks : isFlagToken token = true) (hunknown : t.flags.lookup token = none)
    {u : NumberedUsage} {steps : List Step} {typed : List TypedFlag}
    (hres : t.Resolution caps source (before ++ token :: after) u steps typed) :
    (t.judge caps source).Awaits t.root before := by
  have hwords : Portion.allWords (Portion.ofTrail steps typed) = before ++ token :: after := by
    rw [Portion.allWords_ofTrail]
    exact hres.words.symm
  rcases exists_part_of_flatMap hwords with
    ⟨portions, portion, portions', front, back, hportions, hword, hbefore⟩
  have hportion : portion ∈ Portion.ofTrail steps typed := by simp [hportions]
  have hgreedyNode : ∀ s ∈ steps, s.node.isGreedy = false := by
    intro s hs
    rcases hres.mem_parameters hg hseal hs with ⟨v, hv, hmem⟩
    exact hgreedy v hv _ hmem
  rcases hres.trail.portion_cases hportion with ⟨m, w, rfl, hplain⟩ | ⟨s, hs, hnode, -⟩ |
    ⟨f, rfl, hknown⟩
  · -- A word that a node takes is no flag.
    have hsame : [w] = front ++ token :: back := hword
    obtain ⟨-, rfl, -⟩ : front = [] ∧ token = w ∧ back = [] := by
      simpa [List.append_eq_singleton_iff, eq_comm] using hsame
    rw [hplain] at hlooks
    cases hlooks
  · rw [hgreedyNode s hs] at hnode
    cases hnode
  · have hflagWords : f.token :: f.bound.value.toList = front ++ token :: back := hword
    cases front with
    | nil =>
      -- The word would name a flag, which the table then knows by that name.
      obtain ⟨rfl, -⟩ := List.cons.inj hflagWords
      rcases hknown with hknown | ⟨m, hs⟩
      · have hlookup : t.flags.lookup f.token = some f.bound.flag := hknown.lookup
        rw [hunknown] at hlookup
        cases hlookup
      · have hnamed := (hres.trail.follows.named_of_flag hs).2.1
        rcases FlagTable.exists_firstNamed? (hres.mem_declared hg hseal hs) hnamed with ⟨q, hq⟩
        rw [lookup_eq_firstNamed? hg hseal, hq] at hunknown
        cases hunknown
    | cons w front =>
      obtain ⟨rfl, hvalue⟩ := List.cons.inj hflagWords
      cases hbound : f.bound.value with
      | none => simp [hbound] at hvalue
      | some value =>
        obtain ⟨rfl, -⟩ : front = [] ∧ _ := by
          simpa [hbound, List.append_eq_singleton_iff, eq_comm] using hvalue
        exact ⟨steps, typed, portions, f, portions', hres.trail, hportions, by simp [hbound],
          hbefore⟩

/-- A word that is no known flag leads a walk from the root nowhere, unless some flag may wait for
it as its value. -/
theorem exists_descend_eq_error {root : Parameter} {g : Grammar} {settings : TreeSettings}
    (hg : g.Reachable root) (hseal : g.seal settings = .ok t)
    (hgreedy : ∀ u ∈ t.usages, ∀ p ∈ u.parameters, p.greedy = false)
    (hpermits : ∀ gate, caps.permits source gate = true) (hlooks : isFlagToken token = true)
    (hunknown : t.flags.lookup token = none)
    (hposition : ¬(t.judge caps source).Awaits t.root before)
    (hcomplete : (t.dispatch caps source (before ++ after)).status = .complete) :
    ∃ m, (t.judge caps source).descend (.root t.root) (before ++ token :: after) = .error m ∧
      t.dispatch caps source (before ++ token :: after) = .ofWalk (.error m) := by
  have hjudge : ∀ gate, (t.judge caps source).permits gate = true := hpermits
  -- The first word is not refused, as it is not without the flag.
  have hfirst : t.refusesFirst (t.judge caps source) (before ++ token :: after) = false := by
    cases before with
    | nil => simp [refusesFirst, hlooks]
    | cons w before =>
      rcases dispatch_complete hcomplete with ⟨u, steps, typed, hres⟩
      have hsame := refusesFirst_of_trail hres.trail
      rw [← hres.words] at hsame
      exact hsame
  have hdispatch := dispatch_eq_ofWalk (hpermits t.root.permission) hfirst
  cases hdescend : (t.judge caps source).descend (.root t.root) (before ++ token :: after) with
  | error m => exact ⟨m, rfl, by rw [hdispatch, hdescend]⟩
  | ok hit =>
    exfalso
    have hstatus : (t.dispatch caps source (before ++ token :: after)).status = .complete := by
      rw [hdispatch, hdescend]
      rcases Judge.descend_sound hdescend with hdenied | ⟨u, steps, typed, hfound⟩
      · cases hdenied with
        | node hdenied | usage _ hdenied =>
          rw [hjudge] at hdenied
          cases hdenied
      · rw [hfound.hit]
        rfl
    rcases dispatch_complete hstatus with ⟨u, steps, typed, hres⟩
    exact hposition (hres.awaits hg hseal hgreedy hlooks hunknown)

/-- **Unknown flags.** Where an input without greedy parameters resolves, a word that looks like a
flag and is none that the table knows makes it a failure or unknown, wherever no flag waits for its
value. It is a failure exactly if some least deep way astray has failed: always if nothing but known
flags is typed before the word, and never if the first word is no flag and some child of the root
does not take it. -/
theorem status_of_unknownFlag {root : Parameter} {g : Grammar} {settings : TreeSettings}
    (hg : g.Reachable root) (hseal : g.seal settings = .ok t)
    (hgreedy : ∀ u ∈ t.usages, ∀ p ∈ u.parameters, p.greedy = false)
    (hpermits : ∀ gate, caps.permits source gate = true) (hlooks : isFlagToken token = true)
    (hunknown : t.flags.lookup token = none)
    (hposition : ¬(t.judge caps source).Awaits t.root before)
    (hcomplete : (t.dispatch caps source (before ++ after)).status = .complete) :
    ((t.dispatch caps source (before ++ token :: after)).status = .failure ∨
      (t.dispatch caps source (before ++ token :: after)).status = .unknown) ∧
    ((t.dispatch caps source (before ++ token :: after)).status = .failure ↔
      ∃ way, (t.judge caps source).Way (.root t.root) (before ++ token :: after) way ∧
        way.failed = true ∧
        ∀ other, (t.judge caps source).Way (.root t.root) (before ++ token :: after) other →
          way.last.depth ≤ other.last.depth) ∧
    ((∃ flags, (t.judge caps source).takeFlags false before = some (flags, [])) →
      (t.dispatch caps source (before ++ token :: after)).status = .failure) ∧
    ((∃ w ∈ before.head?, isFlagToken w = false ∧
        ∃ c ∈ t.root.children, (t.judge caps source).accepts c.parameter w = false) →
      (t.dispatch caps source (before ++ token :: after)).status = .unknown) := by
  rcases exists_descend_eq_error hg hseal hgreedy hpermits hlooks hunknown hposition hcomplete with
    ⟨m, hdescend, hdispatch⟩
  have hmerges := Judge.descend_merges hdescend
  -- The walk goes astray, and the mark on its miss tells which of the two statuses it is.
  have hfailure : (t.dispatch caps source (before ++ token :: after)).status = .failure ↔
      m.failed = true := by
    rw [hdispatch]
    cases hm : m.failed <;> simp [Search.ofWalk, hm]
  have hunknownStatus : (t.dispatch caps source (before ++ token :: after)).status = .unknown ↔
      m.failed = false := by
    rw [hdispatch]
    cases hm : m.failed <;> simp [Search.ofWalk, hm]
  refine ⟨?_, ?_, ?_, ?_⟩
  · rw [hfailure, hunknownStatus]
    cases m.failed <;> simp
  · rw [hfailure]
    exact hmerges.failed_iff_least
  · rintro ⟨flags, hbefore⟩
    rw [hfailure]
    exact Judge.failed_of_malformed
      (Judge.takeFlags_of_unknown_behind hbefore hlooks hunknown) hdescend
  · rintro ⟨w, hw, hplain, c, hc, hrefuses⟩
    obtain ⟨rest, rfl⟩ : ∃ rest, before = w :: rest := List.head?_eq_some_iff.1 hw
    rw [hunknownStatus]
    exact Judge.failed_of_refused hplain hc hrefuses hdescend

/-- Two usages of one word each. -/
def wordUsages : List Usage :=
  [⟨"a", [.literal "list" []], none, none, false⟩, ⟨"b", [.literal "give" []], none, none, false⟩]

/-- The flag comes after a word that one of two literals takes. -/
theorem status_of_unknownFlag_list :
    ∃ t before token, before = ["list"] ∧ token = "-x" ∧ ofUsages "cmd" wordUsages = .ok t ∧
      (∀ u ∈ t.usages, ∀ p ∈ u.parameters, p.greedy = false) ∧ isFlagToken token = true ∧
      t.flags.lookup token = none ∧ ¬(t.judge .builtin ()).Awaits t.root before ∧
      (t.dispatch .builtin () before).status = .complete ∧
      ((t.dispatch .builtin () (before ++ [token])).status = .failure ↔
        ∃ way, (t.judge .builtin ()).Way (.root t.root) (before ++ [token]) way ∧
          way.failed = true ∧
          ∀ other, (t.judge .builtin ()).Way (.root t.root) (before ++ [token]) other →
            way.last.depth ≤ other.last.depth) := by
  obtain ⟨t, ht⟩ : ∃ t, ofUsages "cmd" wordUsages = .ok t := ⟨_, rfl⟩
  rcases bind_eq_ok_iff.1 ht with ⟨g, hg, hseal⟩
  have hgreedy : ∀ u ∈ t.usages, ∀ p ∈ u.parameters, p.greedy = false := by
    cases ht
    decide
  have hpermits : ∀ gate, Capabilities.builtin.permits () gate = true := by
    intro gate
    cases gate <;> rfl
  have hlooks : isFlagToken "-x" = true := by decide
  have hunknown : t.flags.lookup "-x" = none := by
    cases ht
    rfl
  have hposition : ¬(t.judge .builtin ()).Awaits t.root ["list"] :=
    Judge.not_awaits_of_plain (by decide)
  have hcomplete : (t.dispatch .builtin () (["list"] ++ [])).status = .complete := by
    cases ht
    rfl
  exact ⟨t, _, _, rfl, rfl, ht, hgreedy, hlooks, hunknown, hposition, hcomplete,
    (status_of_unknownFlag (.insertAll .new hg) hseal hgreedy hpermits hlooks hunknown hposition
      hcomplete).2.1⟩

/-- A word that is no known flag is reported as unknown words behind one of two literals, and as a
failure in front of it. -/
theorem unknownFlag_unknown :
    ∃ t, ofUsages "cmd" wordUsages = .ok t ∧
      (∀ u ∈ t.usages, ∀ p ∈ u.parameters, p.greedy = false) ∧ isFlagToken "-x" = true ∧
      t.flags.lookup "-x" = none ∧ (t.dispatch .builtin () ["list"]).status = .complete ∧
      (t.dispatch .builtin () ["list", "-x"]).status = .unknown ∧
      (t.dispatch .builtin () ["-x", "list"]).status = .failure :=
  ⟨_, rfl, by decide, by decide, rfl, rfl, rfl, rfl⟩

end CommandTree

end CommandLanguage

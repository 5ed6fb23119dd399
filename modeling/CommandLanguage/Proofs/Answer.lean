import CommandLanguage.Proofs.Walk

/-!
# Answers and trails

A walk is sound for trails and complete for them:

* `Judge.descend_sound`: what a walk finds is denied to the source, or it is the end of a trail to a
  usage;
* `Judge.descend_complete`: where a trail ends in a usage, a walk finds something.

`CommandTree.dispatch_complete` carries the first over to the answer for a whole input.
-/

namespace CommandLanguage

namespace Judge

variable {j : Judge}

/-! ## Single steps -/

theorem bindFlag_eq_some {flag : Parameter} {rest : List String} {bound : BoundFlag}
    {left : List String} (h : j.bindFlag flag rest = some (bound, left)) :
    bound.flag = flag ∧ j.Binds bound ∧ rest = bound.value.toList ++ left := by
  unfold bindFlag at h
  split at h
  · rename_i hinput
    obtain ⟨rfl, rfl⟩ := by simpa using h
    exact ⟨rfl, .switch hinput, rfl⟩
  · cases h
  · rename_i type value rest hinput
    split at h
    · rename_i hfits
      obtain ⟨rfl, rfl⟩ := by simpa using h
      exact ⟨rfl, .value hinput hfits, rfl⟩
    · cases h

theorem bindFlag_of_binds {bound : BoundFlag} (h : j.Binds bound) (left : List String) :
    j.bindFlag bound.flag (bound.value.toList ++ left) = some (bound, left) := by
  cases h with
  | switch hinput => simp [bindFlag, hinput]
  | value hinput hfits => simp [bindFlag, hinput, hfits]

/-- A node that takes a word after its flags makes a step. -/
theorem step_of_consume {node : Node} {tokens : List String} {taken : List BoundFlag}
    {token : String} {rest : List String} {bindings : List Binding} {flags : List BoundFlag}
    {left : List String} (hflags : j.flagsBefore node tokens = some (taken, token :: rest))
    (haccepts : j.accepts node.parameter token = true)
    (hpermits : j.permits node.permission = true)
    (hconsume : j.consume node taken token rest = some (bindings, flags, left)) :
    ∃ s : Step, s.node = node ∧ s.passes = false ∧ j.Allows s left ∧ tokens = s.words ++ left ∧
      bindings = s.binding?.toList ∧ flags = s.kept := by
  unfold consume at hconsume
  unfold flagsBefore at hflags
  cases hflag : node.isFlag with
  | true =>
    -- A flag node takes the word itself, with no flags before it.
    simp only [hflag, if_true] at hconsume hflags
    obtain ⟨rfl, rfl⟩ : [] = taken ∧ tokens = token :: rest := by simpa using hflags
    rcases Option.map_eq_some_iff.1 hconsume with ⟨⟨bound, left'⟩, hbind, heq⟩
    obtain ⟨rfl, rfl, rfl⟩ : [] = bindings ∧ [bound] = flags ∧ left' = left := by simpa using heq
    rcases bindFlag_eq_some hbind with ⟨hbound, hbinds, rfl⟩
    refine ⟨.flag node ⟨token, bound⟩, rfl, rfl, ?_, rfl, rfl, rfl⟩
    exact .flag hflag haccepts hpermits hbound hbinds
  | false =>
    simp only [hflag, Bool.false_eq_true, if_false] at hconsume hflags
    rcases takeFlags_sound hflags with ⟨before, hknown, hstops, rfl, rfl⟩
    -- Where taking flags stops depends on whether the node is greedy.
    cases hgreedy : node.isGreedy with
    | true =>
      rw [hgreedy] at hstops
      obtain ⟨rfl, rfl, rfl⟩ :
          [⟨node, " ".intercalate (token :: rest)⟩] = bindings ∧ before.map (·.bound) = flags ∧
            [] = left := by
        simpa [hgreedy] using hconsume
      refine ⟨.take before node (token :: rest), rfl, rfl, ?_, by simp [Step.words], rfl, rfl⟩
      exact .greedy hflag hgreedy hknown hstops haccepts hpermits
    | false =>
      rw [hgreedy] at hstops
      obtain ⟨rfl, rfl, rfl⟩ :
          [⟨node, token⟩] = bindings ∧ before.map (·.bound) = flags ∧ rest = left := by
        simpa [hgreedy] using hconsume
      refine ⟨.take before node [token], rfl, rfl, ?_, by simp [Step.words], ?_, rfl⟩
      · have htoken : isFlagToken token = false := by simpa [StopsAt] using hstops
        exact .word hflag hgreedy hknown htoken haccepts hpermits
      · simp [Step.binding?]

/-- The converse of `step_of_consume`. -/
theorem consume_of_step {s : Step} {left : List String} (hs : j.Allows s left)
    (hpass : s.passes = false) :
    ∃ taken token rest bindings flags,
      j.flagsBefore s.node (s.words ++ left) = some (taken, token :: rest) ∧
        j.accepts s.node.parameter token = true ∧ j.permits s.node.permission = true ∧
        j.consume s.node taken token rest = some (bindings, flags, left) := by
  cases hs with
  | @word before node token _ hflag hgreedy hknown htoken haccepts hpermits =>
    refine ⟨before.map (·.bound), token, left, [⟨node, token⟩], before.map (·.bound), ?_,
      haccepts, hpermits, ?_⟩
    · have hstops : j.StopsAt false (token :: left) := by simp [StopsAt, htoken]
      simpa [flagsBefore, Step.node, Step.words, hflag, hgreedy] using
        takeFlags_complete hknown hstops
    · simp [consume, Step.node, hflag, hgreedy]
  | @greedy before node token more hflag hgreedy hknown hstops haccepts hpermits =>
    refine ⟨before.map (·.bound), token, more, [⟨node, " ".intercalate (token :: more)⟩],
      before.map (·.bound), ?_, haccepts, hpermits, ?_⟩
    · simpa [flagsBefore, Step.node, Step.words, hflag, hgreedy] using
        takeFlags_complete hknown hstops
    · simp [consume, Step.node, hflag, hgreedy]
  | @flag node typed _ hflag haccepts hpermits hbound hbinds =>
    refine ⟨[], typed.token, typed.bound.value.toList ++ left, [], [typed.bound], ?_,
      haccepts, hpermits, ?_⟩
    · simp [flagsBefore, Step.node, Step.words, TypedFlag.words, hflag]
    · simp [consume, Step.node, hflag, ← hbound, bindFlag_of_binds hbinds]
  | pass => cases hpass

/-! ## Soundness -/

/-- Whether a hit is about something that the source may not use: its last node, or the usage that
this node resolves to. -/
inductive Denied (j : Judge) (hit : Hit) : Prop where
  | node : j.permits hit.last.node.permission = false →
      hit.ending = .paused hit.last.nearestUsage → Denied j hit
  | usage {u : NumberedUsage} : hit.last.node.resolved? = some u →
      j.permits u.usage.permission = false → hit.ending = .paused (some u) → Denied j hit

theorem Denied.after {hit : Hit} (h : j.Denied hit) (bindings : List Binding)
    (flags : List BoundFlag) : j.Denied (hit.after bindings flags) := by
  cases h with
  | node hpermits hending => exact .node hpermits hending
  | usage hresolved hpermits hending => exact .usage hresolved hpermits hending

/-- Whether a hit below a place is the end of a trail to a usage that the source may use. -/
structure Found (j : Judge) (p : Place) (tokens : List String) (hit : Hit) (u : NumberedUsage)
    (steps : List Step) (after : List TypedFlag) : Prop where
  trail : j.Trail p.node steps after
  words : tokens = trailWords steps after
  hit : hit = Hit.ofSteps p steps after (.complete u)
  resolved : (p.along steps).node.resolved? = some u
  permitted : j.permits u.usage.permission = true

/-- A step before what is found below its node. -/
theorem Found.cons {p : Place} {s : Step} {left : List String} {hit : Hit} {u : NumberedUsage}
    {steps : List Step} {after : List TypedFlag} (hmem : s.node ∈ p.node.children)
    (hallows : j.Allows s left) (harrives : s.passes = false ∨ steps ≠ [])
    (h : j.Found (p.child s.node) left hit u steps after) :
    j.Found p (s.words ++ left) (hit.after s.binding?.toList s.kept) u (s :: steps) after := by
  rcases h with ⟨htrail, rfl, rfl, hresolved, hpermitted⟩
  refine ⟨.cons hmem hallows harrives htrail, ?_, ?_, hresolved, hpermitted⟩
  · simp
  · rw [Hit.ofSteps_cons]

/-- The end of a path at a place with only flags left. -/
theorem found_of_finish {p : Place} {tokens : List String} {flags : List BoundFlag} {own : Hit}
    (htake : j.takeFlags false tokens = some (flags, [])) (hfinish : j.finish? p = some own) :
    j.Denied (own.after [] flags) ∨
      ∃ u after, j.Found p tokens (own.after [] flags) u [] after := by
  rcases Option.map_eq_some_iff.1 hfinish with ⟨u, hresolved, rfl⟩
  cases hpermits : j.permits u.usage.permission with
  | false => exact .inl (.usage hresolved hpermits rfl)
  | true =>
    rcases takeFlags_sound htake with ⟨after, hknown, -, rfl, rfl⟩
    refine .inr ⟨u, after, .nil hknown, by simp, ?_, hresolved, hpermits⟩
    simp [Hit.ofSteps, Hit.after, Place.along]

/-- What a walk finds at or below a place is denied, or it is the end of a trail, if that is so of what
it finds among the children. -/
theorem found_of_descend {p : Place} {tokens : List String} {hit : Hit}
    (hchildren : ∀ hit, j.explore p p.node.children tokens = .ok hit →
      j.Denied hit ∨ ∃ u steps after, steps ≠ [] ∧ j.Found p tokens hit u steps after)
    (h : j.descend p tokens = .ok hit) :
    j.Denied hit ∨ ∃ u steps after, j.Found p tokens hit u steps after := by
  rcases descend_eq_ok h with hexplore | ⟨flags, own, htake, hfinish, rfl⟩
  · rcases hchildren hit hexplore with hdenied | ⟨u, steps, after, -, hfound⟩
    · exact .inl hdenied
    · exact .inr ⟨u, steps, after, hfound⟩
  · rcases found_of_finish htake hfinish with hdenied | ⟨u, after, hfound⟩
    · exact .inl hdenied
    · exact .inr ⟨u, [], after, hfound⟩

/-- What a walk finds among the children of a place is denied, or it is the end of a trail. -/
theorem explore_sound {n : Node} {above : List Node} {tokens : List String} {hit : Hit}
    (h : j.explore ⟨n, above⟩ n.children tokens = .ok hit) :
    j.Denied hit ∨ ∃ u steps after, steps ≠ [] ∧ j.Found ⟨n, above⟩ tokens hit u steps after := by
  induction n using Node.induction generalizing above tokens hit with
  | step n ih =>
    rcases explore_eq_ok h with ⟨c, hmem, hvisit⟩
    rcases visit_eq_ok hvisit with ⟨taken, token, rest, hflags, henter | ⟨hskip, hexplore⟩⟩
    · obtain ⟨haccepts, ⟨hpermits, rfl⟩ |
        ⟨hpermits, bindings, flags, left, below, hconsume, hbelow, rfl⟩⟩ := enter_eq_ok henter
      · exact .inl (.node hpermits rfl)
      · obtain ⟨s, rfl, hpass, hallows, rfl, rfl, rfl⟩ :=
          step_of_consume hflags haccepts hpermits hconsume
        rcases found_of_descend (fun _ hexplore => ih s.node hmem hexplore) hbelow with
          hdenied | ⟨u, steps, after, hfound⟩
        · exact .inl (hdenied.after _ _)
        · exact .inr ⟨u, s :: steps, after, by simp, hfound.cons hmem hallows (.inl hpass)⟩
    · rcases ih c hmem hexplore with hdenied | ⟨u, steps, after, hsteps, hfound⟩
      · exact .inl hdenied
      · right
        -- The flags before a node that is passed over are read but not kept.
        have hflag : c.isFlag = false := by
          simp only [Node.isSkippable, Bool.and_eq_true, Bool.not_eq_true'] at hskip
          exact hskip.2
        simp only [flagsBefore, hflag, Bool.false_eq_true, if_false] at hflags
        rcases takeFlags_sound hflags with ⟨before, hknown, hstops, rfl, rfl⟩
        have hcons := Found.cons (s := .pass before c) hmem (.pass hskip hknown hstops)
          (.inr hsteps) hfound
        exact ⟨u, .pass before c :: steps, after, by simp, hcons⟩

/-- **Soundness of walks.** What a walk finds below a place is denied, or it is the end of a trail.
-/
theorem descend_sound {p : Place} {tokens : List String} {hit : Hit}
    (h : j.descend p tokens = .ok hit) :
    j.Denied hit ∨ ∃ u steps after, j.Found p tokens hit u steps after :=
  found_of_descend (fun _ hexplore => explore_sound hexplore) h

/-! ## Completeness -/

/-- Where a trail of some steps ends in a usage, something is found among the children. -/
theorem explore_complete {p : Place} {steps : List Step} {after : List TypedFlag}
    (hne : steps ≠ []) (htrail : j.Trail p.node steps after)
    (hends : (p.along steps).node.resolved?.isSome = true) :
    ∃ hit, j.explore p p.node.children (trailWords steps after) = .ok hit := by
  induction steps generalizing p with
  | nil => exact absurd rfl hne
  | cons s steps ih =>
    rcases htrail.tail with ⟨hmem, hallows, harrives, hrest⟩
    refine exists_explore_eq_ok hmem ?_
    rw [trailWords_cons]
    cases hpass : s.passes with
    | false =>
      -- The step takes words, and the search enters its node.
      obtain ⟨taken, token, rest, bindings, flags, hflags, haccepts, hpermits, hconsume⟩ :=
        consume_of_step hallows hpass
      refine exists_visit_of_enter hflags (exists_enter_eq_ok haccepts hpermits hconsume ?_)
      by_cases hsteps : steps = []
      · subst hsteps
        have hstops : j.StopsAt false [] := stopsAt_nil
        have htake := takeFlags_complete hrest.known hstops
        rw [List.append_nil] at htake
        exact exists_descend_of_finish htake (by simpa [finish?, Place.along] using hends)
      · exact exists_descend_of_explore (ih (p := p.child s.node) hsteps hrest hends)
    | true =>
      -- The step passes its node over, and the search goes on below with the same words.
      have hsteps : steps ≠ [] := by
        rcases harrives with harrives | hsteps
        · simp [hpass] at harrives
        · exact hsteps
      generalize hleft : trailWords steps after = left at hallows ⊢
      cases hallows with
      | word | greedy | flag => cases hpass
      | @pass before node token rest hskip hknown hstops =>
        have hflag : node.isFlag = false := by
          simp only [Node.isSkippable, Bool.and_eq_true, Bool.not_eq_true'] at hskip
          exact hskip.2
        have hflags : j.flagsBefore node (TypedFlag.allWords before ++ token :: rest) =
            some (before.map (·.bound), token :: rest) := by
          simpa [flagsBefore, hflag] using takeFlags_complete hknown hstops
        refine exists_visit_of_explore hflags hskip ?_
        rw [← hleft]
        exact ih (p := p.child node) hsteps hrest hends

/-- **Completeness of walks.** Where a trail below a place ends in a usage, a walk finds something.
-/
theorem descend_complete {p : Place} {steps : List Step} {after : List TypedFlag}
    (htrail : j.Trail p.node steps after)
    (hends : (p.along steps).node.resolved?.isSome = true) :
    ∃ hit, j.descend p (trailWords steps after) = .ok hit := by
  by_cases hsteps : steps = []
  · subst hsteps
    have hstops : j.StopsAt false [] := stopsAt_nil
    have htake := takeFlags_complete htrail.known hstops
    rw [List.append_nil] at htake
    exact exists_descend_of_finish htake (by simpa [finish?, Place.along] using hends)
  · exact exists_descend_of_explore (explore_complete hsteps htrail hends)

end Judge

/-! ## The answer to an input -/

namespace CommandTree

/-- The tree of a command with usages. -/
def ofUsages (command : String) (usages : List Usage) : Except GrammarError CommandTree := do
  let g ← (Grammar.new (.literal command [])).insertAll usages
  g.seal .default

variable {Source : Type} {t : CommandTree} {caps : Capabilities Source} {source : Source}
  {tokens : List String}

/-- Whether an input resolves to a usage along a trail, and what its answer then holds. -/
structure Resolution (t : CommandTree) (caps : Capabilities Source) (source : Source)
    (tokens : List String) (u : NumberedUsage) (steps : List Step) (after : List TypedFlag) :
    Prop where
  trail : (t.judge caps source).Trail t.root steps after
  words : tokens = Judge.trailWords steps after
  usage : (t.dispatch caps source tokens).usage = some u
  last : (t.dispatch caps source tokens).last = (Place.root t.root).along steps
  bindings : (t.dispatch caps source tokens).bindings = Step.bindings steps
  flags : (t.dispatch caps source tokens).flags =
    steps.flatMap Step.kept ++ after.map (·.bound)
  resolved : ((Place.root t.root).along steps).node.resolved? = some u
  permitted : caps.permits source u.usage.permission = true

/-- What an answer comes down to: the source may not use the root, or the answer is what some walk
from the root gives. -/
theorem dispatch_cases (t : CommandTree) (caps : Capabilities Source) (source : Source)
    (tokens : List String) :
    (caps.permits source t.root.permission = false ∧
      t.dispatch caps source tokens =
        ⟨.pause, .root t.root, none, t.root.terminal <|> t.root.fallback, [], []⟩) ∨
      (caps.permits source t.root.permission = true ∧
        ((∃ miss, t.dispatch caps source tokens = .ofWalk (.error miss)) ∨
          ∃ hit, (t.judge caps source).descend (.root t.root) tokens = .ok hit ∧
            t.dispatch caps source tokens = .ofWalk (.ok hit))) := by
  have hjudge : (t.judge caps source).permits = caps.permits source := rfl
  simp only [dispatch, hjudge]
  cases hroot : caps.permits source t.root.permission with
  | false => exact .inl ⟨rfl, by simp⟩
  | true =>
    refine .inr ⟨rfl, ?_⟩
    cases hfirst : t.refusesFirst (t.judge caps source) tokens with
    | true => exact .inl ⟨_, by simp; rfl⟩
    | false =>
      cases hdescend : (t.judge caps source).descend (.root t.root) tokens with
      | error miss => exact .inl ⟨miss, by simp [walk, hdescend]⟩
      | ok hit => exact .inr ⟨hit, rfl, by simp [walk, hdescend]⟩

/-- Where the source may use the root and the first word is not refused, the answer is what a walk from
the root gives. -/
theorem dispatch_eq_ofWalk (hroot : caps.permits source t.root.permission = true)
    (hfirst : t.refusesFirst (t.judge caps source) tokens = false) :
    t.dispatch caps source tokens =
      .ofWalk ((t.judge caps source).descend (.root t.root) tokens) := by
  have hjudge : (t.judge caps source).permits t.root.permission = true := hroot
  simp [dispatch, hjudge, hfirst, walk]

theorem status_ofWalk_of_paused {hit : Hit} {closest : Option NumberedUsage}
    (h : hit.ending = .paused closest) : (Search.ofWalk (.ok hit)).status = .pause := by
  rcases hit with ⟨last, ending, bindings, flags⟩
  cases h
  rfl

/-- An input that resolves does so along a trail. -/
theorem dispatch_complete (h : (t.dispatch caps source tokens).status = .complete) :
    ∃ u steps after, t.Resolution caps source tokens u steps after := by
  rcases dispatch_cases t caps source tokens with
    ⟨-, hdispatch⟩ | ⟨-, ⟨miss, hdispatch⟩ | ⟨hit, hdescend, hdispatch⟩⟩
  · rw [hdispatch] at h
    cases h
  · rw [hdispatch] at h
    rcases miss with ⟨last, failed⟩
    cases failed <;> cases h
  · rcases Judge.descend_sound hdescend with hdenied | ⟨u, steps, after, hfound⟩
    · rw [hdispatch] at h
      cases hdenied with
      | node _ hending | usage _ _ hending =>
        rw [status_ofWalk_of_paused hending] at h
        cases h
    · rcases hfound with ⟨htrail, hwords, rfl, hresolved, hpermitted⟩
      exact ⟨u, steps, after, htrail, hwords, by rw [hdispatch]; rfl, by rw [hdispatch]; rfl,
        by rw [hdispatch]; rfl, by rw [hdispatch]; rfl, hresolved, hpermitted⟩

/-- The first word of a trail is not refused: it is a flag, or some child of the root takes it or
can be passed over. -/
theorem refusesFirst_of_trail {j : Judge} {steps : List Step} {after : List TypedFlag}
    (h : j.Trail t.root steps after) : t.refusesFirst j (Judge.trailWords steps after) = false := by
  -- Flags at the front settle it by themselves.
  have hflags : ∀ (typed : List TypedFlag) (f : TypedFlag) (rest : List String),
      (∀ g ∈ f :: typed, j.Knows g) →
      t.refusesFirst j (TypedFlag.allWords (f :: typed) ++ rest) = false := by
    intro typed f rest hknown
    have hlooks := Judge.isFlagToken_of_lookup (hknown f List.mem_cons_self).lookup
    simp [refusesFirst, TypedFlag.words, hlooks]
  have htakes : ∀ (c : Node) (token : String) (rest : List String), c ∈ t.root.children →
      j.accepts c.parameter token = true → t.refusesFirst j (token :: rest) = false := by
    intro c token rest hmem haccepts
    rw [refusesFirst, Bool.and_eq_false_iff, List.all_eq_false]
    exact .inr ⟨c, hmem, by simp [haccepts]⟩
  have hbehind : ∀ (before : List TypedFlag) (c : Node) (token : String) (rest : List String),
      (∀ g ∈ before, j.Knows g) → c ∈ t.root.children → j.accepts c.parameter token = true →
        t.refusesFirst j (TypedFlag.allWords before ++ token :: rest) = false := by
    intro before c token rest hknown hmem haccepts
    cases before with
    | nil => exact htakes c token rest hmem haccepts
    | cons f before => exact hflags before f (token :: rest) hknown
  cases steps with
  | nil =>
    cases after with
    | nil => rfl
    | cons f after => simpa using hflags after f [] h.known
  | cons s steps =>
    rcases h.tail with ⟨hmem, hallows, -, -⟩
    rw [Judge.trailWords_cons]
    generalize Judge.trailWords steps after = left at hallows ⊢
    cases hallows with
    | @word before node token _ _ _ hknown _ haccepts
    | @greedy before node token _ _ _ hknown _ haccepts =>
      rw [Step.words, List.append_assoc]
      exact hbehind before node token _ hknown hmem haccepts
    | @flag node typed _ _ haccepts => exact htakes node typed.token _ hmem haccepts
    | @pass before node token rest hskip =>
      have hoptional : node.isOptional = true := by
        simp only [Node.isSkippable, Bool.and_eq_true] at hskip
        exact hskip.1
      unfold refusesFirst
      split
      · rfl
      · rw [Bool.and_eq_false_iff, List.all_eq_false]
        exact .inr ⟨node, hmem, by simp [hoptional]⟩

/-- **Completeness of answers.** Where a trail ends in a usage and the source may use everything,
the input resolves. -/
theorem dispatch_of_trail (hpermits : ∀ gate, caps.permits source gate = true) {steps : List Step}
    {after : List TypedFlag} (htrail : (t.judge caps source).Trail t.root steps after)
    (hends : ((Place.root t.root).along steps).node.resolved?.isSome = true) :
    (t.dispatch caps source (Judge.trailWords steps after)).status = .complete := by
  have hjudge : ∀ gate, (t.judge caps source).permits gate = true := hpermits
  rcases Judge.descend_complete (p := .root t.root) htrail hends with ⟨hit, hhit⟩
  have hdispatch : t.dispatch caps source (Judge.trailWords steps after) = .ofWalk (.ok hit) := by
    simp [dispatch, hjudge, refusesFirst_of_trail htrail, walk, hhit]
  rw [hdispatch]
  rcases Judge.descend_sound hhit with hdenied | ⟨u, steps', after', hfound⟩
  · cases hdenied with
    | node hdenied | usage _ hdenied =>
      rw [hjudge] at hdenied
      cases hdenied
  · rw [hfound.hit]
    rfl

end CommandTree

end CommandLanguage

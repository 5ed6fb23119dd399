import CommandLanguage.Proofs.Reordering

/-!
# Where walks go astray

A walk that finds nothing tells the least deep of the places where its paths went astray. This is no
place above the one that it started from (`Judge.depth_le_of_descend`), and at a fork it is the fork
itself: of two flags one does not fit the next word (`Node.Fork.descend_eq_error`). So flags in
another order lead astray at the same place (`Node.Woven.astray`).
-/

namespace CommandLanguage

@[simp] theorem Place.depth_child (p : Place) (n : Node) : (p.child n).depth = p.depth + 1 := by
  simp [depth, child]

namespace Judge

variable {j : Judge} {p : Place} {c : Node} {cs : List Node} {tokens tokens' rest : List String}
  {token : String} {m m' : Miss} {taken : List BoundFlag}

/-! ## Misses -/

/-- How a node that does not take the next word leads astray. -/
inductive Strays (j : Judge) (p : Place) (c : Node) (taken : List BoundFlag) (token : String)
    (rest : List String) : Miss → Prop where
  | refused : j.accepts c.parameter token = false → Strays j p c taken token rest ⟨p, false⟩
  | unbound : j.accepts c.parameter token = true → j.consume c taken token rest = none →
      Strays j p c taken token rest ⟨p, true⟩
  | arrived {bindings : List Binding} {flags : List BoundFlag} :
      j.accepts c.parameter token = true →
      j.consume c taken token rest = some (bindings, flags, []) →
      Strays j p c taken token rest ⟨if c.isSkippable then p else p.child c, false⟩
  | onward {bindings : List Binding} {flags : List BoundFlag} {left : List String} {m : Miss} :
      j.accepts c.parameter token = true →
      j.consume c taken token rest = some (bindings, flags, left) → left ≠ [] →
      j.descend (p.child c) left = .error m → Strays j p c taken token rest m

theorem enter_strays (h : j.enter p c taken token rest = .error m) :
    j.Strays p c taken token rest m := by
  unfold enter at h
  cases haccepts : j.accepts c.parameter token with
  | false =>
    obtain rfl : (⟨p, false⟩ : Miss) = m := by simpa [haccepts] using h
    exact .refused haccepts
  | true =>
    cases hpermits : j.permits c.permission with
    | false => simp [haccepts, hpermits] at h
    | true =>
      cases hconsume : j.consume c taken token rest with
      | none =>
        obtain rfl : (⟨p, true⟩ : Miss) = m := by simpa [haccepts, hpermits, hconsume] using h
        exact .unbound haccepts hconsume
      | some found =>
        rcases found with ⟨bindings, flags, left⟩
        simp only [haccepts, hpermits, hconsume, Bool.not_true, Bool.false_eq_true, if_false] at h
        cases left with
        | nil =>
          simp only [List.isEmpty_nil, if_true, arrive] at h
          split at h
          · cases h
          · obtain rfl := Except.error.inj h
            exact .arrived haccepts hconsume
        | cons next left =>
          simp only [List.isEmpty_cons, Bool.false_eq_true, if_false] at h
          cases hdown : j.descend (p.child c) (next :: left) with
          | ok hit =>
            rw [hdown] at h
            cases h
          | error miss =>
            rw [hdown] at h
            obtain rfl := Except.error.inj h
            exact .onward haccepts hconsume (by simp) hdown

/-- How a node leads astray: a flag before it is malformed, no word is left, or it does not take the
next one. -/
inductive VisitStrays (j : Judge) (p : Place) (c : Node) (tokens : List String) : Miss → Prop where
  | malformed : j.flagsBefore c tokens = none → VisitStrays j p c tokens ⟨p, true⟩
  | ended {taken : List BoundFlag} : j.flagsBefore c tokens = some (taken, []) →
      VisitStrays j p c tokens ⟨p, false⟩
  | entered {taken : List BoundFlag} {token : String} {rest : List String} {m : Miss} :
      j.flagsBefore c tokens = some (taken, token :: rest) → j.Strays p c taken token rest m →
      VisitStrays j p c tokens m

theorem visit_strays (h : j.visit p c tokens = .error m) : j.VisitStrays p c tokens m := by
  rw [visit_eq] at h
  split at h
  · rename_i hflags
    obtain rfl := Except.error.inj h
    exact .malformed hflags
  · rename_i hflags
    obtain rfl := Except.error.inj h
    exact .ended hflags
  · rename_i taken token rest hflags
    cases henter : j.enter p c taken token rest with
    | ok hit => simp [henter] at h
    | error miss =>
      -- A node that is passed over in vain leads astray as if it could not be.
      have hmiss : miss = m := by
        simp only [henter] at h
        split at h
        · cases hpass : j.explore (p.child c) c.children (token :: rest) with
          | ok hit => simp [hpass] at h
          | error astray => simpa [hpass] using h
        · exact Except.error.inj h
      exact .entered hflags (enter_strays (hmiss ▸ henter))

theorem explore_cons_eq_error {astray : Option Miss}
    (h : j.explore p (c :: cs) tokens = .error astray) :
    ∃ m others, j.visit p c tokens = .error m ∧ j.explore p cs tokens = .error others ∧
      astray = some (others.elim m m.merge) := by
  rw [explore] at h
  cases hvisit : j.visit p c tokens with
  | ok hit => simp [hvisit] at h
  | error m =>
    cases hrest : j.explore p cs tokens with
    | ok hit => simp [hvisit, hrest] at h
    | error others =>
      refine ⟨m, others, rfl, rfl, ?_⟩
      simpa [hvisit, hrest] using h.symm

/-- What holds of misses and is kept by merging holds of the miss of siblings. -/
theorem explore_error_induction {P : Miss → Prop} (hmerge : ∀ m k, P m → P k → P (m.merge k))
    (hvisit : ∀ c ∈ cs, ∀ m, j.visit p c tokens = .error m → P m)
    (h : j.explore p cs tokens = .error (some m)) : P m := by
  induction cs generalizing m with
  | nil => cases h
  | cons c cs ih =>
    rcases List.forall_mem_cons.1 hvisit with ⟨hc, hcs⟩
    rcases explore_cons_eq_error h with ⟨own, others, hown, hrest, heq⟩
    obtain rfl := Option.some.inj heq
    cases others with
    | none => exact hc own hown
    | some other => exact hmerge own other (hc own hown) (ih hcs hrest)

/-- Only where there is nothing to try is there no miss. -/
theorem eq_nil_of_explore (h : j.explore p cs tokens = .error none) : cs = [] := by
  cases cs with
  | nil => rfl
  | cons c cs =>
    rcases explore_cons_eq_error h with ⟨m, others, -, -, heq⟩
    cases heq

theorem exists_visit_eq_error {astray : Option Miss}
    (h : j.explore p cs tokens = .error astray) : ∀ c ∈ cs, ∃ m, j.visit p c tokens = .error m := by
  induction cs generalizing astray with
  | nil => simp
  | cons c cs ih =>
    rcases explore_cons_eq_error h with ⟨m, others, hvisit, hrest, -⟩
    exact List.forall_mem_cons.2 ⟨⟨m, hvisit⟩, ih hrest⟩

/-- A walk that finds nothing tells the miss of the children, failed too if a flag is malformed. -/
theorem descend_eq_error (h : j.descend p tokens = .error m) :
    ∃ astray, j.explore p p.node.children tokens = .error astray ∧
      m = ⟨(astray.getD ⟨p, false⟩).last,
        (astray.getD ⟨p, false⟩).failed || (j.takeFlags false tokens).isNone⟩ := by
  rw [descend] at h
  cases hexplore : j.explore p p.node.children tokens with
  | ok hit => simp [hexplore] at h
  | error astray =>
    refine ⟨astray, rfl, ?_⟩
    simp only [hexplore, close] at h
    split at h
    · rename_i htake
      split at h
      · cases h
      · simpa [htake] using (Except.error.inj h).symm
    · rename_i htake
      simpa [htake] using (Except.error.inj h).symm
    · rename_i htake
      simpa [htake] using (Except.error.inj h).symm

/-! ## How deep a miss is -/

/-- Of two misses the less deep one counts. -/
theorem depth_merge (m k : Miss) :
    (m.merge k).last.depth = min m.last.depth k.last.depth := by
  unfold Miss.merge
  split
  · rename_i heq
    rw [← heq, Int.min_self]
  · split
    · rename_i hlt
      rw [Int.min_eq_left (Int.le_of_lt hlt)]
    · rename_i hlt
      rw [Int.min_eq_right (Int.not_lt.1 hlt)]

/-- The miss of siblings is no deeper than that of any of them. -/
theorem depth_explore_le (h : j.explore p cs tokens = .error (some m)) :
    ∀ c ∈ cs, ∀ k, j.visit p c tokens = .error k → m.last.depth ≤ k.last.depth := by
  induction cs generalizing m with
  | nil => simp
  | cons c cs ih =>
    rcases explore_cons_eq_error h with ⟨own, others, hown, hrest, heq⟩
    obtain rfl := Option.some.inj heq
    refine List.forall_mem_cons.2 ⟨?_, ?_⟩
    · intro k hk
      obtain rfl : own = k := Except.error.inj (hown.symm.trans hk)
      cases others with
      | none => exact Int.le_refl _
      | some other =>
        rw [Option.elim_some, depth_merge]
        exact Int.min_le_left _ _
    · intro d hd k hk
      cases others with
      | none =>
        rw [eq_nil_of_explore hrest] at hd
        cases hd
      | some other =>
        rw [Option.elim_some, depth_merge]
        exact Int.le_trans (Int.min_le_right _ _) (ih hrest d hd k hk)

/-- No walk goes astray above the place that it started from. -/
theorem depth_le_of_descend (h : j.descend p tokens = .error m) : p.depth ≤ m.last.depth := by
  rcases p with ⟨n, above⟩
  induction n using Node.induction generalizing above tokens m with
  | step n ih =>
    have hvisit : ∀ c ∈ n.children, ∀ m, j.visit ⟨n, above⟩ c tokens = .error m →
        (⟨n, above⟩ : Place).depth ≤ m.last.depth := by
      intro c hc m hvisit
      cases visit_strays hvisit with
      | malformed | ended => exact Int.le_refl _
      | entered _ hstrays =>
        cases hstrays with
        | refused | unbound => exact Int.le_refl _
        | arrived =>
          dsimp only
          split
          · exact Int.le_refl _
          · rw [Place.depth_child]
            omega
        | onward _ _ _ hdown =>
          have hdeep : (Place.child ⟨n, above⟩ c).depth ≤ m.last.depth := ih c hc (n :: above) hdown
          rw [Place.depth_child] at hdeep
          omega
    rcases descend_eq_error h with ⟨astray, hexplore, rfl⟩
    cases astray with
    | none => exact Int.le_refl _
    | some m =>
      have hdeep := explore_error_induction
        (P := fun m => (⟨n, above⟩ : Place).depth ≤ m.last.depth)
        (fun m k hm hk => by rw [depth_merge]; exact Int.le_min.2 ⟨hm, hk⟩) hvisit hexplore
      exact hdeep

/-- Whether a miss is at a place, failed only if a flag is malformed there, or deeper. -/
inductive Near (p : Place) (malformed : Prop) : Miss → Prop where
  | here {failed : Bool} : (failed = true → malformed) → Near p malformed ⟨p, failed⟩
  | deeper {m : Miss} : p.depth < m.last.depth → Near p malformed m

theorem Near.merge {malformed : Prop} {m k : Miss} (hm : Near p malformed m)
    (hk : Near p malformed k) : Near p malformed (m.merge k) := by
  unfold Miss.merge
  cases hm with
  | @here failed hfailed =>
    cases hk with
    | @here failed' hfailed' =>
      rw [if_pos rfl]
      refine .here fun hor => ?_
      rcases Bool.or_eq_true_iff.1 hor with hor | hor
      · exact hfailed hor
      · exact hfailed' hor
    | deeper hdeep =>
      rw [if_neg (by dsimp only; omega), if_pos (by exact hdeep)]
      exact .here hfailed
  | deeper hdeep =>
    split
    · exact .deeper hdeep
    · split
      · exact .deeper hdeep
      · exact hk

theorem takeFlags_of_bindFlag {stop : Bool} {flag : Parameter}
    (hlookup : j.flags.lookup token = some flag) (hbind : j.bindFlag flag rest = none) :
    j.takeFlags stop (token :: rest) = none := by
  have hflag : isFlagToken token = true := isFlagToken_of_lookup hlookup
  unfold bindFlag at hbind
  split at hbind
  · cases hbind
  · rename_i hinput
    simp [takeFlags, hflag, hlookup, hinput]
  · rename_i hinput
    split at hbind
    · cases hbind
    · rename_i hfits
      simp [takeFlags, hflag, hlookup, hinput, hfits]

variable {flags : List Parameter}

/-- A node that nothing greedy is about goes astray at its parent or deeper, and fails at its parent
only where a flag is malformed. -/
theorem near_of_visit (hnames : j.NamesFlags flags)
    (hgreedy : c.isFlag = false → c.isGreedy = false)
    (hmem : c.isFlag = true → c.parameter ∈ flags) (h : j.visit p c tokens = .error m) :
    Near p (j.takeFlags false tokens = none) m := by
  cases visit_strays h with
  | malformed hflags =>
    cases hflag : c.isFlag with
    | true => simp [flagsBefore, hflag] at hflags
    | false =>
      refine .here fun _ => ?_
      simpa [flagsBefore, hflag, hgreedy hflag] using hflags
  | ended => exact .here (by simp)
  | @entered taken token rest m hflags hstrays =>
    cases hstrays with
    | refused => exact .here (by simp)
    | unbound haccepts hconsume =>
      cases hflag : c.isFlag with
      | false => simp [consume, hflag, hgreedy hflag] at hconsume
      | true =>
        obtain ⟨-, rfl⟩ : [] = taken ∧ tokens = token :: rest := by
          simpa [flagsBefore, hflag] using hflags
        have hlookup := (hnames token c.parameter).2
          ⟨hmem hflag, (accepts_flag_iff hflag).1 haccepts⟩
        refine .here fun _ => takeFlags_of_bindFlag hlookup ?_
        simpa [consume, hflag] using hconsume
    | arrived =>
      split
      · exact .here (by simp)
      · refine .deeper ?_
        rw [Place.depth_child]
        omega
    | onward _ _ _ hdown =>
      have hdeep := depth_le_of_descend hdown
      rw [Place.depth_child] at hdeep
      exact .deeper (by omega)

/-- A flag node that does not answer to the next word goes astray at its parent. -/
theorem last_of_visit (hflag : c.isFlag = true)
    (hrefuses : ∀ token ∈ tokens.head?, j.accepts c.parameter token = false)
    (h : j.visit p c tokens = .error m) : m.last = p := by
  cases visit_strays h with
  | malformed | ended => rfl
  | @entered taken token rest m hflags hstrays =>
    obtain ⟨-, rfl⟩ : [] = taken ∧ tokens = token :: rest := by
      simpa [flagsBefore, hflag] using hflags
    have hrefuses := hrefuses token rfl
    cases hstrays with
    | refused | unbound => rfl
    | arrived haccepts | onward haccepts =>
      rw [hrefuses] at haccepts
      cases haccepts

/-- The next word names one flag at most, so of two one does not answer to it. -/
theorem exists_not_answersTo (hnames : j.NamesFlags flags)
    (hpair : ∃ f ∈ flags, ∃ g ∈ flags, f ≠ g) (tokens : List String) :
    ∃ g ∈ flags, ∀ token ∈ tokens.head?, (flagAlias? token).any g.answersTo = false := by
  rcases hpair with ⟨f, hf, g, hg, hne⟩
  by_cases hall : ∀ token ∈ tokens.head?, (flagAlias? token).any f.answersTo = false
  · exact ⟨f, hf, hall⟩
  · refine ⟨g, hg, fun token htoken => ?_⟩
    rw [Bool.eq_false_iff]
    intro hanswers
    have hnot : (flagAlias? token).any f.answersTo = true := by
      by_contra hnot
      refine hall fun token' htoken' => ?_
      obtain rfl : token = token' := Option.mem_unique htoken htoken'
      exact Bool.eq_false_iff.2 hnot
    have hlookup := (hnames token f).2 ⟨hf, hnot⟩
    rw [(hnames token g).2 ⟨hg, hanswers⟩] at hlookup
    exact hne (Option.some.inj hlookup).symm

/-- Siblings all of which go astray at their parent or deeper, and one of them at the parent, go
astray there. -/
theorem explore_eq_error_here {malformed : Prop} {astray : Option Miss}
    (hnear : ∀ c ∈ cs, ∀ m, j.visit p c tokens = .error m → Near p malformed m)
    (hone : ∃ c ∈ cs, ∀ m, j.visit p c tokens = .error m → m.last = p)
    (h : j.explore p cs tokens = .error astray) :
    ∃ failed, astray = some ⟨p, failed⟩ ∧ (failed = true → malformed) := by
  rcases hone with ⟨c, hc, hlast⟩
  cases astray with
  | none =>
    rw [eq_nil_of_explore h] at hc
    cases hc
  | some m =>
    rcases exists_visit_eq_error h c hc with ⟨k, hk⟩
    have hle := depth_explore_le h c hc k hk
    rw [hlast k hk] at hle
    cases explore_error_induction (fun _ _ => Near.merge) hnear h with
    | here hfailed => exact ⟨_, rfl, hfailed⟩
    | deeper hdeep => omega

/-! ## Behind flags -/

/-- How a node that is no flag and not greedy leads astray in words that do not begin with a flag.
-/
inductive PlainStrays (j : Judge) (p : Place) (c : Node) : List String → Miss → Prop where
  | ended : PlainStrays j p c [] ⟨p, false⟩
  | refused {token : String} {rest : List String} : j.accepts c.parameter token = false →
      PlainStrays j p c (token :: rest) ⟨p, false⟩
  | arrived {token : String} : j.accepts c.parameter token = true →
      PlainStrays j p c [token] ⟨if c.isSkippable then p else p.child c, false⟩
  | onward {token : String} {rest : List String} {m : Miss} : j.accepts c.parameter token = true →
      rest ≠ [] → j.descend (p.child c) rest = .error m → PlainStrays j p c (token :: rest) m

variable {typed : List TypedFlag}

/-- Where a node leads astray does not depend on the flags before the next word. -/
theorem visit_strays_of_known (hflag : c.isFlag = false) (hgreedy : c.isGreedy = false)
    (hknown : ∀ f ∈ typed, j.Knows f) (hstops : j.StopsAt false rest)
    (h : j.visit p c (TypedFlag.allWords typed ++ rest) = .error m) : j.PlainStrays p c rest m := by
  have htake : j.flagsBefore c (TypedFlag.allWords typed ++ rest) =
      some (typed.map (·.bound), rest) := by
    rw [flagsBefore, hflag, hgreedy]
    exact takeFlags_complete hknown hstops
  cases visit_strays h with
  | malformed hflags => simp [htake] at hflags
  | ended hflags =>
    obtain ⟨-, rfl⟩ : typed.map (·.bound) = _ ∧ rest = [] := by simpa [htake] using hflags
    exact .ended
  | @entered taken token rest' m hflags hstrays =>
    obtain ⟨rfl, rfl⟩ : typed.map (·.bound) = taken ∧ rest = token :: rest' := by
      simpa [htake] using hflags
    have hconsumes : j.consume c (typed.map (·.bound)) token rest' =
        some ([⟨c, token⟩], typed.map (·.bound), rest') := by simp [consume, hflag, hgreedy]
    cases hstrays with
    | refused haccepts => exact .refused haccepts
    | unbound _ hconsume =>
      rw [hconsumes] at hconsume
      cases hconsume
    | arrived haccepts hconsume =>
      rw [hconsumes] at hconsume
      cases hconsume
      exact .arrived haccepts
    | onward haccepts hconsume hne hdown =>
      rw [hconsumes] at hconsume
      cases hconsume
      exact .onward haccepts hne hdown

theorem visit_eq_error_of_malformed (hflag : c.isFlag = false) (hgreedy : c.isGreedy = false)
    (htake : j.takeFlags false tokens = none) (h : j.visit p c tokens = .error m) :
    m = ⟨p, true⟩ := by
  have hnone : j.flagsBefore c tokens = none := by
    rw [flagsBefore, hflag, hgreedy]
    exact htake
  cases visit_strays h with
  | malformed => rfl
  | ended hflags | entered hflags =>
    rw [hnone] at hflags
    cases hflags

/-- A node leads astray at one place in front of words that lead astray at one place below it. -/
theorem PlainStrays.eq {left left' : List String}
    (h : j.PlainStrays p c (token :: left) m) (h' : j.PlainStrays p c (token :: left') m')
    (hends : left = [] ↔ left' = [])
    (hdown : ∀ m m', j.descend (p.child c) left = .error m →
      j.descend (p.child c) left' = .error m' → m = m') : m = m' := by
  cases h with
  | refused haccepts =>
    cases h' with
    | refused => rfl
    | arrived haccepts' | onward haccepts' =>
      rw [haccepts] at haccepts'
      cases haccepts'
  | arrived haccepts =>
    cases h' with
    | refused haccepts' =>
      rw [haccepts] at haccepts'
      cases haccepts'
    | arrived => rfl
    | onward _ hne _ => exact absurd (hends.1 rfl) hne
  | onward haccepts hne hmiss =>
    cases h' with
    | refused haccepts' =>
      rw [haccepts] at haccepts'
      cases haccepts'
    | arrived => exact absurd (hends.2 rfl) hne
    | onward _ _ hmiss' => exact hdown _ _ hmiss hmiss'

/-- Siblings each of which leads astray at one place in both words do so together. -/
theorem explore_eq_error_unique {astray astray' : Option Miss}
    (hvisit : ∀ c ∈ cs, ∀ m m', j.visit p c tokens = .error m → j.visit p c tokens' = .error m' →
      m = m')
    (h : j.explore p cs tokens = .error astray) (h' : j.explore p cs tokens' = .error astray') :
    astray = astray' := by
  induction cs generalizing astray astray' with
  | nil =>
    rw [explore] at h h'
    rw [← Except.error.inj h, ← Except.error.inj h']
  | cons c cs ih =>
    rcases List.forall_mem_cons.1 hvisit with ⟨hc, hcs⟩
    rcases explore_cons_eq_error h with ⟨m, others, hown, hrest, rfl⟩
    rcases explore_cons_eq_error h' with ⟨m', others', hown', hrest', rfl⟩
    rw [hc m m' hown hown', ih hcs hrest hrest']

variable {moved moved' : List TypedFlag} {fresh : Prop}

/-- Flags are malformed in both orders or in neither. -/
theorem Reordered.isNone_takeFlags (h : j.Reordered moved moved' fresh tokens tokens')
    (hexchanges : j.Exchanges moved moved') :
    (j.takeFlags false tokens).isNone = (j.takeFlags false tokens').isNone := by
  cases h with
  | malformed htake htake' => rw [htake, htake']
  | run hbefore hafter hstops _ =>
    rw [takeFlags_complete (hexchanges.known_append hbefore hafter) hstops,
      takeFlags_complete (hexchanges.symm.known_append hbefore hafter) hstops]
    rfl
  | word hbefore htoken _ =>
    rw [takeFlags_complete hbefore (stopsAt_word htoken _),
      takeFlags_complete hbefore (stopsAt_word htoken _)]
    rfl

theorem Reordered.ne_nil (h : j.Reordered moved moved' fresh tokens tokens')
    (hexchanges : j.Exchanges moved moved') : tokens ≠ [] ∧ tokens' ≠ [] := by
  cases h with
  | malformed htake htake' =>
    constructor <;>
    · rintro rfl
      simp [takeFlags] at htake htake'
  | run =>
    simp [TypedFlag.allWords_eq_nil, hexchanges.ne_nil, hexchanges.symm.ne_nil]
  | word => simp

end Judge

namespace Node

open Judge (Near)

variable {j : Judge} {front flags back : List Parameter} {distinct fresh : Prop} {cs : List Node}
  {end? : Option NumberedUsage} {n : Node} {above : List Node} {tokens tokens' : List String}
  {m m' : Miss}

/-- At a fork of two flags or more, words lead astray right there. -/
theorem Fork.descend_eq_error (hnames : j.NamesFlags flags) (hflags : ∀ f ∈ flags, f.isFlag = true)
    (hpair : ∃ f ∈ flags, ∃ g ∈ flags, f ≠ g) (h : Fork front flags back distinct cs end? n.bare)
    (hgreedy : ∀ c ∈ n.bare.children, c.isFlag = false → c.isGreedy = false)
    (herror : j.descend ⟨n, above⟩ tokens = .error m) :
    m = ⟨⟨n, above⟩, (j.takeFlags false tokens).isNone⟩ := by
  have hbare : ∀ c ∈ n.children, c.bare ∈ n.bare.children := fun c hc => by
    rw [children_bare]
    exact List.mem_map_of_mem hc
  have hnear : ∀ c ∈ n.children, ∀ m, j.visit ⟨n, above⟩ c tokens = .error m →
      Near ⟨n, above⟩ (j.takeFlags false tokens = none) m := by
    intro c hc m
    refine Judge.near_of_visit hnames ?_ ?_
    · intro hflag
      simpa using hgreedy _ (hbare c hc) (by simpa using hflag)
    · intro hflag
      simpa using h.flag _ (hbare c hc) (by simpa using hflag)
  -- One of two flags does not answer to the first word, so its node is not entered.
  have hone : ∃ c ∈ n.children, ∀ m, j.visit ⟨n, above⟩ c tokens = .error m →
      m.last = ⟨n, above⟩ := by
    rcases Judge.exists_not_answersTo hnames hpair tokens with ⟨g, hg, hrefuses⟩
    rcases h.covers g hg with ⟨c', hc', hparameter⟩
    rw [children_bare] at hc'
    rcases List.mem_map.1 hc' with ⟨c, hc, rfl⟩
    rw [parameter_bare] at hparameter
    have hcflag : c.isFlag = true := by
      rw [isFlag, hparameter]
      exact hflags g hg
    refine ⟨c, hc, fun m => Judge.last_of_visit hcflag fun token htoken => ?_⟩
    rw [Bool.eq_false_iff]
    intro haccepts
    have hanswers := (Judge.accepts_flag_iff hcflag).1 haccepts
    rw [hparameter, hrefuses token htoken] at hanswers
    cases hanswers
  rcases Judge.descend_eq_error herror with ⟨astray, hexplore, rfl⟩
  rcases Judge.explore_eq_error_here hnear hone hexplore with ⟨failed, rfl, hfailed⟩
  cases htake : j.takeFlags false tokens with
  | none => simp
  | some found =>
    have hnot : failed = false := by
      rw [Bool.eq_false_iff]
      intro htrue
      rw [hfailed htrue] at htake
      cases htake
    simp [hnot]

variable {moved moved' : List TypedFlag}

/-- **Flags in another order, astray.** Words in which flags stand in another order lead astray at
the same place. -/
theorem Woven.astray (hnames : j.NamesFlags flags) (hflags : ∀ f ∈ flags, f.isFlag = true)
    (hpair : ∃ f ∈ flags, ∃ g ∈ flags, f ≠ g) (hexchanges : j.Exchanges moved moved')
    (h : Woven front flags back distinct n.bare)
    (hwords : j.Reordered moved moved' fresh tokens tokens')
    (herror : j.descend ⟨n, above⟩ tokens = .error m)
    (herror' : j.descend ⟨n, above⟩ tokens' = .error m') : m = m' := by
  induction n using Node.induction generalizing above tokens tokens' m m' with
  | step n ih =>
    have hnone := hwords.isNone_takeFlags hexchanges
    cases h with
    | fork h hgreedy =>
      rw [h.descend_eq_error hnames hflags hpair hgreedy herror,
        h.descend_eq_error hnames hflags hpair hgreedy herror', hnone]
    | plain hplain hgreedy hbelow =>
      rw [children_bare] at hplain hgreedy hbelow
      -- A child that is no flag goes astray alike, here or, by induction, below.
      have hvisit : ∀ c ∈ n.children, ∀ m m', j.visit ⟨n, above⟩ c tokens = .error m →
          j.visit ⟨n, above⟩ c tokens' = .error m' → m = m' := by
        intro c hc m m' hvisit hvisit'
        have hcflag : c.isFlag = false := by simpa using hplain _ (List.mem_map_of_mem hc)
        have hcgreedy : c.isGreedy = false := by simpa using hgreedy _ (List.mem_map_of_mem hc)
        have hcwoven := hbelow _ (List.mem_map_of_mem hc)
        cases hwords with
        | malformed htake htake' =>
          rw [Judge.visit_eq_error_of_malformed hcflag hcgreedy htake hvisit,
            Judge.visit_eq_error_of_malformed hcflag hcgreedy htake' hvisit']
        | @run before after rest hbefore hafter hstops _ =>
          have hstrays := Judge.visit_strays_of_known hcflag hcgreedy
            (hexchanges.known_append hbefore hafter) hstops hvisit
          have hstrays' := Judge.visit_strays_of_known hcflag hcgreedy
            (hexchanges.symm.known_append hbefore hafter) hstops hvisit'
          cases rest with
          | nil =>
            cases hstrays
            cases hstrays'
            rfl
          | cons token left =>
            refine hstrays.eq hstrays' Iff.rfl fun m m' hm hm' => ?_
            exact Except.error.inj (hm.symm.trans hm')
        | @word before token left left' hbefore htoken hwords =>
          have hne := hwords.ne_nil hexchanges
          have hstrays := Judge.visit_strays_of_known hcflag hcgreedy hbefore
            (Judge.stopsAt_word htoken _) hvisit
          have hstrays' := Judge.visit_strays_of_known hcflag hcgreedy hbefore
            (Judge.stopsAt_word htoken _) hvisit'
          exact hstrays.eq hstrays' (by simp [hne.1, hne.2]) fun m m' hm hm' =>
            ih c hc hcwoven hwords hm hm'
      rcases Judge.descend_eq_error herror with ⟨astray, hexplore, rfl⟩
      rcases Judge.descend_eq_error herror' with ⟨astray', hexplore', rfl⟩
      rw [Judge.explore_eq_error_unique hvisit hexplore hexplore', hnone]

end Node

end CommandLanguage

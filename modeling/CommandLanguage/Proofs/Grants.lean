import CommandLanguage.Proofs.Gates

/-!
# More permissions

What a source that is granted more permissions gets. A walk stops at the first gate that it does not
pass, so one that was not stopped has passed every gate that it came to, on the ways that led
nowhere too. A judge who also lets pass whom this one stops therefore finds the same
(`Judge.descend_granting`), and an answer that is no refusal stays as it is when more is granted
(`CommandTree.dispatch_granting`).
-/

namespace CommandLanguage

/-! ## What stops a walk -/

/-- Whether what is found is something that the source may not use. -/
def Halts {ε : Type} (found : Except ε Hit) : Prop :=
  ∃ hit closest, found = .ok hit ∧ hit.ending = .paused closest

section Halts

variable {ε ε' : Type}

@[simp] theorem not_halts_error (e : ε) : ¬ Halts (.error e : Except ε Hit) := by
  rintro ⟨hit, closest, hfound, -⟩
  cases hfound

theorem halts_ok_iff {hit : Hit} :
    Halts (.ok hit : Except ε Hit) ↔ ∃ closest, hit.ending = .paused closest := by
  constructor
  · rintro ⟨_, closest, hfound, hending⟩
    obtain rfl := Except.ok.inj hfound
    exact ⟨closest, hending⟩
  · rintro ⟨closest, hending⟩
    exact ⟨hit, closest, rfl, hending⟩

/-- Something found at a gate is still found there when more has been bound before it. -/
theorem halts_map_after {bindings : List Binding} {flags : List BoundFlag}
    {found : Except ε Hit} : Halts (found.map (Hit.after bindings flags)) ↔ Halts found := by
  cases found with
  | error e =>
    have hmap : (Except.error e : Except ε Hit).map (Hit.after bindings flags) = .error e := rfl
    simp [hmap]
  | ok hit =>
    have hmap : (Except.ok hit : Except ε Hit).map (Hit.after bindings flags) =
        .ok (hit.after bindings flags) := rfl
    rw [hmap, halts_ok_iff, halts_ok_iff, Hit.ending_after]

theorem halts_mapError {f : ε → ε'} {found : Except ε Hit} :
    Halts (found.mapError f) ↔ Halts found := by
  cases found with
  | error e => simp
  | ok hit => rw [mapError_ok, halts_ok_iff, halts_ok_iff]

end Halts

/-! ## Walks with more permissions -/

namespace Judge

/-- A judge who lets pass whom `permits` says, and else asks what another asks. -/
def granting (j : Judge) (permits : Option String → Bool) : Judge :=
  { j with permits := permits }

/-- Whether a walk that goes on below a place finds the same when more is granted, unless it is
stopped there. -/
def Stays (j : Judge) (permits : Option String → Bool) (p : Place) : Prop :=
  ∀ tokens, ¬ Halts (j.explore p p.node.children tokens) →
    (j.granting permits).explore p p.node.children tokens = j.explore p p.node.children tokens

section Granting

variable {j : Judge} {permits : Option String → Bool}

theorem takeFlags_granting (stop : Bool) (tokens : List String) :
    (j.granting permits).takeFlags stop tokens = j.takeFlags stop tokens := by
  have hflags : (j.granting permits).flags = j.flags := rfl
  have hfits : (j.granting permits).fits = j.fits := rfl
  fun_induction takeFlags j stop tokens <;> simp_all [takeFlags]

theorem flagsBefore_granting (n : Node) (tokens : List String) :
    (j.granting permits).flagsBefore n tokens = j.flagsBefore n tokens := by
  rw [flagsBefore, flagsBefore, takeFlags_granting]

variable (hmore : ∀ gate, j.permits gate = true → permits gate = true)
include hmore

/-- A path that ends at a usage which the source may use ends there when more is granted. -/
theorem finish?_granting {p : Place}
    (h : ∀ hit, j.finish? p = some hit → ¬ Halts (.ok hit : Except Miss Hit)) :
    (j.granting permits).finish? p = j.finish? p := by
  unfold finish? at h ⊢
  cases hresolved : p.node.resolved? with
  | none => rfl
  | some u =>
    cases hpermits : j.permits u.usage.permission with
    | true => simp [granting, hpermits, hmore _ hpermits]
    | false =>
      exfalso
      refine h _ (by rw [hresolved]; rfl) (halts_ok_iff.2 ⟨some u, ?_⟩)
      simp [hpermits]

theorem close_granting {p : Place} {tokens : List String} {astray : Option Miss}
    (h : ¬ Halts (j.close p tokens astray)) :
    (j.granting permits).close p tokens astray = j.close p tokens astray := by
  unfold close at h ⊢
  rw [takeFlags_granting]
  split at h
  · rename_i flags _
    have hfinish : (j.granting permits).finish? p = j.finish? p := by
      refine finish?_granting hmore ?_
      intro hit hhit
      simp only [hhit] at h
      simpa only [halts_ok_iff, Hit.ending_after] using h
    simp only [hfinish]
  · rfl
  · rfl

theorem arrive_granting {parent here : Place} (h : ¬ Halts (j.arrive parent here)) :
    (j.granting permits).arrive parent here = j.arrive parent here := by
  have hfinish : (j.granting permits).finish? here = j.finish? here := by
    refine finish?_granting hmore ?_
    intro hit hhit
    simpa only [arrive, hhit] using h
  rw [arrive, arrive, hfinish]

theorem Stays.descend {p : Place} (hp : j.Stays permits p) {tokens : List String}
    (h : ¬ Halts (j.descend p tokens)) :
    (j.granting permits).descend p tokens = j.descend p tokens := by
  have hexplore := hp tokens
  unfold Judge.descend at h ⊢
  cases hfound : j.explore p p.node.children tokens with
  | ok hit =>
    rw [hfound] at h hexplore
    rw [hexplore (by simpa only [halts_ok_iff] using h)]
  | error astray =>
    rw [hfound] at h hexplore
    rw [hexplore (not_halts_error astray)]
    exact close_granting hmore h

/-- What follows a node that took a word is the same when more is granted. -/
theorem Stays.enter {parent : Place} {node : Node} (hbelow : j.Stays permits (parent.child node))
    {taken : List BoundFlag} {token : String} {rest : List String}
    (h : ¬ Halts (j.enter parent node taken token rest)) :
    (j.granting permits).enter parent node taken token rest =
      j.enter parent node taken token rest := by
  have haccepts : (j.granting permits).accepts = j.accepts := rfl
  have hconsume : (j.granting permits).consume = j.consume := rfl
  unfold Judge.enter at h ⊢
  rw [haccepts, hconsume]
  cases htakes : j.accepts node.parameter token with
  | false => simp
  | true =>
    cases hpermits : j.permits node.permission with
    | false =>
      -- The walk stops at this gate, although it is said not to.
      exfalso
      refine h ?_
      simp only [htakes, hpermits, Bool.not_true, Bool.false_eq_true, if_false, Bool.not_false, if_true]
      exact halts_ok_iff.2 ⟨_, rfl⟩
    | true =>
      have hpermits' : (j.granting permits).permits node.permission = true := hmore _ hpermits
      simp only [htakes, hpermits, hpermits', Bool.not_true, Bool.false_eq_true, if_false] at h ⊢
      cases hword : j.consume node taken token rest with
      | none => rfl
      | some found =>
        rcases found with ⟨bindings, flags, left⟩
        simp only [hword, halts_map_after] at h ⊢
        cases hleft : left.isEmpty with
        | true =>
          simp only [hleft, if_true] at h ⊢
          rw [arrive_granting hmore h]
        | false =>
          simp only [hleft, Bool.false_eq_true, if_false] at h ⊢
          rw [hbelow.descend hmore h]

/-- Trying a node finds the same when more is granted. -/
theorem Stays.visit {parent : Place} {node : Node} (hbelow : j.Stays permits (parent.child node))
    {tokens : List String} (h : ¬ Halts (j.visit parent node tokens)) :
    (j.granting permits).visit parent node tokens = j.visit parent node tokens := by
  rw [visit_eq] at h ⊢
  rw [visit_eq, flagsBefore_granting]
  split at h
  · rfl
  · rfl
  · rename_i taken token rest _
    have henter : ¬ Halts (j.enter parent node taken token rest) := by
      intro hhalts
      rcases hhalts with ⟨hit, closest, hhit, hending⟩
      simp only [hhit] at h
      exact h (halts_ok_iff.2 ⟨closest, hending⟩)
    simp only [hbelow.enter hmore henter]
    cases hown : j.enter parent node taken token rest with
    | ok hit => rfl
    | error miss =>
      simp only [hown] at h ⊢
      cases hskip : node.isSkippable with
      | false => simp
      | true =>
        simp only [hskip, if_true, halts_mapError] at h ⊢
        have hpassed : (j.granting permits).explore (parent.child node) node.children
            (token :: rest) = j.explore (parent.child node) node.children (token :: rest) :=
          hbelow (token :: rest) h
        rw [hpassed]

theorem explore_granting {parent : Place} {cs : List Node} {tokens : List String}
    (hbelow : ∀ c ∈ cs, j.Stays permits (parent.child c))
    (h : ¬ Halts (j.explore parent cs tokens)) :
    (j.granting permits).explore parent cs tokens = j.explore parent cs tokens := by
  induction cs with
  | nil => rfl
  | cons c cs ih =>
    rcases List.forall_mem_cons.1 hbelow with ⟨hc, hcs⟩
    rw [explore] at h ⊢
    rw [explore]
    have hvisit : ¬ Halts (j.visit parent c tokens) := by
      intro hhalts
      rcases hhalts with ⟨hit, closest, hhit, hending⟩
      simp only [hhit] at h
      exact h (halts_ok_iff.2 ⟨closest, hending⟩)
    rw [hc.visit hmore hvisit]
    cases hown : j.visit parent c tokens with
    | ok hit => rfl
    | error miss =>
      simp only [hown, halts_mapError] at h ⊢
      rw [ih hcs h]

/-- Below every place a walk that is not stopped finds the same when more is granted. -/
theorem stays (p : Place) : j.Stays permits p := by
  rcases p with ⟨n, above⟩
  induction n using Node.induction generalizing above with
  | step n ih =>
    intro tokens h
    exact explore_granting hmore (fun c hc => ih c hc _) h

/-- **Walks with more permissions.** What a walk finds without being stopped it finds when more is
granted. -/
theorem descend_granting {p : Place} {tokens : List String} (h : ¬ Halts (j.descend p tokens)) :
    (j.granting permits).descend p tokens = j.descend p tokens :=
  (stays hmore p).descend hmore h

end Granting

end Judge

/-! ## Answers with more permissions -/

theorem Search.status_ofWalk_eq_pause_iff {found : Except Miss Hit} :
    (ofWalk found).status = .pause ↔ Halts found := by
  cases found with
  | error miss =>
    rcases miss with ⟨last, failed⟩
    cases failed <;> simp [ofWalk]
  | ok hit =>
    rcases hit with ⟨last, ending, bindings, flags⟩
    cases ending <;> simp [ofWalk, halts_ok_iff]

/-- A host that grants what `grants` says, and else answers as another does. -/
def Capabilities.granting {Source : Type} (caps : Capabilities Source)
    (grants : Source → String → Bool) : Capabilities Source :=
  { caps with grants := grants }

namespace CommandTree

variable {Source : Type}

/-- **More permissions.** An answer that is no refusal stays the same in every part when the source is
granted more, and one that is a refusal with more permissions was one without them. -/
theorem dispatch_granting (t : CommandTree) (caps : Capabilities Source)
    (grants : Source → String → Bool) (source : Source) (tokens : List String)
    (hmore : ∀ permission, caps.grants source permission = true → grants source permission = true) :
    ((t.dispatch caps source tokens).status ≠ .pause →
        t.dispatch (caps.granting grants) source tokens = t.dispatch caps source tokens) ∧
      ((t.dispatch (caps.granting grants) source tokens).status = .pause →
        (t.dispatch caps source tokens).status = .pause) := by
  have hgates : ∀ gate, caps.permits source gate = true →
      (caps.granting grants).permits source gate = true := by
    intro gate hgate
    cases gate with
    | none => rfl
    | some permission => exact hmore permission (by simpa [Capabilities.permits] using hgate)
  have hjudge : t.judge (caps.granting grants) source =
      (t.judge caps source).granting ((caps.granting grants).permits source) := rfl
  have hsame : (t.dispatch caps source tokens).status ≠ .pause →
      t.dispatch (caps.granting grants) source tokens = t.dispatch caps source tokens := by
    intro hstatus
    have hpermits : ∀ caps : Capabilities Source,
        (t.judge caps source).permits = caps.permits source := fun _ => rfl
    cases hroot : caps.permits source t.root.permission with
    | false => simp [dispatch, hpermits, hroot] at hstatus
    | true =>
      have hfirst : t.refusesFirst (t.judge (caps.granting grants) source) tokens =
          t.refusesFirst (t.judge caps source) tokens := rfl
      simp only [dispatch, hpermits, hroot, hgates _ hroot, hfirst, Bool.not_true,
        Bool.false_eq_true, if_false] at hstatus ⊢
      cases hrefuses : t.refusesFirst (t.judge caps source) tokens with
      | true => rfl
      | false =>
        simp only [hrefuses, Bool.false_eq_true, if_false, walk] at hstatus ⊢
        rw [ne_eq, Search.status_ofWalk_eq_pause_iff] at hstatus
        rw [hjudge, Judge.descend_granting hgates hstatus]
  refine ⟨hsame, ?_⟩
  intro hpause
  by_cases hstatus : (t.dispatch caps source tokens).status = .pause
  · exact hstatus
  · rw [hsame hstatus] at hpause
    exact hpause

/-- A usage that asks for a permission, and before it one that asks for another. -/
def kitUsages : List Usage :=
  [⟨"reload", [{ Parameter.literal "reload" [] with permission := some "kit.admin" }],
      none, none, false⟩,
    ⟨"list", [{ Parameter.literal "list" [] with permission := some "kit.list" }],
      none, none, false⟩]

/-- A source with one permission resolves an input that asks for it, and so does one with all
permissions but another. -/
theorem dispatch_granting_list :
    ∃ t grants grants', ofUsages "kit" kitUsages = .ok t ∧
      grants = (fun (_ : Unit) (p : String) => decide (p = "kit.list")) ∧
      grants' = (fun (_ : Unit) (p : String) => decide (p ≠ "kit.admin")) ∧
      (∀ p, grants () p = true → grants' () p = true) ∧
      (t.dispatch (Capabilities.builtin.granting grants) () ["list"]).status = .complete ∧
      t.dispatch (Capabilities.builtin.granting grants') () ["list"] =
        t.dispatch (Capabilities.builtin.granting grants) () ["list"] := by
  obtain ⟨t, ht⟩ : ∃ t, ofUsages "kit" kitUsages = .ok t := ⟨_, rfl⟩
  have hmore : ∀ p, decide (p = "kit.list") = true → decide (p ≠ "kit.admin") = true := by
    intro p hp
    rw [of_decide_eq_true hp]
    decide
  have hcomplete : (t.dispatch (Capabilities.builtin.granting fun _ p => decide (p = "kit.list")) ()
      ["list"]).status = .complete := by
    cases ht
    rfl
  have hsame := (dispatch_granting t
    (Capabilities.builtin.granting fun (_ : Unit) p => decide (p = "kit.list"))
    (fun _ p => decide (p ≠ "kit.admin")) () ["list"] hmore).1 (by simp [hcomplete])
  exact ⟨t, _, _, ht, rfl, rfl, hmore, hcomplete, hsame⟩

end CommandTree

end CommandLanguage

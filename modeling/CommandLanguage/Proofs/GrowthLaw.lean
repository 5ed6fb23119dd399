import CommandLanguage.Proofs.Path
import CommandLanguage.Proofs.Selection

/-!
# Growing, step by step

Inserting a usage changes a tree through nodes that are found or made on the way, one way of typing
after the other. A relation between trees before and after such changes is a *law of growth* if
changing nothing keeps it, changes in turn keep it, and changing a child keeps it, whether the child
was there or had to be made (`Growth.Law`). What is true of the end of a path is then true of a
whole usage (`Growth.Law.insert`), so the recursion of insertion is gone through once, here.
-/

namespace CommandLanguage

/-- A computation that binds two parts gives a result if both of them do. -/
theorem bind_eq_ok_iff {ε α β : Type} {x : Except ε α} {f : α → Except ε β} {b : β} :
    x >>= f = .ok b ↔ ∃ a, x = .ok a ∧ f a = .ok b := by
  constructor
  · intro h
    cases x with
    | error e => cases h
    | ok a => exact ⟨a, rfl, h⟩
  · rintro ⟨a, rfl, h⟩
    exact h

namespace Segment

/-- There is a way of typing any stretches. -/
theorem expansions_ne_nil (segments : List Segment) : expansions segments ≠ [] := by
  induction segments with
  | nil => simp [expansions]
  | cons segment rest ih =>
    cases segment with
    | run flags =>
      intro hnil
      rw [expansions, List.flatMap_eq_nil_iff] at hnil
      exact ih (by simpa using hnil [] (Arrangement.nil_mem_selections flags))
    | single p => simp [expansions, ih]

end Segment

namespace Node

/-! ## Laws -/

/-- A relation between a tree with the number of its next new node, before and after the tree has
grown by paths. -/
abbrev Relation := List (List Parameter) → Node × Nat → Node × Nat → Prop

/-- Whether a relation between trees is kept by what growing consists of. -/
structure Growth.Law (R : Relation) : Prop where
  refl : ∀ s, R [] s s
  trans : ∀ {paths paths' s s' s''}, R paths s s' → R paths' s' s'' → R (paths ++ paths') s s''
  /-- The child in the slot of a parameter has changed. -/
  replace : ∀ {paths p n c c' next next'}, paths ≠ [] → n.child? p = some c →
    (p.isArgument = true → c.isGreedy = p.greedy) → R paths (c, next) (c', next') →
    R (paths.map (p :: ·)) (n, next)
      ({ n with children := replaceSibling p c' n.children }, next')
  /-- A child has been made, and then has changed. -/
  make : ∀ {paths p n c' next next'}, paths ≠ [] → n.child? p = none →
    R paths (leaf next p, next + 1) (c', next') →
    R (paths.map (p :: ·)) (n, next)
      ({ n with children := insertSibling c' n.children }, next')

namespace Growth.Law

variable {R : Relation} {paths : List (List Parameter)} {p : Parameter} {grow : Growth}

theorem growChild (law : Law R) (hpaths : paths ≠ []) {s s' : Node × Nat}
    (hgrow : ∀ {s s'}, grow s.1 s.2 = .ok s' → R paths s s')
    (hgreedy : p.isArgument = true → ∀ c ∈ s.1.child? p, c.isGreedy = p.greedy)
    (h : Node.growChild p grow s.1 s.2 = .ok s') : R (paths.map (p :: ·)) s s' := by
  rcases s with ⟨n, next⟩
  unfold Node.growChild at h
  split at h
  · rename_i c hchild
    rcases bind_eq_ok_iff.1 h with ⟨⟨c', next'⟩, hc, heq⟩
    obtain rfl := Except.ok.inj heq
    exact law.replace hpaths hchild (fun hargument => hgreedy hargument c hchild)
      (hgrow (s := (c, next)) hc)
  · rename_i hchild
    rcases bind_eq_ok_iff.1 h with ⟨⟨c', next'⟩, hc, heq⟩
    obtain rfl := Except.ok.inj heq
    exact law.make hpaths hchild (hgrow (s := (leaf next p, next + 1)) hc)

/-- Growing at the end of a path without arguments. -/
theorem growPath (law : Law R) (hpaths : paths ≠ []) {ps : List Parameter}
    (hps : ∀ p ∈ ps, p.isArgument = false)
    (hgrow : ∀ {s s'}, grow s.1 s.2 = .ok s' → R paths s s') {s s' : Node × Nat}
    (h : Node.growPath ps grow s.1 s.2 = .ok s') : R (paths.map (ps ++ ·)) s s' := by
  induction ps generalizing s s' with
  | nil => simpa using hgrow h
  | cons p ps ih =>
    rcases List.forall_mem_cons.1 hps with ⟨hp, hps⟩
    have hbelow : paths.map (ps ++ ·) ≠ [] := by simpa using hpaths
    have hchild := law.growChild hbelow (ih hps) (by simp [hp]) h
    simpa [Function.comp_def] using hchild

/-- Growing in turn. -/
theorem foldlM (law : Law R) {α : Type}
    {step : Node × Nat → α → Except GrammarError (Node × Nat)} {xs : List α}
    {pathsOf : α → List (List Parameter)}
    (hstep : ∀ x ∈ xs, ∀ {s s'}, step s x = .ok s' → R (pathsOf x) s s')
    {s s' : Node × Nat} (h : xs.foldlM step s = .ok s') : R (xs.flatMap pathsOf) s s' := by
  induction xs generalizing s with
  | nil =>
    obtain rfl : s = s' := Except.ok.inj h
    exact law.refl s
  | cons x xs ih =>
    rw [List.foldlM_cons] at h
    rcases bind_eq_ok_iff.1 h with ⟨mid, hmid, hrest⟩
    have hfirst := hstep x List.mem_cons_self hmid
    exact law.trans hfirst (ih (fun y hy => hstep y (List.mem_cons_of_mem _ hy)) hrest)

/-- **Inserting a usage.** A law of growth that holds where a usage ends holds of all that is made
for what is left of it, with the ways of typing it as paths, in order. -/
theorem insert (law : Law R) {command : String} {u : NumberedUsage}
    (hbind : ∀ n next, R [[]] (n, next) (n.bind u, next)) {segments : List Segment}
    (hruns : ∀ flags, .run flags ∈ segments → ∀ p ∈ flags, p.isFlag = true)
    (hlast : Segment.GreedyLast segments) {s s' : Node × Nat}
    (h : Node.insert command u segments s.1 s.2 = .ok s') :
    R (Segment.expansions segments) s s' := by
  induction segments generalizing s s' with
  | nil =>
    obtain rfl := Except.ok.inj h
    exact hbind s.1 s.2
  | cons segment rest ih =>
    have hruns' : ∀ flags, Segment.run flags ∈ rest → ∀ p ∈ flags, p.isFlag = true :=
      fun flags hmem => hruns flags (List.mem_cons_of_mem _ hmem)
    simp only [Node.insert] at h
    split at h
    · cases h
    · split at h
      · rename_i flags
        have harguments : ∀ chosen ∈ Arrangement.selections flags, ∀ p ∈ chosen,
            p.isArgument = false := by
          intro chosen hchosen p hp
          have hmem := Arrangement.mem_of_mem_selections hchosen hp
          have hflag := hruns flags List.mem_cons_self p hmem
          simp [Parameter.isArgument, hflag]
        refine law.foldlM (fun chosen hchosen => ?_) h
        intro s s' hs
        exact law.growPath (Segment.expansions_ne_nil rest) (harguments chosen hchosen)
          (ih hruns' hlast) hs
      · rename_i p
        rcases hlast with ⟨hgreedy, hlast'⟩
        split at h
        · cases h
        · rename_i hagree
          rcases bind_eq_ok_iff.1 h with ⟨mid, hmid, hrest⟩
          -- Nothing follows a greedy parameter, so its node is where the usage ends.
          have hbelow : (if p.greedy then bindHere u else Node.insert command u rest) =
              Node.insert command u rest := by
            split
            · rename_i hp
              rw [hgreedy hp]
              rfl
            · rfl
          rw [hbelow] at hmid
          have hkeep := law.growChild (Segment.expansions_ne_nil rest) (ih hruns' hlast')
            (fun _ c hc => by
              have hchild : s.1.child? p = some c := hc
              simpa [hchild] using hagree) hmid
          rw [Segment.expansions]
          split at hrest
          · rename_i hoptional
            rw [if_pos hoptional]
            exact law.trans hkeep (ih hruns' hlast' hrest)
          · rename_i hoptional
            obtain rfl := Except.ok.inj hrest
            rw [if_neg hoptional, List.append_nil]
            exact hkeep

end Growth.Law

end Node

end CommandLanguage

import CommandLanguage.Proofs.DeclaredUsages

/-!
# Which usages are accepted

A usage is refused when one of its ways of typing would share a node with another way and the two do
not agree whether the words left go there. This is told without trees: each way *marks* the paths that
it goes along by whether their parameter is an argument that takes every word left (`Marks`), and a
tree carries the marks of the ways that it has grown by (`Node.marks_law`,
`Grammar.Reachable.marked_iff`).

Declared usages are accepted exactly if none has a fault of its own, nothing but a default usage
follows a greedy root, and no path is marked in two ways (`Grammar.Reachable.exists_insertAll_eq_ok_iff`). This
says nothing of the order in which they come.
-/

namespace CommandLanguage

/-! ## Marks -/

/-- Whether a parameter is an argument that takes every word left. -/
def Parameter.swallows (p : Parameter) : Bool :=
  p.isArgument && p.greedy

theorem Parameter.swallows_eq_greedy {p : Parameter} (h : p.greedy = true → p.isArgument = true) :
    p.swallows = p.greedy := by
  unfold swallows
  cases hp : p.greedy with
  | false => simp
  | true => simp [h hp]

/-- Whether one of some ways of typing goes along a path that ends in a parameter of which it is known
whether it takes every word left. -/
def Marks (ways : List (List Parameter)) (path : List Slot) (swallows : Bool) : Prop :=
  ∃ e ∈ ways, ∃ p, through? path e = some p ∧ p.swallows = swallows

section Marks

variable {ways ways' : List (List Parameter)} {path : List Slot} {slot : Slot} {b : Bool}
  {p : Parameter}

@[simp] theorem not_marks_nil : ¬ Marks [] path b := by
  rintro ⟨e, he, -⟩
  cases he

/-- Ways of typing do not mark the root. -/
@[simp] theorem not_marks_root : ¬ Marks ways [] b := by
  rintro ⟨e, -, p, hp, -⟩
  simp at hp

theorem Marks.mono (h : Marks ways path b) (hsub : ∀ e ∈ ways, e ∈ ways') : Marks ways' path b := by
  rcases h with ⟨e, he, hp⟩
  exact ⟨e, hsub e he, hp⟩

/-- What marks the root and, by ways of typing, paths below it marks no path in two ways if the ways do
not. -/
theorem marks_unique_of_root {own b' : Bool} (h : Marks ways path b → Marks ways path b' → b = b')
    (hb : path = [] ∧ own = b ∨ Marks ways path b)
    (hb' : path = [] ∧ own = b' ∨ Marks ways path b') : b = b' := by
  rcases hb with ⟨rfl, rfl⟩ | hb
  · rcases hb' with ⟨-, rfl⟩ | hb'
    · rfl
    · exact absurd hb' not_marks_root
  · rcases hb' with ⟨rfl, rfl⟩ | hb'
    · exact absurd hb not_marks_root
    · exact h hb hb'

theorem marks_append_iff :
    Marks (ways ++ ways') path b ↔ Marks ways path b ∨ Marks ways' path b := by
  constructor
  · rintro ⟨e, he, hp⟩
    rcases List.mem_append.1 he with he | he
    · exact .inl ⟨e, he, hp⟩
    · exact .inr ⟨e, he, hp⟩
  · rintro (h | h)
    · exact h.mono fun e he => List.mem_append_left _ he
    · exact h.mono fun e he => List.mem_append_right _ he

/-- Ways of typing that begin with one parameter mark its slot, and what they mark below it. -/
theorem marks_map_cons_iff :
    Marks (ways.map (p :: ·)) (slot :: path) b ↔
      slot = p.slot ∧ (path = [] ∧ ways ≠ [] ∧ p.swallows = b ∨ Marks ways path b) := by
  constructor
  · rintro ⟨e', he', q, hq, rfl⟩
    rcases List.mem_map.1 he' with ⟨e, he, rfl⟩
    rw [through?] at hq
    split at hq
    · rename_i hslot
      refine ⟨hslot, ?_⟩
      split at hq
      · rename_i hpath
        obtain rfl := Option.some.inj hq
        exact .inl ⟨hpath, List.ne_nil_of_mem he, rfl⟩
      · exact .inr ⟨e, he, q, hq, rfl⟩
    · cases hq
  · rintro ⟨rfl, ⟨rfl, hways, rfl⟩ | ⟨e, he, q, hq, rfl⟩⟩
    · rcases List.exists_mem_of_ne_nil ways hways with ⟨e, he⟩
      exact ⟨p :: e, List.mem_map_of_mem he, p, by simp [through?], rfl⟩
    · have hpath : path ≠ [] := by
        rintro rfl
        simp at hq
      exact ⟨p :: e, List.mem_map_of_mem he, q, by simp [through?, hpath, hq], rfl⟩

end Marks

namespace Node

/-- Whether there is a node at a path of which it is known whether it is an argument that takes every
word left. -/
def Marked (n : Node) (path : List Slot) (swallows : Bool) : Prop :=
  ∃ e, n.view path = some e ∧ e.parameter.swallows = swallows

section Marked

variable {n c : Node} {path : List Slot} {slot : Slot} {b b' : Bool} {p : Parameter}

theorem Marked.unique (h : n.Marked path b) (h' : n.Marked path b') : b = b' := by
  rcases h with ⟨e, he, rfl⟩
  rcases h' with ⟨e', he', rfl⟩
  rw [he] at he'
  rw [Option.some.inj he']

@[simp] theorem marked_nil_iff : n.Marked [] b ↔ n.parameter.swallows = b := by
  constructor
  · rintro ⟨e, he, rfl⟩
    rw [view_nil] at he
    rw [← Option.some.inj he]
    rfl
  · intro h
    exact ⟨n.entry, n.view_nil, h⟩

theorem marked_cons_iff : n.Marked (slot :: path) b ↔
    ∃ c, n.children.find? (·.parameter.slot == slot) = some c ∧ c.Marked path b := by
  unfold Marked
  rw [view_cons]
  constructor
  · rintro ⟨e, he, hb⟩
    rcases Option.bind_eq_some_iff.1 he with ⟨c, hc, he⟩
    exact ⟨c, hc, e, he, hb⟩
  · rintro ⟨c, hc, e, he, hb⟩
    exact ⟨e, Option.bind_eq_some_iff.2 ⟨c, hc, he⟩, hb⟩

theorem marked_child_iff (hc : n.child? p = some c) :
    n.Marked (p.slot :: path) b ↔ c.Marked path b := by
  rw [child?_eq] at hc
  rw [marked_cons_iff]
  constructor
  · rintro ⟨c', hc', h⟩
    rw [hc] at hc'
    rwa [Option.some.inj hc']
  · intro h
    exact ⟨c, hc, h⟩

theorem not_marked_of_child?_eq_none (hnone : n.child? p = none) :
    ¬ n.Marked (p.slot :: path) b := by
  rw [child?_eq] at hnone
  rw [marked_cons_iff, hnone]
  rintro ⟨c, hc, -⟩
  cases hc

@[simp] theorem marked_leaf_iff {id : Nat} :
    (leaf id p).Marked path b ↔ path = [] ∧ p.swallows = b := by
  cases path with
  | nil => simp [leaf]
  | cons slot path => simp [marked_cons_iff, leaf]

end Marked

/-! ## Trees carry the marks of their ways -/

/-- The marks of a tree one of whose children has changed, or has been made. -/
theorem marked_of_child {ways : List (List Parameter)} (hways : ways ≠ []) {n n' c' : Node}
    {p : Parameter} {base : List Slot → Bool → Prop} (hparameter : n'.parameter = n.parameter)
    (hbase : ∀ path b, n.Marked (p.slot :: path) b ∨ (path = [] ∧ p.swallows = b) ↔ base path b)
    (hc' : ∀ path b, c'.Marked path b ↔ base path b ∨ Marks ways path b)
    (hfind : ∀ slot, n'.children.find? (·.parameter.slot == slot) =
      if slot = p.slot then some c' else n.children.find? (·.parameter.slot == slot))
    (path : List Slot) (b : Bool) :
    n'.Marked path b ↔ n.Marked path b ∨ Marks (ways.map (p :: ·)) path b := by
  cases path with
  | nil => simp [hparameter]
  | cons slot path =>
    rw [marked_cons_iff, hfind, marks_map_cons_iff]
    by_cases hslot : slot = p.slot
    · subst hslot
      have hnode : (∃ c, (if p.slot = p.slot then some c'
          else n.children.find? (·.parameter.slot == p.slot)) = some c ∧ c.Marked path b) ↔
          c'.Marked path b := by simp
      rw [hnode, hc', ← hbase]
      simp only [true_and, hways, ne_eq, not_false_eq_true]
      exact or_assoc
    · rw [if_neg hslot, marked_cons_iff]
      simp [hslot]

/-- Carrying the marks of the ways that a tree has grown by is a law of growth. -/
theorem marks_law : Growth.Law fun ways s s' => s'.1.parameter = s.1.parameter ∧
    ∀ path b, s'.1.Marked path b ↔ s.1.Marked path b ∨ Marks ways path b where
  refl := by simp
  trans := by
    rintro ways ways' s s' s'' ⟨hparameter, hmarks⟩ ⟨hparameter', hmarks'⟩
    refine ⟨hparameter'.trans hparameter, fun path b => ?_⟩
    rw [hmarks', hmarks, marks_append_iff, or_assoc]
  replace := by
    rintro ways p n c c' next next' hways hchild hgreedy ⟨hparameter, hmarks⟩
    have hslot : c.parameter.slot = p.slot := slot_of_child? hchild
    refine ⟨rfl, marked_of_child hways rfl ?_ hmarks fun slot =>
      find?_replaceSibling slot hchild (by rw [hparameter, hslot])⟩
    intro path b
    rw [marked_child_iff hchild]
    -- The child marks its slot as the parameter does.
    have hsame : c.parameter.swallows = p.swallows := by
      have hargument : c.parameter.isArgument = p.isArgument := by
        rw [Parameter.isArgument, Parameter.isArgument, Parameter.isLiteral_eq_of_slot_eq hslot,
          Parameter.isFlag_eq_of_slot_eq hslot]
      unfold Parameter.swallows
      rw [hargument]
      cases hp : p.isArgument with
      | false => rfl
      | true => rw [← hgreedy hp]; rfl
    constructor
    · rintro (h | ⟨rfl, h⟩)
      · exact h
      · exact marked_nil_iff.2 (hsame.trans h)
    · exact .inl
  make := by
    rintro ways p n c' next next' hways hchild ⟨hparameter, hmarks⟩
    have hslot : c'.parameter.slot = p.slot := by
      rw [hparameter]
      rfl
    have hnone : n.children.find? (·.parameter.slot == c'.parameter.slot) = none := by
      rw [hslot, ← child?_eq]
      exact hchild
    refine ⟨rfl, marked_of_child hways rfl ?_ hmarks fun slot => by
      rw [find?_insertSibling slot hnone, hslot]⟩
    intro path b
    have hold : ¬ n.Marked (p.slot :: path) b := not_marked_of_child?_eq_none hchild
    rw [marked_leaf_iff]
    exact or_iff_right hold

/-! ## Agreement -/

/-- Whether a tree and some ways of typing mark no path in two ways. -/
def Agrees (n : Node) (ways : List (List Parameter)) : Prop :=
  ∀ path b b', n.Marked path b ∨ Marks ways path b → n.Marked path b' ∨ Marks ways path b' → b = b'

section Agrees

variable {n n' c : Node} {ways ways' : List (List Parameter)} {p : Parameter}

/-- A tree that carries the marks of some ways agreed with them before. -/
theorem agrees_of_marked
    (h : ∀ path b, n'.Marked path b ↔ n.Marked path b ∨ Marks ways path b) : n.Agrees ways := by
  intro path b b' hb hb'
  exact ((h path b).2 hb).unique ((h path b').2 hb')

theorem Agrees.left (h : n.Agrees (ways ++ ways')) : n.Agrees ways := by
  intro path b b' hb hb'
  exact h path b b' (hb.imp_right fun hb => marks_append_iff.2 (.inl hb))
    (hb'.imp_right fun hb' => marks_append_iff.2 (.inl hb'))

/-- What agrees with ways before and after agrees with those after, once it has grown. -/
theorem Agrees.right (h : n.Agrees (ways ++ ways'))
    (hmarks : ∀ path b, n'.Marked path b ↔ n.Marked path b ∨ Marks ways path b) :
    n'.Agrees ways' := by
  intro path b b' hb hb'
  rw [hmarks, or_assoc, ← marks_append_iff] at hb hb'
  exact h path b b' hb hb'

theorem Agrees.child (h : n.Agrees (ways.map (p :: ·))) (hc : n.child? p = some c) :
    c.Agrees ways := by
  intro path b b' hb hb'
  refine h (p.slot :: path) b b' ?_ ?_
  · rw [marked_child_iff hc, marks_map_cons_iff]
    exact hb.imp_right fun hb => ⟨rfl, .inr hb⟩
  · rw [marked_child_iff hc, marks_map_cons_iff]
    exact hb'.imp_right fun hb' => ⟨rfl, .inr hb'⟩

theorem Agrees.swallows_eq (h : n.Agrees (ways.map (p :: ·))) (hways : ways ≠ [])
    (hc : n.child? p = some c) : c.parameter.swallows = p.swallows := by
  refine h [p.slot] _ _ (.inl ?_) (.inr ?_)
  · rw [marked_child_iff hc, marked_nil_iff]
  · rw [marks_map_cons_iff]
    exact ⟨rfl, .inl ⟨rfl, hways, rfl⟩⟩

theorem Agrees.leaf (h : n.Agrees (ways.map (p :: ·))) (id : Nat) :
    (leaf id p).Agrees ways := by
  intro path b b' hb hb'
  rw [marked_leaf_iff] at hb hb'
  -- A new node marks its own place alone.
  refine marks_unique_of_root (fun hb hb' => ?_) hb hb'
  exact h (p.slot :: path) b b' (.inr (marks_map_cons_iff.2 ⟨rfl, .inr hb⟩))
    (.inr (marks_map_cons_iff.2 ⟨rfl, .inr hb'⟩))

end Agrees

/-! ## What agrees is accepted -/

/-- Whether a tree below which only arguments are greedy may grow by ways of typing of which the same
holds. -/
structure Ready (n : Node) (ways : List (List Parameter)) : Prop where
  capped : n.Capped
  greedy : n.isGreedy = false
  ends : ∀ e ∈ ways, GreedyEnd e
  agrees : n.Agrees ways

/-- What growing by such ways does to a tree. -/
structure Settles (ways : List (List Parameter)) (n n' : Node) : Prop where
  caps : Caps n n'
  marked : ∀ path b, n'.Marked path b ↔ n.Marked path b ∨ Marks ways path b

/-- Two laws of growth make one. -/
theorem Growth.Law.and {R R' : Relation} (law : Growth.Law R) (law' : Growth.Law R') :
    Growth.Law fun ways s s' => R ways s s' ∧ R' ways s s' where
  refl s := ⟨law.refl s, law'.refl s⟩
  trans h h' := ⟨law.trans h.1 h'.1, law'.trans h.2 h'.2⟩
  replace hways hc hgreedy h :=
    ⟨law.replace hways hc hgreedy h.1, law'.replace hways hc hgreedy h.2⟩
  make hways hc h := ⟨law.make hways hc h.1, law'.make hways hc h.2⟩

/-- Keeping what follows greedy nodes as it is, and carrying marks. -/
def Growing : Relation := fun ways s s' =>
  ((∀ e ∈ ways, GreedyEnd e) →
    Caps s.1 s'.1 ∧ ((∀ e ∈ ways, e = []) → s'.1.children = s.1.children)) ∧
  (s'.1.parameter = s.1.parameter ∧
    ∀ path b, s'.1.Marked path b ↔ s.1.Marked path b ∨ Marks ways path b)

theorem growing_law : Growth.Law Growing :=
  caps_law.and marks_law

theorem Growing.settles {ways : List (List Parameter)} {s s' : Node × Nat} (h : Growing ways s s')
    (hends : ∀ e ∈ ways, GreedyEnd e) : Settles ways s.1 s'.1 :=
  ⟨(h.1 hends).1, h.2.2⟩

namespace Ready

variable {n n' c : Node} {ways ways' : List (List Parameter)} {p : Parameter} {grow : Growth}

theorem left (h : n.Ready (ways ++ ways')) : n.Ready ways :=
  ⟨h.capped, h.greedy, fun e he => h.ends e (List.mem_append_left _ he), h.agrees.left⟩

theorem right (h : n.Ready (ways ++ ways')) (hsettles : Settles ways n n') : n'.Ready ways' where
  capped := hsettles.caps.capped h.capped
  greedy := by
    rw [isGreedy, hsettles.caps.parameter]
    exact h.greedy
  ends := fun e he => h.ends e (List.mem_append_right _ he)
  agrees := h.agrees.right hsettles.marked

theorem argument (h : n.Ready (ways.map (p :: ·))) (hways : ways ≠ []) :
    p.greedy = true → p.isArgument = true := by
  rcases List.exists_mem_of_ne_nil ways hways with ⟨e, he⟩
  exact (h.ends (p :: e) (List.mem_map_of_mem he)).argument p List.mem_cons_self

/-- The child in the slot of the first parameter is as greedy as that is. -/
theorem isGreedy_eq (h : n.Ready (ways.map (p :: ·))) (hways : ways ≠ [])
    (hc : n.child? p = some c) : c.isGreedy = p.greedy := by
  have hmem : c ∈ n.children := List.mem_of_find?_eq_some hc
  have hsame := h.agrees.swallows_eq hways hc
  rw [Parameter.swallows_eq_greedy (h.argument hways),
    Parameter.swallows_eq_greedy fun hgreedy => (h.capped.greedy hmem hgreedy).1] at hsame
  exact hsame

theorem child (h : n.Ready (ways.map (p :: ·))) (hways : ways ≠ []) (hp : p.greedy = false)
    (hc : n.child? p = some c) : c.Ready ways where
  capped := h.capped.child (List.mem_of_find?_eq_some hc)
  greedy := (h.isGreedy_eq hways hc).trans hp
  ends := fun e he => (h.ends (p :: e) (List.mem_map_of_mem he)).of_cons
  agrees := h.agrees.child hc

theorem leaf (h : n.Ready (ways.map (p :: ·))) (hp : p.greedy = false) (id : Nat) :
    (leaf id p).Ready ways where
  capped := .leaf id p
  greedy := hp
  ends := fun e he => (h.ends (p :: e) (List.mem_map_of_mem he)).of_cons
  agrees := h.agrees.leaf id

end Ready

/-- Growing at a child gives a tree if it does at the child that is there, or else at a new one. -/
theorem exists_growChild_eq_ok {p : Parameter} {grow : Growth} {s : Node × Nat}
    (hsome : ∀ c, s.1.child? p = some c → ∃ s', grow c s.2 = .ok s')
    (hnone : s.1.child? p = none → ∃ s', grow (leaf s.2 p) (s.2 + 1) = .ok s') :
    ∃ s', growChild p grow s.1 s.2 = .ok s' := by
  unfold growChild
  split
  · rename_i c hc
    rcases hsome c hc with ⟨s', hs'⟩
    exact ⟨_, bind_eq_ok_iff.2 ⟨s', hs', rfl⟩⟩
  · rename_i hc
    rcases hnone hc with ⟨s', hs'⟩
    exact ⟨_, bind_eq_ok_iff.2 ⟨s', hs', rfl⟩⟩

/-- Growing at the end of a path of flags gives a tree if it does at what is ready there. -/
theorem exists_growPath_eq_ok {ps : List Parameter} {grow : Growth} {ways : List (List Parameter)}
    (hways : ways ≠ []) (hps : ∀ p ∈ ps, p.isFlag = true)
    (hgrow : ∀ s : Node × Nat, s.1.Ready ways → ∃ s', grow s.1 s.2 = .ok s') {s : Node × Nat}
    (hready : s.1.Ready (ways.map (ps ++ ·))) : ∃ s', growPath ps grow s.1 s.2 = .ok s' := by
  induction ps generalizing s with
  | nil => exact hgrow s (by simpa using hready)
  | cons p ps ih =>
    rcases List.forall_mem_cons.1 hps with ⟨hp, hps⟩
    have hbelow : ways.map (ps ++ ·) ≠ [] := by simpa using hways
    have hready' : s.1.Ready ((ways.map (ps ++ ·)).map (p :: ·)) := by
      simpa [Function.comp_def] using hready
    have hgreedy : p.greedy = false := by
      by_contra hgreedy
      have hnot := Parameter.isFlag_of_isArgument
        (hready'.argument hbelow (by simpa using hgreedy))
      rw [hp] at hnot
      cases hnot
    refine exists_growChild_eq_ok (fun c hc => ?_) fun hc => ?_
    · exact ih (s := (c, s.2)) hps (hready'.child hbelow hgreedy hc)
    · exact ih (s := (Node.leaf s.2 p, s.2 + 1)) hps (hready'.leaf hgreedy s.2)

/-- Growing in turn gives a tree if each step does from what is ready for it, and settles it. -/
theorem exists_foldlM_eq_ok {α : Type} {step : Node × Nat → α → Except GrammarError (Node × Nat)}
    {xs : List α} {waysOf : α → List (List Parameter)}
    (hstep : ∀ x ∈ xs, ∀ s : Node × Nat, s.1.Ready (waysOf x) → ∃ s', step s x = .ok s')
    (hsettles : ∀ x ∈ xs, ∀ s s' : Node × Nat, s.1.Ready (waysOf x) → step s x = .ok s' →
      Settles (waysOf x) s.1 s'.1) {s : Node × Nat} (hready : s.1.Ready (xs.flatMap waysOf)) :
    ∃ s', xs.foldlM step s = .ok s' := by
  induction xs generalizing s with
  | nil => exact ⟨s, rfl⟩
  | cons x xs ih =>
    rw [List.flatMap_cons] at hready
    rcases hstep x List.mem_cons_self s hready.left with ⟨mid, hmid⟩
    have hmid' := hready.right (hsettles x List.mem_cons_self s mid hready.left hmid)
    rcases ih (fun y hy => hstep y (List.mem_cons_of_mem _ hy))
      (fun y hy => hsettles y (List.mem_cons_of_mem _ hy)) hmid' with ⟨s', hs'⟩
    exact ⟨s', by rw [List.foldlM_cons]; exact bind_eq_ok_iff.2 ⟨mid, hmid, hs'⟩⟩

/-- Receiving a usage marks nothing. -/
theorem receive_marks (u : NumberedUsage) (n : Node) :
    (n.receive u).parameter = n.parameter ∧
      ∀ path b, (n.receive u).Marked path b ↔ n.Marked path b ∨ Marks [[]] path b := by
  have hparameter : (n.receive u).parameter = n.parameter := (receive_extends u n).parameter
  refine ⟨hparameter, fun path b => ?_⟩
  have hnone : ¬ Marks [[]] path b := by
    rintro ⟨e, he, q, hq, -⟩
    obtain rfl := List.mem_singleton.1 he
    simp at hq
  rw [or_iff_left hnone]
  cases path with
  | nil => rw [marked_nil_iff, marked_nil_iff, hparameter]
  | cons slot path => rw [marked_cons_iff, marked_cons_iff, children_receive]

section Insert

variable {command : String} {u : NumberedUsage} {segments : List Segment}

/-- What a usage does to a tree into which it is inserted. -/
theorem growing_of_insert (hdefault : u.usage.isDefault = false)
    (hruns : ∀ flags, .run flags ∈ segments → ∀ p ∈ flags, p.isFlag = true)
    (hlast : Segment.GreedyLast segments) {s s' : Node × Nat}
    (h : insert command u segments s.1 s.2 = .ok s') :
    Growing (Segment.expansions segments) s s' := by
  refine growing_law.insert (fun n next => ?_) hruns hlast h
  have hbind : n.bind u = n.receive u := by simp [receive, hdefault]
  rw [hbind]
  exact ⟨fun _ => receive_caps u n, receive_marks u n⟩

/-- **What agrees is accepted.** A usage can be inserted into a tree that is ready for its ways of
typing. -/
theorem exists_insert_eq_ok (hdefault : u.usage.isDefault = false)
    (hruns : ∀ flags, .run flags ∈ segments → ∀ p ∈ flags, p.isFlag = true)
    (hlast : Segment.GreedyLast segments) {s : Node × Nat}
    (hready : s.1.Ready (Segment.expansions segments)) :
    ∃ s', insert command u segments s.1 s.2 = .ok s' := by
  induction segments generalizing s with
  | nil => exact ⟨_, rfl⟩
  | cons segment rest ih =>
    have hruns' : ∀ flags, Segment.run flags ∈ rest → ∀ p ∈ flags, p.isFlag = true :=
      fun flags hmem => hruns flags (List.mem_cons_of_mem _ hmem)
    have hne := Segment.expansions_ne_nil rest
    simp only [insert, hready.greedy, Bool.false_eq_true, if_false]
    cases segment with
    | run flags =>
      have hflags : ∀ chosen ∈ Arrangement.selections flags, ∀ p ∈ chosen, p.isFlag = true := by
        intro chosen hchosen p hp
        exact hruns flags List.mem_cons_self p (Arrangement.mem_of_mem_selections hchosen hp)
      refine exists_foldlM_eq_ok (fun chosen hchosen s hs => ?_)
        (fun chosen hchosen s s' hs hgrow => ?_) hready
      · exact exists_growPath_eq_ok hne (hflags chosen hchosen)
          (fun s hs => ih hruns' hlast hs) hs
      · have harguments : ∀ p ∈ chosen, p.isArgument = false := by
          intro p hp
          simp [Parameter.isArgument, hflags chosen hchosen p hp]
        have hgrowing := growing_law.growPath hne harguments
          (fun h => growing_of_insert hdefault hruns' hlast h) hgrow
        exact hgrowing.settles hs.ends
    | single p =>
      rcases hlast with ⟨hgreedy, hlast'⟩
      rw [Segment.expansions] at hready
      have hkeep := hready.left
      have hagree : (s.1.child? p).any (·.isGreedy != p.greedy) = false := by
        cases hc : s.1.child? p with
        | none => rfl
        | some c => simp [hkeep.isGreedy_eq hne hc]
      -- Nothing follows a greedy parameter, so its node is where the usage ends.
      have hbelow : (if p.greedy then bindHere u else insert command u rest) =
          insert command u rest := by
        split
        · rename_i hp
          rw [hgreedy hp]
          rfl
        · rfl
      simp only [hagree, Bool.false_eq_true, if_false, hbelow]
      obtain ⟨mid, hmid⟩ : ∃ mid, growChild p (insert command u rest) s.1 s.2 = .ok mid := by
        cases hp : p.greedy with
        | true =>
          rw [hgreedy hp]
          exact exists_growChild_eq_ok (fun c _ => ⟨_, rfl⟩) fun _ => ⟨_, rfl⟩
        | false =>
          exact exists_growChild_eq_ok
            (fun c hc => ih (s := (c, s.2)) hruns' hlast' (hkeep.child hne hp hc))
            fun _ => ih (s := (Node.leaf s.2 p, s.2 + 1)) hruns' hlast' (hkeep.leaf hp s.2)
      have hgrowing := growing_law.growChild hne
        (fun h => growing_of_insert hdefault hruns' hlast' h)
        (fun _ c hc => hkeep.isGreedy_eq hne hc) hmid
      by_cases hoptional : p.isOptional = true
      · rw [if_pos hoptional] at hready
        rcases ih hruns' hlast' (hready.right (hgrowing.settles hkeep.ends)) with ⟨s', hs'⟩
        exact ⟨s', bind_eq_ok_iff.2 ⟨mid, hmid, by simpa [hoptional] using hs'⟩⟩
      · exact ⟨mid, bind_eq_ok_iff.2 ⟨mid, hmid, by simp [hoptional]; rfl⟩⟩

end Insert

end Node

/-! ## Grammars -/

namespace Grammar

variable {root : Parameter} {g : Grammar}

/-- The tree of a grammar that can be built marks its root, and what its usages do. -/
theorem Reachable.marked_iff (hg : Reachable root g) (path : List Slot) (b : Bool) :
    g.root.Marked path b ↔
      path = [] ∧ root.swallows = b ∨ Marks (g.usages.flatMap Usage.ways) path b := by
  induction hg with
  | new => simp [Grammar.new]
  | @insert g g' u number hg hinsert ih =>
    rcases insert_cases hinsert with rfl | ⟨hu, husages, next, hgrow⟩
    · exact ih
    · have hmarks := grow_law Node.marks_law (fun n _ => Node.receive_marks _ n) hu hgrow
      have hnew : g'.usages.flatMap Usage.ways = g.usages.flatMap Usage.ways ++ u.ways := by
        rw [husages]
        simp
      rw [hmarks.2, ih, hnew, marks_append_iff, or_assoc]
  | @assignPermissions g delimiter _ ih =>
    rcases (g.repermitted_assignPermissions delimiter).view path with ⟨own, hview⟩
    have husages : (g.assignPermissions delimiter).usages = g.usages := rfl
    rw [husages, ← ih]
    unfold Node.Marked
    rw [hview]
    constructor
    · rintro ⟨e', he', hb⟩
      rcases Option.map_eq_some_iff.1 he' with ⟨e, he, rfl⟩
      exact ⟨e, he, hb⟩
    · rintro ⟨e, he, hb⟩
      exact ⟨_, Option.map_eq_some_iff.2 ⟨e, he, rfl⟩, hb⟩

/-- Making a path always gives a tree. -/
theorem exists_growPath_fallHere (u : NumberedUsage) (ps : List Parameter) (s : Node × Nat) :
    ∃ s', Node.growPath ps (Node.fallHere u) s.1 s.2 = .ok s' := by
  induction ps generalizing s with
  | nil => exact ⟨_, rfl⟩
  | cons p ps ih =>
    exact Node.exists_growChild_eq_ok (fun c _ => ih (c, s.2))
      fun _ => ih (Node.leaf s.2 p, s.2 + 1)

/-- A declared usage can be inserted into a tree of declared usages exactly if it agrees with it, and
does not go on below a greedy root unless it is a default. -/
theorem exists_grow_eq_ok_iff (hcapped : g.root.Capped) {u : NumberedUsage}
    (hdeclared : u.usage.Declared) (hu : u.usage.WellFormed) :
    (∃ s, g.grow u = .ok s) ↔
      (g.root.isGreedy = true → u.usage.isDefault = true ∨ u.usage.parameters = []) ∧
        g.root.Agrees u.usage.ways := by
  constructor
  · rintro ⟨s, hs⟩
    have hmarks := grow_law Node.marks_law (fun n _ => Node.receive_marks _ n) hu hs
    refine ⟨?_, Node.agrees_of_marked hmarks.2⟩
    intro hgreedy
    by_cases hdefault : u.usage.isDefault = true
    · exact .inl hdefault
    · right
      rw [← Segment.flatMap_parameters_ofParameters u.usage.parameters]
      unfold grow at hs
      rw [if_neg hdefault] at hs
      cases hsegments : Segment.ofParameters u.usage.parameters with
      | nil => rfl
      | cons segment rest => simp [hsegments, Node.insert, hgreedy] at hs
  · rintro ⟨hroot, hagrees⟩
    unfold grow
    split
    · -- The path of a default usage can always be made.
      exact exists_growPath_fallHere u u.usage.parameters (g.root, g.root.size)
    · rename_i hdefault
      have hways : u.usage.ways = Segment.expansions (Segment.ofParameters u.usage.parameters) := by
        rw [Usage.ways, if_neg hdefault, expansions]
      by_cases hparameters : u.usage.parameters = []
      · rw [hparameters]
        exact ⟨_, rfl⟩
      · have hgreedy : g.root.isGreedy = false := by
          by_contra hgreedy
          rcases hroot (by simpa using hgreedy) with h | h
          · exact hdefault h
          · exact hparameters h
        refine Node.exists_insert_eq_ok (s := (g.root, g.root.size)) (by simpa using hdefault)
          (fun _ hmem _ hp => Segment.isFlag_of_run_mem hmem hp)
          (Segment.greedyLast_ofParameters hu.greedy) ⟨hcapped, hgreedy, ?_, ?_⟩
        · rw [← hways]
          exact fun e he => hdeclared.greedyEnd hu he
        · rw [← hways]
          exact hagrees

/-- Whether usages can be inserted after others below a root. -/
structure Admits (root : Parameter) (old us : List Usage) : Prop where
  /-- None has a fault of its own. -/
  faultless : ∀ u ∈ us, u.fault? root.name = none
  /-- Only default usages go on below a greedy root. -/
  root : root.greedy = true → ∀ u ∈ us, u.isDefault = true ∨ u.parameters = []
  /-- No path is marked in two ways. -/
  agree : ∀ path b b', Marks ((old ++ us).flatMap Usage.ways) path b →
    Marks ((old ++ us).flatMap Usage.ways) path b' → b = b'

/-- Usages of one form are typed alike. -/
theorem ways_eq_of_sameForm {u v : Usage} (h : u.sameForm v = true) : u.ways = v.ways := by
  rcases Usage.sameForm_iff.1 h with ⟨hdefault, hparameters⟩
  rw [Usage.ways, Usage.ways, hdefault, hparameters]

/-- A usage of a form that is there already makes no difference. -/
theorem admits_cons_of_sameForm {old us : List Usage} {u v : Usage} (hv : v ∈ old)
    (hform : v.sameForm u = true)
    (hroot : root.greedy = true → v.isDefault = true ∨ v.parameters = []) :
    Admits root old (u :: us) ↔ u.fault? root.name = none ∧ Admits root old us := by
  have hways : ∀ path b, Marks ((old ++ u :: us).flatMap Usage.ways) path b ↔
      Marks ((old ++ us).flatMap Usage.ways) path b := by
    intro path b
    simp only [List.flatMap_append, List.flatMap_cons, marks_append_iff]
    have hknown : Marks u.ways path b → Marks (old.flatMap Usage.ways) path b := by
      rw [← ways_eq_of_sameForm hform]
      exact fun h => h.mono fun e he => List.mem_flatMap.2 ⟨v, hv, he⟩
    constructor
    · rintro (h | h | h)
      · exact .inl h
      · exact .inl (hknown h)
      · exact .inr h
    · rintro (h | h)
      · exact .inl h
      · exact .inr (.inr h)
  rcases Usage.sameForm_iff.1 hform with ⟨hdefault, hparameters⟩
  constructor
  · intro h
    obtain ⟨hu, hus⟩ := List.forall_mem_cons.1 h.faultless
    refine ⟨hu, hus, fun hgreedy => (List.forall_mem_cons.1 (h.root hgreedy)).2, ?_⟩
    intro path b b' hb hb'
    exact h.agree path b b' ((hways path b).2 hb) ((hways path b').2 hb')
  · rintro ⟨hu, h⟩
    refine ⟨List.forall_mem_cons.2 ⟨hu, h.faultless⟩, fun hgreedy => ?_, ?_⟩
    · refine List.forall_mem_cons.2 ⟨?_, h.root hgreedy⟩
      rw [← hdefault, ← hparameters]
      exact hroot hgreedy
    · intro path b b' hb hb'
      exact h.agree path b b' ((hways path b).1 hb) ((hways path b').1 hb')

/-- A usage of a new form is admitted if it agrees with the tree, and then the others have to be. -/
theorem Reachable.admits_cons_iff (hg : Reachable root g) {u : Usage} {us : List Usage} :
    Admits root g.usages (u :: us) ↔
      u.fault? root.name = none ∧
        (g.root.isGreedy = true → u.isDefault = true ∨ u.parameters = []) ∧
        g.root.Agrees u.ways ∧ Admits root (g.usages ++ [u]) us := by
  have hgreedy : g.root.isGreedy = root.greedy := by rw [Node.isGreedy, hg.root_parameter]
  have happend : g.usages ++ [u] ++ us = g.usages ++ u :: us := by simp
  rw [hgreedy]
  constructor
  · intro h
    obtain ⟨hu, hus⟩ := List.forall_mem_cons.1 h.faultless
    refine ⟨hu, fun hroot => (List.forall_mem_cons.1 (h.root hroot)).1, ?_, hus,
      fun hroot => (List.forall_mem_cons.1 (h.root hroot)).2, by rw [happend]; exact h.agree⟩
    -- The tree marks its root, which no usage does, and what its usages mark.
    intro path b b' hb hb'
    rw [hg.marked_iff, or_assoc, ← marks_append_iff] at hb hb'
    have hsub : ∀ e ∈ g.usages.flatMap Usage.ways ++ u.ways,
        e ∈ (g.usages ++ u :: us).flatMap Usage.ways := by
      intro e he
      simp only [List.flatMap_append, List.flatMap_cons, List.mem_append] at he ⊢
      exact he.imp_right .inl
    exact marks_unique_of_root (fun hb hb' => h.agree path b b' (hb.mono hsub) (hb'.mono hsub)) hb hb'
  · rintro ⟨hu, hroot, -, h⟩
    refine ⟨List.forall_mem_cons.2 ⟨hu, h.faultless⟩, fun hgreedy => ?_, ?_⟩
    · exact List.forall_mem_cons.2 ⟨hroot hgreedy, h.root hgreedy⟩
    · rw [← happend]
      exact h.agree

theorem exists_insertAll_cons_iff {u : Usage} {us : List Usage} :
    (∃ g', g.insertAll (u :: us) = .ok g') ↔
      ∃ number g₁, g.insert u = .ok (number, g₁) ∧ ∃ g', g₁.insertAll us = .ok g' := by
  unfold Grammar.insertAll
  rw [List.foldlM_cons]
  cases g.insert u with
  | error e =>
    constructor
    · rintro ⟨g', h⟩
      cases h
    · rintro ⟨number, g₁, h, -⟩
      cases h
  | ok found =>
    constructor
    · rintro ⟨g', h⟩
      exact ⟨found.1, found.2, rfl, g', h⟩
    · rintro ⟨number, g₁, h, g', hg'⟩
      obtain rfl := Except.ok.inj h
      exact ⟨g', hg'⟩

/-- A usage of a new form is inserted if it has no fault and the tree grows. -/
theorem exists_insert_eq_ok_iff {u : Usage} (hfind : g.usages.findIdx? (·.sameForm u) = none)
    {P : Grammar → Prop} :
    (∃ number g', g.insert u = .ok (number, g') ∧ P g') ↔ u.fault? g.command = none ∧
      ∃ s, g.grow ⟨g.usages.length, u⟩ = .ok s ∧ P ⟨s.1, g.usages ++ [u]⟩ := by
  constructor
  · rintro ⟨number, g', h, hP⟩
    obtain ⟨hfault, ⟨hknown, -⟩ | ⟨-, -, husages, next, hgrow⟩⟩ := insert_eq_ok_iff.1 h
    · rw [hfind] at hknown
      cases hknown
    · refine ⟨hfault, _, hgrow, ?_⟩
      rw [← husages]
      exact hP
  · rintro ⟨hfault, ⟨tree, next⟩, hgrow, hP⟩
    exact ⟨_, _, insert_eq_ok_iff.2 ⟨hfault, .inr ⟨hfind, rfl, rfl, next, hgrow⟩⟩, hP⟩

/-- **Which usages are accepted.** Declared usages can be inserted in turn exactly if none has a fault
of its own, only default usages go on below a greedy root, and no path is marked in two ways. -/
theorem Reachable.exists_insertAll_eq_ok_iff (hg : Reachable root g)
    (hold : ∀ u ∈ g.usages, u.Declared) {us : List Usage} (hus : ∀ u ∈ us, u.Declared) :
    (∃ g', g.insertAll us = .ok g') ↔ Admits root g.usages us := by
  induction us generalizing g with
  | nil =>
    refine iff_of_true ⟨g, rfl⟩ ⟨by simp, by simp, ?_⟩
    intro path b b' hb hb'
    rw [List.append_nil] at hb hb'
    exact ((hg.marked_iff path b).2 (.inr hb)).unique ((hg.marked_iff path b').2 (.inr hb'))
  | cons u us ih =>
    obtain ⟨hu, hus⟩ := List.forall_mem_cons.1 hus
    have hcommand : g.command = root.name := by
      rw [command, Node.name, hg.root_parameter]
    rw [exists_insertAll_cons_iff]
    cases hfind : g.usages.findIdx? (·.sameForm u) with
    | some number =>
      -- Nothing is inserted, and the usage that is there has made the same marks.
      obtain ⟨hlt, hform, -⟩ := List.findIdx?_eq_some_iff_getElem.1 hfind
      have hmem : g.usages[number] ∈ g.usages := List.getElem_mem hlt
      have hroot : root.greedy = true →
          g.usages[number].isDefault = true ∨ g.usages[number].parameters = [] := by
        intro hgreedy
        cases hdefault : g.usages[number].isDefault with
        | true => exact .inl rfl
        | false => exact .inr (hg.parameters_eq_nil hgreedy _ hmem hdefault)
      rw [admits_cons_of_sameForm hmem hform hroot, ← ih hg hold hus, ← hcommand]
      constructor
      · rintro ⟨number', g₁, h, hrest⟩
        obtain ⟨hfault, ⟨-, rfl⟩ | ⟨hnone, -⟩⟩ := insert_eq_ok_iff.1 h
        · exact ⟨hfault, hrest⟩
        · rw [hfind] at hnone
          cases hnone
      · rintro ⟨hfault, hrest⟩
        exact ⟨number, g, insert_eq_ok_iff.2 ⟨hfault, .inl ⟨hfind, rfl⟩⟩, hrest⟩
    | none =>
      rw [exists_insert_eq_ok_iff hfind, hg.admits_cons_iff, hcommand]
      refine and_congr_right fun hfault => ?_
      rw [← and_assoc, ← exists_grow_eq_ok_iff (u := ⟨g.usages.length, u⟩) (hg.capped hold) hu
        (Usage.wellFormed_of_fault?_eq_none hfault), ← exists_and_right]
      refine exists_congr fun s => and_congr_right fun hgrow => ?_
      have hinsert : g.insert u = .ok (g.usages.length, ⟨s.1, g.usages ++ [u]⟩) :=
        insert_eq_ok_iff.2 ⟨by rw [hcommand]; exact hfault, .inr ⟨hfind, rfl, rfl, s.2, hgrow⟩⟩
      have hdeclared : ∀ v ∈ g.usages ++ [u], v.Declared := by
        intro v hv
        rcases List.mem_append.1 hv with hv | hv
        · exact hold v hv
        · rwa [List.mem_singleton.1 hv]
      exact ih (hg.insert hinsert) hdeclared hus

end Grammar

end CommandLanguage

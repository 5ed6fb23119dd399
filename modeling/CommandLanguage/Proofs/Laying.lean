import CommandLanguage.Proofs.Numbering

/-!
# Laying ways

What inserting usages makes of a tree, but for the numbers and the permissions of its nodes, in a
closed form: the ways of typing are laid down one after the other, each along the children in the
slots of its parameters, and what is missing is made (`Node.lay`). The tree of a grammar that can be
built is that of its usages laid down in turn (`Grammar.Reachable.bare_eq`).

How a laid tree looks can be told one slot at a time. Below a slot lie the rests of the ways that
begin in it (`Node.Laid`), siblings of a kind stand as if only the ways that begin with that kind
had been laid (`Node.kin_layAll`), and laying ways again changes nothing (`Node.layAll_again`).
-/

namespace CommandLanguage

namespace Node

/-! ## Bare trees -/

/-- A tree without the numbers and the permissions of its nodes. -/
def bare : Node → Node
  | ⟨data, children⟩ => ⟨{ data with id := 0, permission := none }, bareAll children⟩
where
  bareAll : List Node → List Node
    | [] => []
    | c :: cs => c.bare :: bareAll cs

/-- A node that has just been made. -/
def sprout (p : Parameter) : Node :=
  ⟨⟨0, p, none, none, none⟩, []⟩

theorem bareAll_eq_map (cs : List Node) : bare.bareAll cs = cs.map bare := by
  induction cs with
  | nil => rfl
  | cons c cs ih => simp [bare.bareAll, ih]

theorem bare_eq (n : Node) :
    n.bare = ⟨{ n.toNodeData with id := 0, permission := none }, n.children.map bare⟩ := by
  rcases n with ⟨data, children⟩
  rw [bare, bareAll_eq_map]

@[simp] theorem children_bare (n : Node) : n.bare.children = n.children.map bare := by
  rw [bare_eq]

@[simp] theorem parameter_bare (n : Node) : n.bare.parameter = n.parameter := by
  rw [bare_eq]

@[simp] theorem terminal_bare (n : Node) : n.bare.terminal = n.terminal := by
  rw [bare_eq]

@[simp] theorem fallback_bare (n : Node) : n.bare.fallback = n.fallback := by
  rw [bare_eq]

@[simp] theorem siblingPriority_bare (n : Node) : n.bare.siblingPriority = n.siblingPriority := by
  simp [siblingPriority]

@[simp] theorem isLiteral_bare (n : Node) : n.bare.isLiteral = n.isLiteral := by
  rw [isLiteral, parameter_bare, isLiteral]

@[simp] theorem isFlag_bare (n : Node) : n.bare.isFlag = n.isFlag := by
  rw [isFlag, parameter_bare, isFlag]

@[simp] theorem isGreedy_bare (n : Node) : n.bare.isGreedy = n.isGreedy := by
  rw [isGreedy, parameter_bare, isGreedy]

@[simp] theorem isSkippable_bare (n : Node) : n.bare.isSkippable = n.isSkippable := by
  rw [isSkippable, isOptional, parameter_bare, isFlag_bare, isSkippable, isOptional]

@[simp] theorem resolved?_bare (n : Node) : n.bare.resolved? = n.resolved? := by
  simp [resolved?]

@[simp] theorem parameter_sprout (p : Parameter) : (sprout p).parameter = p := rfl

@[simp] theorem children_sprout (p : Parameter) : (sprout p).children = [] := rfl

/-- Giving permissions leaves the bare tree. -/
theorem Repermitted.bare_eq {n n' : Node} (h : n.Repermitted n') : n'.bare = n.bare := by
  induction n using Node.induction generalizing n' with
  | step n ih =>
    rcases h with ⟨own, delimiter, base, rfl⟩
    rw [Node.bare_eq, Node.bare_eq n]
    simp only [permitAll_eq_map, List.map_map]
    have hchildren : n.children.map (bare ∘ permit delimiter base) = n.children.map bare :=
      List.map_congr_left fun c hc => ih c hc (repermitted_permit delimiter base c)
    rw [hchildren]

/-! ## The child in a slot -/

/-- A node with a child in the slot of a parameter, in place of the one that is there if there is
one. -/
def putChild (n : Node) (p : Parameter) (c : Node) : Node :=
  match n.child? p with
  | some _ => { n with children := replaceSibling p c n.children }
  | none => { n with children := insertSibling c n.children }

/-- The child in the slot of a parameter, or else a new one. -/
def childOr (n : Node) (p : Parameter) : Node :=
  (n.child? p).getD (sprout p)

section PutChild

variable {n c c' : Node} {p q : Parameter}

@[simp] theorem parameter_putChild : (n.putChild p c).parameter = n.parameter := by
  unfold putChild
  split <;> rfl

@[simp] theorem terminal_putChild : (n.putChild p c).terminal = n.terminal := by
  unfold putChild
  split <;> rfl

theorem slot_childOr (n : Node) (p : Parameter) : (n.childOr p).parameter.slot = p.slot := by
  unfold childOr
  cases hchild : n.child? p with
  | none => rfl
  | some c => exact slot_of_child? hchild

/-- What is put in a slot is found there, and the other slots stay as they are. -/
theorem child?_putChild (hc : c.parameter.slot = p.slot) (q : Parameter) :
    (n.putChild p c).child? q = if q.slot = p.slot then some c else n.child? q := by
  unfold putChild
  cases hchild : n.child? p with
  | some old =>
    rw [child?_eq, child?_eq]
    exact find?_replaceSibling q.slot hchild hc
  | none =>
    have hnone : n.children.find? (·.parameter.slot == c.parameter.slot) = none := by
      rw [hc, ← child?_eq]
      exact hchild
    rw [child?_eq, child?_eq, ← hc]
    exact find?_insertSibling q.slot hnone

/-- Putting back the child that is there changes nothing. -/
theorem putChild_of_child? (h : n.child? p = some c) : n.putChild p c = n := by
  rcases exists_replaceSibling_eq h with ⟨front, back, hchildren, hreplace⟩
  simp only [putChild, h]
  rw [hreplace, ← hchildren]
  cases n
  rfl

/-- Of two children put in one slot the second stays, where the first stood. -/
theorem putChild_putChild (hc : c.parameter.slot = p.slot)
    (hparameter : c'.parameter = c.parameter) :
    (n.putChild p c).putChild p c' = n.putChild p c' := by
  have hsame : c.parameter.sameSlot p = true := Parameter.sameSlot_iff_slot_eq.2 hc
  have hpriority : c'.siblingPriority = c.siblingPriority :=
    congrArg Parameter.siblingPriority hparameter
  have hreplace : ∀ cs : List Node,
      replaceSibling p c' (replaceSibling p c cs) = replaceSibling p c' cs := by
    intro cs
    induction cs with
    | nil => rfl
    | cons s cs ih =>
      by_cases hs : s.parameter.sameSlot p = true
      · simp [replaceSibling, hs, hsame]
      · simp [replaceSibling, hs, ih]
  -- A child that has been inserted is the first in its slot.
  have hinsert : ∀ cs : List Node, cs.find? (·.parameter.sameSlot p) = none →
      replaceSibling p c' (insertSibling c cs) = insertSibling c' cs := by
    intro cs hnone
    induction cs with
    | nil => simp [insertSibling, replaceSibling, hsame]
    | cons s cs ih =>
      rw [List.find?_cons] at hnone
      cases hs : s.parameter.sameSlot p with
      | true => simp [hs] at hnone
      | false =>
        rw [insertSibling, insertSibling, hpriority]
        split
        · simp [replaceSibling, hsame]
        · simp [replaceSibling, hs, ih (by simpa [hs] using hnone)]
  have hfound : (n.putChild p c).child? p = some c := by simp [child?_putChild hc]
  cases hchild : n.child? p with
  | some old =>
    unfold putChild
    simp only [hchild]
    unfold putChild at hfound
    simp only [hchild] at hfound
    simp [hfound, hreplace]
  | none =>
    unfold putChild
    simp only [hchild]
    unfold putChild at hfound
    simp only [hchild] at hfound
    simp [hfound, hinsert n.children hchild]

theorem child?_bare (n : Node) (p : Parameter) : n.bare.child? p = (n.child? p).map bare := by
  unfold child?
  rw [children_bare, List.find?_map]
  simp only [Function.comp_def, parameter_bare]

theorem childOr_bare (n : Node) (p : Parameter) (id : Nat) :
    n.bare.childOr p = ((n.child? p).getD (leaf id p)).bare := by
  unfold childOr
  rw [child?_bare]
  cases n.child? p <;> rfl

/-- Putting a child in a slot is the same on bare trees. -/
theorem bare_putChild (n c : Node) (p : Parameter) :
    (n.putChild p c).bare = n.bare.putChild p c.bare := by
  have hreplace : ∀ cs : List Node,
      (replaceSibling p c cs).map bare = replaceSibling p c.bare (cs.map bare) := by
    intro cs
    induction cs with
    | nil => rfl
    | cons s cs ih =>
      by_cases hs : s.parameter.sameSlot p = true
      · simp [replaceSibling, hs]
      · simp [replaceSibling, hs, ih]
  have hinsert : ∀ cs : List Node,
      (insertSibling c cs).map bare = insertSibling c.bare (cs.map bare) := by
    intro cs
    induction cs with
    | nil => rfl
    | cons s cs ih =>
      by_cases hs : s.siblingPriority < c.siblingPriority
      · simp [insertSibling, hs]
      · simp [insertSibling, hs, ih]
  unfold putChild
  rw [child?_bare]
  cases n.child? p with
  | some old => simp [bare_eq, hreplace]
  | none => simp [bare_eq, hinsert]

end PutChild

/-! ## Laying ways -/

/-- A tree after laying down a way of typing, at whose end a usage is received. -/
def lay (u : NumberedUsage) : List Parameter → Node → Node
  | [], n => n.receive u
  | p :: ps, n => n.putChild p (lay u ps (n.childOr p))

/-- A tree after laying down ways of typing in turn. -/
def layAll (u : NumberedUsage) (ways : List (List Parameter)) (n : Node) : Node :=
  ways.foldl (fun n way => lay u way n) n

section Lay

variable {u : NumberedUsage} {n : Node} {p : Parameter} {way : List Parameter}
  {ways : List (List Parameter)}

@[simp] theorem layAll_nil : layAll u [] n = n := rfl

@[simp] theorem layAll_cons : layAll u (way :: ways) n = layAll u ways (lay u way n) := rfl

theorem layAll_append (ways' : List (List Parameter)) :
    layAll u (ways ++ ways') n = layAll u ways' (layAll u ways n) :=
  List.foldl_append

@[simp] theorem parameter_lay : (lay u way n).parameter = n.parameter := by
  cases way with
  | nil => exact (receive_extends u n).parameter
  | cons p ps => exact parameter_putChild

@[simp] theorem parameter_layAll : (layAll u ways n).parameter = n.parameter := by
  induction ways generalizing n with
  | nil => rfl
  | cons way ways ih => rw [layAll_cons, ih, parameter_lay]

/-- Laying ways that begin with one parameter is laying their rests below it. -/
theorem layAll_map_cons (hways : ways ≠ []) :
    layAll u (ways.map (p :: ·)) n = n.putChild p (layAll u ways (n.childOr p)) := by
  have hslot : ∀ way : List Parameter, (lay u way (n.childOr p)).parameter.slot = p.slot := by
    intro way
    rw [parameter_lay, slot_childOr]
  induction ways generalizing n with
  | nil => exact absurd rfl hways
  | cons way ways ih =>
    rw [List.map_cons, layAll_cons, layAll_cons]
    by_cases hrest : ways = []
    · subst hrest
      rfl
    · have hfound : (lay u (p :: way) n).childOr p = lay u way (n.childOr p) := by
        rw [lay, childOr, child?_putChild (hslot way)]
        simp
      rw [ih hrest (by rw [hfound]; intro way'; simp [slot_childOr]), hfound, lay,
        putChild_putChild (hslot way) (by simp)]

theorem bare_receive (u : NumberedUsage) (n : Node) : (n.receive u).bare = n.bare.receive u := by
  unfold receive
  split
  · simp [bare_eq]
  · unfold bind
    rw [terminal_bare]
    cases n.terminal with
    | none => simp [bare_eq]
    | some held =>
      dsimp only
      split
      · rfl
      · simp [bare_eq]

/-- Growing by ways of typing is laying them down. -/
theorem lay_law (u : NumberedUsage) :
    Growth.Law fun ways s s' => s'.1.bare = layAll u ways s.1.bare where
  refl _ := rfl
  trans := by
    intro ways ways' s s' s'' h h'
    rw [layAll_append, ← h, h']
  replace := by
    intro ways p n c c' next next' hways hchild _ hc
    have hput : { n with children := replaceSibling p c' n.children } = n.putChild p c' := by
      simp [putChild, hchild]
    have hbelow : n.bare.childOr p = c.bare := by
      rw [childOr_bare n p next, hchild]
      rfl
    rw [layAll_map_cons hways, hbelow, ← hc]
    dsimp only
    rw [hput, bare_putChild]
  make := by
    intro ways p n c' next next' hways hchild hc
    have hput : { n with children := insertSibling c' n.children } = n.putChild p c' := by
      simp [putChild, hchild]
    have hbelow : n.bare.childOr p = (leaf next p).bare := by
      rw [childOr_bare n p next, hchild]
      rfl
    rw [layAll_map_cons hways, hbelow, ← hc]
    dsimp only
    rw [hput, bare_putChild]

end Lay

/-! ## What lies already -/

section Lies

variable {u : NumberedUsage} {n n' : Node} {p : Parameter} {ps way : List Parameter}

theorem childOr_putChild {c : Node} (hc : c.parameter.slot = p.slot) :
    (n.putChild p c).childOr p = c := by
  simp [childOr, child?_putChild hc]

/-- A way lies in a tree if its rest lies in the child in its first slot. -/
theorem lay_cons_eq_self_iff :
    lay u (p :: ps) n = n ↔ ∃ c, n.child? p = some c ∧ lay u ps c = c := by
  have hslot : (lay u ps (n.childOr p)).parameter.slot = p.slot := by
    rw [parameter_lay, slot_childOr]
  constructor
  · intro h
    rw [lay] at h
    have hfound : n.child? p = some (lay u ps (n.childOr p)) := by
      have hput := child?_putChild (n := n) hslot p
      rw [h] at hput
      simpa using hput
    have hor : n.childOr p = lay u ps (n.childOr p) := by
      have hput := childOr_putChild (n := n) hslot
      rwa [h] at hput
    exact ⟨n.childOr p, by rw [hfound, ← hor], hor.symm⟩
  · rintro ⟨c, hchild, hc⟩
    have hor : n.childOr p = c := by simp [childOr, hchild]
    rw [lay, hor, hc, putChild_of_child? hchild]

theorem receive_receive (u : NumberedUsage) (n : Node) : (n.receive u).receive u = n.receive u := by
  unfold receive
  split
  · rfl
  · unfold bind
    cases hterminal : n.terminal with
    | none => simp
    | some held =>
      by_cases hkeep : held.number = u.number ∨
          held.usage.parameters.length < u.usage.parameters.length
      · simp [hkeep, hterminal]
      · simp [hkeep]

/-- A way that has been laid lies there. -/
theorem lay_lay (u : NumberedUsage) (way : List Parameter) (n : Node) :
    lay u way (lay u way n) = lay u way n := by
  induction way generalizing n with
  | nil => exact receive_receive u n
  | cons p ps ih =>
    refine lay_cons_eq_self_iff.2 ⟨lay u ps (n.childOr p), ?_, ih _⟩
    rw [lay, child?_putChild (by rw [parameter_lay, slot_childOr])]
    simp

theorem child?_receive (u : NumberedUsage) (n : Node) (p : Parameter) :
    (n.receive u).child? p = n.child? p := by
  unfold child?
  rw [children_receive]

/-- Where a usage has been received, it changes nothing if more is put below. -/
theorem receive_putChild {c : Node} (h : n.receive u = n) :
    (n.putChild p c).receive u = n.putChild p c := by
  have hdata : ∀ cs : List Node, ({ n with children := cs } : Node).receive u =
      { (n.receive u) with children := cs } := by
    intro cs
    unfold receive bind
    split
    · rfl
    · dsimp only
      split
      · split <;> rfl
      · rfl
  unfold putChild
  split
  · rw [hdata, h]
  · rw [hdata, h]

/-- A way that lies in a tree still does after another has been laid. -/
theorem lay_eq_self_of_lay {way' : List Parameter} (h : lay u way n = n) :
    lay u way (lay u way' n) = lay u way' n := by
  induction way generalizing n way' with
  | nil =>
    cases way' with
    | nil => exact receive_receive u n
    | cons q qs => exact receive_putChild h
  | cons p ps ih =>
    rcases lay_cons_eq_self_iff.1 h with ⟨c, hchild, hc⟩
    cases way' with
    | nil => exact lay_cons_eq_self_iff.2 ⟨c, by rw [lay, child?_receive, hchild], hc⟩
    | cons q qs =>
      have hslot : (lay u qs (n.childOr q)).parameter.slot = q.slot := by
        rw [parameter_lay, slot_childOr]
      by_cases hpq : p.slot = q.slot
      · have hor : n.childOr q = c := by
          have hchild' : n.child? q = some c := by
            rw [child?_eq, ← hpq, ← child?_eq]
            exact hchild
          simp [childOr, hchild']
        refine lay_cons_eq_self_iff.2 ⟨lay u qs c, ?_, ih hc⟩
        rw [lay, child?_putChild hslot, if_pos hpq, hor]
      · refine lay_cons_eq_self_iff.2 ⟨c, ?_, hc⟩
        rw [lay, child?_putChild hslot, if_neg hpq, hchild]

/-- Laying ways again changes nothing. -/
theorem layAll_again {ways ways' : List (List Parameter)} (hways : ways' ⊆ ways) (n : Node) :
    layAll u ways' (layAll u ways n) = layAll u ways n := by
  have hkeep : ∀ (way : List Parameter) (ways : List (List Parameter)) (n : Node),
      lay u way n = n → lay u way (layAll u ways n) = layAll u ways n := by
    intro way ways
    induction ways with
    | nil => exact fun n h => h
    | cons way' ways ih => exact fun n h => ih _ (lay_eq_self_of_lay h)
  have hlies : ∀ way ∈ ways, lay u way (layAll u ways n) = layAll u ways n := by
    clear hways
    induction ways generalizing n with
    | nil => simp
    | cons way' ways ih =>
      refine List.forall_mem_cons.2 ⟨hkeep way' ways _ (lay_lay u way' n), ?_⟩
      exact ih (lay u way' n)
  induction ways' with
  | nil => rfl
  | cons way ways' ih =>
    rw [layAll_cons, hlies way (hways List.mem_cons_self)]
    exact ih fun w hw => hways (List.mem_cons_of_mem _ hw)

end Lies

/-! ## Siblings of a kind -/

/-- Whether siblings stand in the order of their priorities. -/
def Sorted (cs : List Node) : Prop :=
  cs.Pairwise fun c d => d.siblingPriority ≤ c.siblingPriority

section Sorted

variable {c s : Node} {cs : List Node} {p : Parameter}

theorem sorted_insertSibling (h : Sorted cs) : Sorted (insertSibling c cs) := by
  induction cs with
  | nil => simp [insertSibling, Sorted]
  | cons s cs ih =>
    rcases List.pairwise_cons.1 h with ⟨hs, hcs⟩
    rw [insertSibling]
    split
    · rename_i hlower
      refine List.pairwise_cons.2 ⟨?_, h⟩
      refine List.forall_mem_cons.2 ⟨Int.le_of_lt hlower, ?_⟩
      intro d hd
      exact Int.le_trans (hs d hd) (Int.le_of_lt hlower)
    · rename_i hnotLower
      refine List.pairwise_cons.2 ⟨?_, ih hcs⟩
      intro d hd
      rcases mem_insertSibling_iff.1 hd with rfl | hd
      · exact Int.not_lt.1 hnotLower
      · exact hs d hd

theorem sorted_replaceSibling (h : Sorted cs) (hfind : cs.find? (·.parameter.sameSlot p) = some s)
    (hparameter : c.parameter = s.parameter) : Sorted (replaceSibling p c cs) := by
  have hpriority : c.siblingPriority = s.siblingPriority :=
    congrArg Parameter.siblingPriority hparameter
  rcases exists_replaceSibling_eq hfind with ⟨front, back, rfl, hreplace⟩
  rw [hreplace]
  simp only [Sorted, List.pairwise_append, List.pairwise_cons, List.forall_mem_cons] at h ⊢
  rw [hpriority]
  exact h

theorem sorted_putChild {n : Node} (h : Sorted n.children)
    (hparameter : c.parameter = (n.childOr p).parameter) : Sorted (n.putChild p c).children := by
  unfold putChild
  cases hchild : n.child? p with
  | some s => exact sorted_replaceSibling h hchild (by simpa [childOr, hchild] using hparameter)
  | none => exact sorted_insertSibling h

/-- Taking the siblings of a kind goes with adding one of the kind, where they stand in order. -/
theorem filter_insertSibling {keep : Node → Bool} (hc : keep c = true) (h : Sorted cs) :
    (insertSibling c cs).filter keep = insertSibling c (cs.filter keep) := by
  induction cs with
  | nil => simp [insertSibling, hc]
  | cons s cs ih =>
    rcases List.pairwise_cons.1 h with ⟨hs, hcs⟩
    by_cases hlower : s.siblingPriority < c.siblingPriority
    · have hfirst : ∀ ds : List Node, (∀ d ∈ ds, d.siblingPriority < c.siblingPriority) →
          insertSibling c ds = c :: ds := by
        intro ds hds
        cases ds with
        | nil => rfl
        | cons d ds => simp [insertSibling, hds d List.mem_cons_self]
      have hall : ∀ d ∈ (s :: cs).filter keep, d.siblingPriority < c.siblingPriority := by
        intro d hd
        rcases List.mem_cons.1 (List.mem_filter.1 hd).1 with rfl | hd
        · exact hlower
        · exact Int.lt_of_le_of_lt (hs d hd) hlower
      rw [hfirst _ hall, insertSibling, if_pos hlower, List.filter_cons_of_pos hc]
    · rw [insertSibling, if_neg hlower]
      by_cases hkeep : keep s = true
      · rw [List.filter_cons_of_pos hkeep, List.filter_cons_of_pos hkeep, insertSibling,
          if_neg hlower, ih hcs]
      · rw [List.filter_cons_of_neg hkeep, List.filter_cons_of_neg hkeep, ih hcs]

end Sorted

/-- The children of a node in slots of a kind. -/
def kin (n : Node) (kind : Slot → Bool) : List Node :=
  n.children.filter fun c => kind c.parameter.slot

section Kin

variable {u : NumberedUsage} {kind : Slot → Bool} {n n' c : Node} {p : Parameter}

/-- Putting a child in a slot of another kind leaves the children of a kind. -/
theorem kin_putChild_of_not (hkind : kind p.slot = false) (hc : c.parameter.slot = p.slot) :
    (n.putChild p c).kin kind = n.kin kind := by
  unfold kin putChild
  cases hchild : n.child? p with
  | some s =>
    have hs : s.parameter.slot = p.slot := slot_of_child? hchild
    rcases exists_replaceSibling_eq hchild with ⟨front, back, hchildren, hreplace⟩
    dsimp only
    rw [hreplace, hchildren]
    simp [List.filter_append, hc, hs, hkind]
  | none =>
    dsimp only
    have hinsert : ∀ cs : List Node,
        (insertSibling c cs).filter (fun c => kind c.parameter.slot) =
          cs.filter fun c => kind c.parameter.slot := by
      intro cs
      induction cs with
      | nil => simp [insertSibling, hc, hkind]
      | cons s cs ih =>
        rw [insertSibling]
        split
        · simp [hc, hkind]
        · simp [List.filter_cons, ih]
    exact hinsert n.children

/-- The child in a slot of a kind is told by the children of that kind. -/
theorem child?_eq_find?_kin (hkind : kind p.slot = true) :
    n.child? p = (n.kin kind).find? (·.parameter.slot == p.slot) := by
  rw [child?_eq, kin, List.find?_filter]
  congr
  funext d
  by_cases hd : d.parameter.slot = p.slot
  · simp [hd, hkind]
  · simp [hd]

/-- The children of a kind after a child has been put in a slot of that kind are told by those
before. -/
theorem kin_putChild (hkind : kind p.slot = true) (hc : c.parameter.slot = p.slot)
    (hn : Sorted n.children) (hn' : Sorted n'.children) (h : n.kin kind = n'.kin kind) :
    (n.putChild p c).kin kind = (n'.putChild p c).kin kind := by
  have hchild : n'.child? p = n.child? p := by
    rw [child?_eq_find?_kin hkind, child?_eq_find?_kin hkind, h]
  have hreplace : ∀ cs : List Node,
      (replaceSibling p c cs).filter (fun c => kind c.parameter.slot) =
        replaceSibling p c (cs.filter fun c => kind c.parameter.slot) := by
    intro cs
    induction cs with
    | nil => rfl
    | cons s cs ih =>
      by_cases hs : s.parameter.sameSlot p = true
      · have hslot := Parameter.sameSlot_iff_slot_eq.1 hs
        simp [replaceSibling, hs, hslot, hc, hkind]
      · by_cases hskind : kind s.parameter.slot = true
        · simp [replaceSibling, hs, hskind, ih]
        · simp [replaceSibling, hs, hskind, ih]
  have hckind : kind c.parameter.slot = true := by rw [hc, hkind]
  unfold kin at h ⊢
  unfold putChild
  rw [hchild]
  cases n.child? p with
  | some s => simp only [hreplace, h]
  | none =>
    dsimp only
    rw [filter_insertSibling hckind hn, filter_insertSibling hckind hn', h]

/-- Whether a way begins in a slot of a kind, if it has not ended. -/
def beginsIn (kind : Slot → Bool) : List Parameter → Bool
  | [] => true
  | p :: _ => kind p.slot

theorem children_lay_nil (u : NumberedUsage) (n : Node) : (lay u [] n).children = n.children :=
  children_receive u n

theorem sorted_lay {way : List Parameter} (h : Sorted n.children) :
    Sorted (lay u way n).children := by
  cases way with
  | nil =>
    rw [children_lay_nil]
    exact h
  | cons p ps => exact sorted_putChild h (by rw [parameter_lay])

/-- The children of a kind are those of the ways that begin in slots of that kind. -/
theorem kin_layAll {ways : List (List Parameter)} (hn : Sorted n.children)
    (hn' : Sorted n'.children) (h : n.kin kind = n'.kin kind) :
    (layAll u ways n).kin kind = (layAll u (ways.filter (beginsIn kind)) n').kin kind := by
  induction ways generalizing n n' with
  | nil => exact h
  | cons way ways ih =>
    rw [layAll_cons]
    cases way with
    | nil =>
      rw [List.filter_cons_of_pos rfl, layAll_cons]
      refine ih (sorted_lay hn) (sorted_lay hn') ?_
      unfold kin at h ⊢
      rw [children_lay_nil, children_lay_nil, h]
    | cons p ps =>
      have hslot : (lay u ps (n.childOr p)).parameter.slot = p.slot := by
        rw [parameter_lay, slot_childOr]
      cases hkind : kind p.slot with
      | true =>
        rw [List.filter_cons_of_pos (by exact hkind), layAll_cons]
        refine ih (sorted_lay hn) (sorted_lay hn') ?_
        have hor : n'.childOr p = n.childOr p := by
          unfold childOr
          rw [child?_eq_find?_kin hkind, child?_eq_find?_kin hkind, h]
        rw [lay, lay, hor]
        exact kin_putChild hkind hslot hn hn' h
      | false =>
        rw [List.filter_cons_of_neg (by simp [beginsIn, hkind])]
        refine ih (sorted_lay hn) hn' ?_
        rw [lay, kin_putChild_of_not hkind hslot, h]

theorem kin_layAll_sprout (u : NumberedUsage) (kind : Slot → Bool) (ways : List (List Parameter))
    (p : Parameter) : (layAll u ways (sprout p)).kin kind =
      (layAll u (ways.filter (beginsIn kind)) (sprout p)).kin kind :=
  kin_layAll (by simp [Sorted]) (by simp [Sorted]) rfl

end Kin

/-! ## Laid trees -/

/-- What is left of a way below a slot, if it begins there. -/
def rest? (slot : Slot) : List Parameter → Option (List Parameter)
  | [] => none
  | p :: ps => if p.slot = slot then some ps else none

/-- What is left of ways below a slot. -/
def rests (slot : Slot) (ways : List (List Parameter)) : List (List Parameter) :=
  ways.filterMap (rest? slot)

/-- Whether a node is what laying ways from nothing has made. -/
structure Laid (u : NumberedUsage) (ways : List (List Parameter)) (n : Node) : Prop where
  terminal : n.terminal = if [] ∈ ways then some u else none
  /-- Below a slot lie the rests of the ways that begin in it. -/
  child : ∀ c ∈ n.children, c = layAll u (rests c.parameter.slot ways) (sprout c.parameter)
  origin : ∀ c ∈ n.children, ∃ ps, c.parameter :: ps ∈ ways
  covers : ∀ p ps, p :: ps ∈ ways → ∃ c ∈ n.children, c.parameter.slot = p.slot
  nodup : (n.children.map (·.parameter.slot)).Nodup
  sorted : Sorted n.children

section Laid

variable {u : NumberedUsage} {n c d : Node} {p : Parameter} {ways : List (List Parameter)}

theorem nodup_putChild (h : (n.children.map (·.parameter.slot)).Nodup)
    (hc : c.parameter.slot = p.slot) :
    ((n.putChild p c).children.map (·.parameter.slot)).Nodup := by
  unfold putChild
  cases hchild : n.child? p with
  | some s =>
    dsimp only
    rw [map_slot_replaceSibling hc]
    exact h
  | none =>
    dsimp only
    rw [((insertSibling_perm c n.children).map _).nodup_iff, List.map_cons, List.nodup_cons]
    refine ⟨?_, h⟩
    intro hmem
    rcases List.mem_map.1 hmem with ⟨d, hd, hslot⟩
    rw [child?_eq] at hchild
    simpa [hslot, hc] using List.find?_eq_none.1 hchild d hd

/-- The children after one has been put in a slot are this one and those in other slots. -/
theorem mem_children_putChild (h : (n.children.map (·.parameter.slot)).Nodup)
    (hc : c.parameter.slot = p.slot) :
    d ∈ (n.putChild p c).children ↔ d = c ∨ d ∈ n.children ∧ d.parameter.slot ≠ p.slot := by
  have hfind : ∀ {m : Node}, (m.children.map (·.parameter.slot)).Nodup →
      (d ∈ m.children ↔ m.child? d.parameter = some d) := by
    intro m hm
    rw [child?_eq]
    constructor
    · intro hd
      have hsome : (m.children.find? (·.parameter.slot == d.parameter.slot)).isSome = true :=
        List.find?_isSome.2 ⟨d, hd, by simp⟩
      rcases Option.isSome_iff_exists.1 hsome with ⟨e, he⟩
      have hslot : e.parameter.slot = d.parameter.slot := by simpa using List.find?_some he
      rw [he, List.inj_on_of_nodup_map hm (List.mem_of_find?_eq_some he) hd hslot]
    · exact List.mem_of_find?_eq_some
  rw [hfind (nodup_putChild h hc), hfind h, child?_putChild hc]
  by_cases hslot : d.parameter.slot = p.slot
  · simp [hslot, eq_comm]
  · have hne : d ≠ c := by
      rintro rfl
      exact hslot hc
    simp [hslot, hne]

theorem rests_append (slot : Slot) (ways ways' : List (List Parameter)) :
    rests slot (ways ++ ways') = rests slot ways ++ rests slot ways' :=
  List.filterMap_append

theorem mem_rests_iff {slot : Slot} {ps : List Parameter} :
    ps ∈ rests slot ways ↔ ∃ p, p.slot = slot ∧ p :: ps ∈ ways := by
  unfold rests
  rw [List.mem_filterMap]
  constructor
  · rintro ⟨way, hway, hrest⟩
    cases way with
    | nil => simp [rest?] at hrest
    | cons p qs =>
      by_cases hslot : p.slot = slot
      · obtain rfl : qs = ps := by simpa [rest?, hslot] using hrest
        exact ⟨p, hslot, hway⟩
      · simp [rest?, hslot] at hrest
  · rintro ⟨p, hslot, hway⟩
    exact ⟨p :: ps, hway, by simp [rest?, hslot]⟩

/-- The child in a slot is what the rests of the ways below it have made. -/
theorem Laid.childOr (h : Laid u ways n) (p : Parameter) :
    n.childOr p = layAll u (rests p.slot ways) (sprout (n.childOr p).parameter) := by
  unfold Node.childOr
  cases hchild : n.child? p with
  | some c =>
    have hmem : c ∈ n.children := List.mem_of_find?_eq_some hchild
    rw [← slot_of_child? hchild]
    exact h.child c hmem
  | none =>
    have hnone : rests p.slot ways = [] := by
      refine List.eq_nil_iff_forall_not_mem.2 fun ps hps => ?_
      rcases mem_rests_iff.1 hps with ⟨q, hslot, hway⟩
      rcases h.covers q ps hway with ⟨c, hc, hcslot⟩
      rw [child?_eq] at hchild
      simpa [hcslot, hslot] using List.find?_eq_none.1 hchild c hc
    simp [hnone]

/-- A way that has ended adds the usage. -/
theorem Laid.lay_nil (hu : u.usage.isDefault = false) (h : Laid u ways n) :
    Laid u (ways ++ [[]]) (lay u [] n) := by
  have hrests : ∀ slot, rests slot (ways ++ [[]]) = rests slot ways := by
    intro slot
    simp [rests, rest?]
  have hchildren := children_lay_nil u n
  refine
    { terminal := ?terminal, child := ?child, origin := ?origin, covers := ?covers,
      nodup := ?nodup, sorted := ?sorted }
  case terminal =>
    have hterminal := h.terminal
    simp only [Node.lay, receive, hu, bind]
    split at hterminal
    · simp [hterminal]
    · simp [hterminal]
  case child =>
    rw [hchildren]
    intro c hc
    rw [hrests]
    exact h.child c hc
  case origin =>
    rw [hchildren]
    intro c hc
    rcases h.origin c hc with ⟨ps, hps⟩
    exact ⟨ps, List.mem_append_left _ hps⟩
  case covers =>
    rw [hchildren]
    intro p ps hps
    exact h.covers p ps (by simpa using hps)
  case nodup =>
    rw [hchildren]
    exact h.nodup
  case sorted =>
    rw [hchildren]
    exact h.sorted

/-- A way that goes on adds to the child in the slot of its first parameter. -/
theorem Laid.lay_cons (h : Laid u ways n) (p : Parameter) (ps : List Parameter) :
    Laid u (ways ++ [p :: ps]) (lay u (p :: ps) n) := by
  have hslot : (Node.lay u ps (n.childOr p)).parameter.slot = p.slot := by
    rw [parameter_lay, slot_childOr]
  have hmem := fun d => mem_children_putChild (d := d) h.nodup hslot
  rw [Node.lay]
  refine
    { terminal := ?terminal, child := ?child, origin := ?origin, covers := ?covers,
      nodup := nodup_putChild h.nodup hslot, sorted := sorted_putChild h.sorted (by simp) }
  case terminal =>
    rw [terminal_putChild, h.terminal]
    simp
  case child =>
    intro c hc
    rcases (hmem c).1 hc with rfl | ⟨hc, hne⟩
    · -- The child that has been put there has one more way below it.
      have hrests : rests p.slot (ways ++ [p :: ps]) = rests p.slot ways ++ [ps] := by
        simp [rests, rest?]
      rw [hslot, hrests, layAll_append, parameter_lay, ← h.childOr p]
      rfl
    · have hrests : rests c.parameter.slot (ways ++ [p :: ps]) = rests c.parameter.slot ways := by
        simp [rests, rest?, Ne.symm hne]
      rw [hrests]
      exact h.child c hc
  case origin =>
    intro c hc
    rcases (hmem c).1 hc with rfl | ⟨hc, -⟩
    · rw [parameter_lay]
      unfold Node.childOr
      cases hchild : n.child? p with
      | some c =>
        rcases h.origin c (List.mem_of_find?_eq_some hchild) with ⟨qs, hqs⟩
        exact ⟨qs, List.mem_append_left _ hqs⟩
      | none => exact ⟨ps, by simp⟩
    · rcases h.origin c hc with ⟨qs, hqs⟩
      exact ⟨qs, List.mem_append_left _ hqs⟩
  case covers =>
    intro q qs hqs
    by_cases hq : q.slot = p.slot
    · exact ⟨_, (hmem _).2 (.inl rfl), by rw [hslot, hq]⟩
    · rcases List.mem_append.1 hqs with hqs | hqs
      · rcases h.covers q qs hqs with ⟨c, hc, hcslot⟩
        exact ⟨c, (hmem c).2 (.inr ⟨hc, by rw [hcslot]; exact hq⟩), hcslot⟩
      · obtain ⟨rfl, -⟩ : q = p ∧ qs = ps := by simpa using hqs
        exact absurd rfl hq

theorem Laid.lay (hu : u.usage.isDefault = false) (h : Laid u ways n) (way : List Parameter) :
    Laid u (ways ++ [way]) (lay u way n) := by
  cases way with
  | nil => exact h.lay_nil hu
  | cons p ps => exact h.lay_cons p ps

/-- **Laying ways.** What laying ways from nothing makes. -/
theorem laid_layAll (hu : u.usage.isDefault = false) (ways : List (List Parameter))
    (p : Parameter) : Laid u ways (layAll u ways (sprout p)) := by
  have hmore : ∀ (more done : List (List Parameter)) (n : Node), Laid u done n →
      Laid u (done ++ more) (layAll u more n) := by
    intro more
    induction more with
    | nil => simp
    | cons way more ih =>
      intro done n h
      simpa using ih (done ++ [way]) _ (h.lay hu way)
  refine hmore ways [] _ ⟨rfl, ?_, ?_, ?_, ?_, ?_⟩
  · simp
  · simp
  · simp
  · simp
  · simp [Sorted]

end Laid

end Node

/-! ## Grammars -/

namespace Grammar

/-- What the tree of a grammar is but for numbers and permissions, told by its usages alone. -/
def laid (root : Parameter) (usages : List Usage) : Node :=
  usages.zipIdx.foldl (fun n (u, number) => Node.layAll ⟨number, u⟩ u.ways n) (Node.sprout root)

/-- **Closed form.** The tree of every grammar that can be built is that of its usages, laid down in
turn. -/
theorem Reachable.bare_eq {root : Parameter} {g : Grammar} (h : Reachable root g) :
    g.root.bare = laid root g.usages := by
  induction h with
  | new => rfl
  | @insert g g' u number _ hinsert ih =>
    rcases insert_cases hinsert with rfl | ⟨hu, husages, next, hgrow⟩
    · exact ih
    · have hlay := grow_law (Node.lay_law ⟨g.usages.length, u⟩)
        (fun n _ => Node.bare_receive _ n) hu hgrow
      rw [husages, laid, List.zipIdx_append, List.foldl_append]
      rw [laid] at ih
      rw [← ih]
      simpa using hlay
  | @assignPermissions g delimiter _ ih =>
    rw [(g.repermitted_assignPermissions delimiter).bare_eq, ih]
    rfl

end Grammar

end CommandLanguage

import CommandLanguage.Proofs.Growth
import CommandLanguage.Tree.Builder

/-!
# Rolling back

Whatever an insertion has done to an arena when it is refused, rolling back undoes it
(`Draft.rollback_of_revertible`). At every moment, undoing the journal, leaving out the new cells and
the references to them gives the arena that there was (`Draft.Revertible`). Making a cell adds one at
the end and a reference to it, which are left out; letting a cell hold a usage adds an entry to the
journal that undoes it. So each edit keeps this, and insertion, which consists of them, keeps it too
(`Draft.insert_keeps`).
-/

namespace CommandLanguage

/-! ## Edits that keep a property -/

namespace Edit

variable {α β : Type}

/-- The draft that an edit leaves, done or refused. -/
def leaves (x : Edit α) (d : Draft) : Draft :=
  match x.run d with
  | .ok _ d' => d'
  | .error _ d' => d'

/-- Whether an edit keeps a property of drafts, even if it is refused. -/
def Keeps (P : Draft → Prop) (x : Edit α) : Prop :=
  ∀ d, P d → P (x.leaves d)

namespace Keeps

variable {P : Draft → Prop}

theorem pure (a : α) : Keeps P (Pure.pure a : Edit α) :=
  fun _ h => h

theorem throw (e : GrammarError) : Keeps P (MonadExcept.throw e : Edit α) :=
  fun _ h => h

theorem modify {f : Draft → Draft} (hf : ∀ d, P d → P (f d)) :
    Keeps P (modify f : Edit PUnit) :=
  fun d h => hf d h

theorem bind {x : Edit α} {f : α → Edit β} (hx : Keeps P x) (hf : ∀ a, Keeps P (f a)) :
    Keeps P (x >>= f) := by
  intro d h
  have hmid := hx d h
  unfold leaves at hmid ⊢
  rw [EStateM.run_bind]
  cases hrun : x.run d with
  | error e d' =>
    rw [hrun] at hmid
    exact hmid
  | ok a d' =>
    rw [hrun] at hmid
    exact hf a d' hmid

/-- An edit that reads the draft first keeps what it keeps where it has been read. -/
theorem get_bind {f : Draft → Edit α} (hf : ∀ d, P d → P ((f d).leaves d)) :
    Keeps P (get >>= f) :=
  fun d h => hf d h

theorem forM {γ : Type} {f : γ → Edit PUnit} {xs : List γ} (hf : ∀ x, Keeps P (f x)) :
    Keeps P (xs.forM f) := by
  induction xs with
  | nil => exact pure _
  | cons x xs ih => exact bind (hf x) fun _ => ih

end Keeps

end Edit

/-! ## Undoing -/

namespace Cell

/-- A cell without references to cells from a number on. -/
def trim (mark : Nat) (c : Cell) : Cell :=
  { c with children := c.children.filter (· < mark) }

end Cell

/-- What undoing a change does to the cell at a number. -/
def Undo.onCell (i : Nat) (c : Cell) : Undo → Cell
  | .terminal n before => if n = i then { c with terminal := before } else c
  | .fallback n before => if n = i then { c with fallback := before } else c

/-- The entry of a journal for what a cell held in a role. -/
def Undo.ofRole : Role → Nat → Option NumberedUsage → Undo
  | .terminal => .terminal
  | .fallback => .fallback

/-- What undoing a journal does to the cell at a number. -/
def Undo.allOnCell (i : Nat) (journal : List Undo) (c : Cell) : Cell :=
  journal.foldl (Undo.onCell i) c

namespace Undo

/-- Undoing changes no references. -/
theorem allOnCell_children (i : Nat) (journal : List Undo) (c : Cell) (children : List Nat) :
    allOnCell i journal { c with children := children } =
      { allOnCell i journal c with children := children } := by
  induction journal generalizing c with
  | nil => rfl
  | cons u journal ih =>
    have hone : onCell i { c with children := children } u =
        { onCell i c u with children := children } := by
      cases u <;> (simp only [onCell]; split <;> rfl)
    simp only [allOnCell, List.foldl_cons] at ih ⊢
    rw [hone, ih]

theorem children_allOnCell (i : Nat) (journal : List Undo) (c : Cell) :
    (allOnCell i journal c).children = c.children := by
  have h := congrArg Cell.children (allOnCell_children i journal c c.children)
  simpa using h

end Undo

namespace Arena

variable {mark i : Nat} {a : Arena}

theorem getElem?_undo (hi : i < mark) (u : Undo) :
    (a.undo mark u)[i]? = a[i]?.map fun c => u.onCell i c := by
  cases u with
  | terminal n before =>
    simp only [undo, Undo.onCell]
    split
    · simp [List.getElem?_modify]
    · have hne : n ≠ i := by omega
      simp [hne]
  | fallback n before =>
    simp only [undo, Undo.onCell]
    split
    · simp [List.getElem?_modify]
    · have hne : n ≠ i := by omega
      simp [hne]

theorem getElem?_undoAll (hi : i < mark) (journal : List Undo) :
    (journal.foldl (·.undo mark) a)[i]? = a[i]?.map (Undo.allOnCell i journal) := by
  induction journal generalizing a with
  | nil => cases h : a[i]? <;> simp [h, Undo.allOnCell]
  | cons u journal ih =>
    rw [List.foldl_cons, ih, getElem?_undo hi, Option.map_map]
    rfl

theorem length_undoAll (journal : List Undo) :
    (journal.foldl (·.undo mark) a).length = a.length := by
  induction journal generalizing a with
  | nil => rfl
  | cons u journal ih =>
    rw [List.foldl_cons, ih]
    cases u <;> (simp only [undo]; split <;> simp)

/-! ## Adding cells -/

theorem length_addChild (n : Nat) (p : Parameter) : (a.addChild n p).length = a.length + 1 := by
  simp [addChild]

/-- What is at a number once a child has been added to a cell. -/
theorem getElem?_addChild (n : Nat) (p : Parameter) (i : Nat) :
    (a.addChild n p)[i]? =
      (if i = a.length then some (Cell.leaf a.length p (some n) (a.depthBelow n)) else a[i]?).map
        fun c => if n = i then
          { c with children := a.placeSibling a.length p.siblingPriority c.children } else c := by
  rw [addChild, List.getElem?_modify, Option.map_eq_map]
  congr 1
  split
  · rename_i hi
    subst hi
    simp
  · rename_i hi
    rcases Nat.lt_or_ge i a.length with hlt | hge
    · rw [List.getElem?_append_left hlt]
    · rw [List.getElem?_eq_none hge, List.getElem?_eq_none]
      simp only [List.length_append, List.length_singleton]
      omega

theorem mem_placeSibling_iff {c k : Nat} {priority : Priority} {ss : List Nat} :
    k ∈ a.placeSibling c priority ss ↔ k = c ∨ k ∈ ss := by
  induction ss with
  | nil => simp [placeSibling]
  | cons s ss ih =>
    rw [placeSibling]
    split
    · simp
    · rw [List.mem_cons, ih, List.mem_cons]
      exact or_left_comm

/-- Without the new sibling, siblings are as they were. -/
theorem filter_placeSibling {c : Nat} (hc : mark ≤ c) (priority : Priority) (ss : List Nat) :
    (a.placeSibling c priority ss).filter (· < mark) = ss.filter (· < mark) := by
  have hnot : ¬ c < mark := by omega
  induction ss with
  | nil => simp [placeSibling, hnot]
  | cons s ss ih =>
    rw [placeSibling]
    split
    · simp [List.filter_cons, hnot]
    · rw [List.filter_cons, List.filter_cons, ih]

end Arena

/-! ## Revertible drafts -/

namespace Draft

/-- Whether a draft can be turned back into an arena of `mark` cells. -/
structure Revertible (mark : Nat) (before : Arena) (d : Draft) : Prop where
  length : mark ≤ d.arena.length
  /-- Cells refer to cells of the arena. -/
  closed : ∀ (i : Nat) (c : Cell), d.arena[i]? = some c → ∀ k ∈ c.children, k < d.arena.length
  /-- Undoing the journal gives the cells that there were, but for references to new ones. -/
  restores : ∀ i < mark,
    d.arena[i]?.map (fun c => (Undo.allOnCell i d.journal c).trim mark) = before[i]?

variable {mark : Nat} {before : Arena} {d : Draft}

/-- At the beginning of an insertion there is nothing to undo. -/
theorem Revertible.start {a : Arena} (hclosed : ∀ (i : Nat) (c : Cell), a[i]? = some c → ∀ k ∈ c.children, k < a.length) :
    Revertible a.length a ⟨a, []⟩ := by
  refine ⟨Nat.le_refl _, hclosed, ?_⟩
  intro i hi
  cases hc : a[i]? with
  | none => simp
  | some c =>
    have hall : c.children.filter (· < a.length) = c.children := by
      rw [List.filter_eq_self]
      intro k hk
      simpa using hclosed i c hc k hk
    simp [Undo.allOnCell, Cell.trim, hall]

/-- **Rolling back** a revertible draft gives the arena that there was. -/
theorem rollback_of_revertible (h : d.Revertible mark before) (hlength : before.length = mark) :
    d.rollback mark = before := by
  unfold rollback Arena.truncate
  have hlengthAll : (d.journal.foldl (·.undo mark) d.arena).length = d.arena.length :=
    Arena.length_undoAll d.journal
  split
  · rename_i hle
    -- No cell has been made, so that no reference is left out.
    have heq : d.arena.length = mark := Nat.le_antisymm (hlengthAll ▸ hle) h.length
    apply List.ext_getElem?
    intro i
    rcases Nat.lt_or_ge i mark with hi | hi
    · rw [Arena.getElem?_undoAll hi, ← h.restores i hi]
      cases hc : d.arena[i]? with
      | none => rfl
      | some c =>
        have hall : (Undo.allOnCell i d.journal c).children.filter (· < mark) =
            (Undo.allOnCell i d.journal c).children := by
          rw [List.filter_eq_self, Undo.children_allOnCell]
          intro k hk
          simpa [heq] using h.closed i c hc k hk
        simp [Cell.trim, hall]
    · rw [List.getElem?_eq_none (by omega), List.getElem?_eq_none (by omega)]
  · apply List.ext_getElem?
    intro i
    rcases Nat.lt_or_ge i mark with hi | hi
    · rw [List.getElem?_map, List.getElem?_take_of_lt hi, Arena.getElem?_undoAll hi, Option.map_map,
        ← h.restores i hi]
      rfl
    · rw [List.getElem?_eq_none, List.getElem?_eq_none (by omega)]
      simp only [List.length_map, List.length_take]
      omega

/-! ## Each edit -/

theorem Revertible.addChild (h : d.Revertible mark before) (n : Nat) (p : Parameter) :
    Revertible mark before { d with arena := d.arena.addChild n p } := by
  have hlength := h.length
  have hnew : (d.arena.addChild n p).length = d.arena.length + 1 := Arena.length_addChild n p
  refine ⟨by dsimp only; omega, ?_, ?_⟩
  · intro i c hc k hk
    dsimp only at hc ⊢
    rw [Arena.getElem?_addChild, Option.map_eq_some_iff] at hc
    rcases hc with ⟨c₀, hc₀, rfl⟩
    have hold : ∀ k ∈ c₀.children, k < d.arena.length := by
      intro k hk
      split at hc₀
      · obtain rfl := Option.some.inj hc₀
        simp [Cell.leaf] at hk
      · exact h.closed i c₀ hc₀ k hk
    rw [hnew]
    split at hk
    · rcases Arena.mem_placeSibling_iff.1 hk with rfl | hk
      · omega
      · have hlt := hold k hk
        omega
    · have hlt := hold k hk
      omega
  · intro i hi
    dsimp only
    have hne : i ≠ d.arena.length := by omega
    rw [Arena.getElem?_addChild, if_neg hne, Option.map_map, ← h.restores i hi]
    cases d.arena[i]? with
    | none => rfl
    | some c =>
      simp only [Option.map_some, Function.comp_apply, Option.some.injEq]
      split
      · rw [Undo.allOnCell_children]
        simp only [Cell.trim, Undo.children_allOnCell, Arena.filter_placeSibling hlength]
      · rfl

/-- Changing what a cell holds, with an entry of the journal that undoes the change. -/
theorem Revertible.change (h : d.Revertible mark before) {n : Nat} {f : Cell → Cell} {u : Undo}
    (hchildren : ∀ c, (f c).children = c.children)
    (hundo : ∀ c, d.arena[n]? = some c → u.onCell n (f c) = c)
    (hothers : ∀ i c, i ≠ n → u.onCell i c = c) :
    Revertible mark before ⟨d.arena.modify n f, u :: d.journal⟩ := by
  refine ⟨by simpa using h.length, ?_, ?_⟩
  · intro i c hc k hk
    dsimp only at hc ⊢
    rw [List.getElem?_modify, Option.map_eq_map, Option.map_eq_some_iff] at hc
    rcases hc with ⟨c₀, hc₀, rfl⟩
    rw [List.length_modify]
    refine h.closed i c₀ hc₀ k ?_
    split at hk
    · rwa [hchildren] at hk
    · exact hk
  · intro i hi
    rw [← h.restores i hi, List.getElem?_modify, Option.map_eq_map, Option.map_map]
    cases hc : d.arena[i]? with
    | none => rfl
    | some c =>
      simp only [Option.map_some, Function.comp_apply, Option.some.injEq, Undo.allOnCell,
        List.foldl_cons]
      split
      · rename_i hin
        subst hin
        rw [hundo c hc]
      · rename_i hin
        rw [hothers i c (Ne.symm hin)]

/-- Letting a cell hold a usage in a role, with an entry of the journal for what it held. -/
theorem Revertible.hold (h : d.Revertible mark before) (role : Role) {n : Nat}
    {held former : Option NumberedUsage}
    (hformer : ∀ c, d.arena[n]? = some c → c.hold role former = c.toNodeData) :
    Revertible mark before
      ⟨d.arena.modify n fun c => { c with toNodeData := c.hold role held },
        .ofRole role n former :: d.journal⟩ := by
  refine h.change (fun _ => rfl) ?_ ?_
  · intro c hc
    have hundo : (Undo.ofRole role n former).onCell n { c with toNodeData := c.hold role held } =
        { c with toNodeData := c.hold role former } := by
      cases role <;> simp [Undo.ofRole, Undo.onCell, NodeData.hold]
    rw [hundo, hformer c hc]
  · intro i c hne
    cases role <;> simp [Undo.ofRole, Undo.onCell, Ne.symm hne]

theorem childFor_keeps (n : Nat) (p : Parameter) :
    Edit.Keeps (Revertible mark before) (childFor n p) := by
  refine .get_bind ?_
  intro d h
  cases hfind : d.arena.child? n p with
  | some c => exact Edit.Keeps.pure (c, false) d h
  | none => exact h.addChild n p

theorem walk_keeps (ps : List Parameter) (n : Nat) :
    Edit.Keeps (Revertible mark before) (walk ps n) := by
  induction ps generalizing n with
  | nil => exact .pure n
  | cons p ps ih => exact .bind (childFor_keeps n p) fun _ => ih _

theorem bind_keeps (u : NumberedUsage) (n : Nat) :
    Edit.Keeps (Revertible mark before) (bind u n) := by
  refine .modify ?_
  intro d h
  dsimp only
  split
  · exact h
  · exact h.hold .terminal fun c hc => by simp [NodeData.hold, hc]

theorem fall_keeps (u : NumberedUsage) (n : Nat) :
    Edit.Keeps (Revertible mark before) (fall u n) := by
  refine .modify ?_
  intro d h
  exact h.hold .fallback fun c hc => by simp [NodeData.hold, hc]

/-- **Insertion keeps drafts revertible**, wherever it is refused. -/
theorem insert_keeps (command : String) (u : NumberedUsage) (segments : List Segment) (n : Nat) :
    Edit.Keeps (Revertible mark before) (insert command u segments n) := by
  induction segments generalizing n with
  | nil => exact bind_keeps u n
  | cons segment rest ih =>
    refine .get_bind ?_
    intro d h
    dsimp only
    split
    · exact Edit.Keeps.throw _ d h
    · cases segment with
      | run flags =>
        exact Edit.Keeps.forM (fun chosen => .bind (walk_keeps chosen n) fun _ => ih _) d h
      | single p =>
        refine Edit.Keeps.bind (childFor_keeps n p) ?_ d h
        rintro ⟨c, made⟩
        refine .get_bind ?_
        intro d h
        dsimp only
        split
        · exact Edit.Keeps.throw _ d h
        · refine Edit.Keeps.bind ?_ ?_ d h
          · split
            · exact bind_keeps u c
            · exact ih c
          · intro _
            split
            · exact ih n
            · exact .pure _

end Draft

/-- What is done for a usage can be undone. -/
theorem Builder.grow_keeps {mark : Nat} {before : Arena} (command : String) (u : NumberedUsage) :
    Edit.Keeps (Draft.Revertible mark before) (grow command u) := by
  unfold grow
  split
  · exact .bind (Draft.walk_keeps _ _) fun _ => Draft.fall_keeps u _
  · exact Draft.insert_keeps command u _ 0

end CommandLanguage

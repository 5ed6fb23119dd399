import CommandLanguage.Proofs.FlagNames
import CommandLanguage.Proofs.Laying
import CommandLanguage.Proofs.Trie

/-!
# Trees with one run of flags

How the tree of a single usage looks whose flags stand in one run. Where the run may begin the tree
has a *fork*: below it lie all orders of all selections of the flags, and each of them leads on as
all the others do (`Node.Strand`): to the same arguments, to the end of the usage if that is all,
and to the flags that have not been typed yet. Elsewhere a place has no flags below it. A tree in
which all places are of these kinds is *woven* (`Node.Woven`), and so is the tree of every such
usage (`Grammar.Reachable.woven`).
-/

namespace CommandLanguage

open Arrangement (selections)

/-! ## Usages with one run of flags -/

/-- Whether a usage has one run of flags, no two of which share a name. -/
structure Usage.FlagRun (u : Usage) (front flags back : List Parameter) : Prop where
  parameters : u.parameters = front ++ flags ++ back
  isFlag_front : ∀ p ∈ front, p.isFlag = false
  isFlag : ∀ p ∈ flags, p.isFlag = true
  isFlag_back : ∀ p ∈ back, p.isFlag = false
  apart : flags.Pairwise Parameter.NamedApart

/-- The first ways with the second ones after each of them. -/
def weave (xs ys : List (List Parameter)) : List (List Parameter) :=
  xs.flatMap fun x => ys.map (x ++ ·)

theorem mem_weave_iff {xs ys : List (List Parameter)} {way : List Parameter} :
    way ∈ weave xs ys ↔ ∃ x ∈ xs, ∃ y ∈ ys, way = x ++ y := by
  simp [weave, eq_comm]

theorem expansions_ne_nil (ps : List Parameter) : expansions ps ≠ [] :=
  Segment.expansions_ne_nil _

/-- A way of typing parameters consists of these. -/
theorem mem_of_mem_expansions {ps e : List Parameter} (h : e ∈ expansions ps) {p : Parameter}
    (hp : p ∈ e) : p ∈ ps :=
  (mem_expansions_iff.1 h).mem hp

/-- Parameters that are no flags go their own ways, whatever follows them. -/
theorem expansions_append {ps qs : List Parameter} (hps : ∀ p ∈ ps, p.isFlag = false) :
    expansions (ps ++ qs) = weave (expansions ps) (expansions qs) := by
  induction ps with
  | nil => simp [weave, expansions, Segment.ofParameters, Segment.expansions]
  | cons p ps ih =>
    rcases List.forall_mem_cons.1 hps with ⟨hp, hps⟩
    have hcons : ∀ rest, expansions (p :: rest) =
        (expansions rest).map (p :: ·) ++ if p.isOptional then expansions rest else [] := by
      intro rest
      rw [expansions, Segment.ofParameters_of_not_isFlag hp, Segment.expansions]
      rfl
    rw [List.cons_append, hcons, hcons, ih hps]
    cases p.isOptional <;>
      simp [weave, List.flatMap_append, List.flatMap_map, List.map_flatMap, Function.comp_def]

namespace Usage.FlagRun

variable {u : Usage} {front flags back : List Parameter}

theorem eq_of_slot (h : u.FlagRun front flags back) {f g : Parameter} (hf : f ∈ flags)
    (hg : g ∈ flags) (hslot : f.slot = g.slot) : f = g := by
  by_cases hfg : f = g
  · exact hfg
  · have happart := h.apart.forall hf hg hfg f.name List.mem_cons_self g.name List.mem_cons_self
    have hname : Text.foldCase f.name = Text.foldCase g.name := congrArg Slot.name hslot
    rw [Text.sameIgnoringCase_iff.2 hname] at happart
    cases happart

/-- The ways of typing the usage: what is before the flags, a selection of these in some order, and
what is after them. -/
theorem ways_eq (h : u.FlagRun front flags back) (hflags : flags ≠ []) (hu : u.isDefault = false) :
    u.ways = weave (expansions front) (weave (selections flags) (expansions back)) := by
  have hhead : ∀ p ∈ back.head?, p.isFlag = false :=
    fun p hp => h.isFlag_back p (List.mem_of_mem_head? hp)
  have hrun : expansions (flags ++ back) = weave (selections flags) (expansions back) := by
    rw [expansions, Segment.ofParameters_run hflags h.isFlag hhead, Segment.expansions]
    rfl
  rw [ways, hu, if_neg Bool.false_ne_true, h.parameters, List.append_assoc,
    expansions_append h.isFlag_front, hrun]

end Usage.FlagRun

/-! ## Ways that are laid more than once -/

/-- Whether ways are those of a list, some of them more than once. -/
def Repeats (ways ways' : List (List Parameter)) : Prop :=
  ∃ more, more ⊆ ways ∧ ways' = ways ++ more

theorem Repeats.refl (ways : List (List Parameter)) : Repeats ways ways :=
  ⟨[], by simp, by simp⟩

theorem Repeats.layAll_eq {ways ways' : List (List Parameter)} (h : Repeats ways ways')
    (u : NumberedUsage) (n : Node) : Node.layAll u ways' n = Node.layAll u ways n := by
  rcases h with ⟨more, hmore, rfl⟩
  rw [Node.layAll_append, Node.layAll_again hmore]

/-- Parts that repeat some ways or are empty repeat them together, if there is one that is not. -/
theorem repeats_flatMap {α : Type} {xs : List α} {ways : List (List Parameter)}
    {f : α → List (List Parameter)} (h : ∀ x ∈ xs, f x = [] ∨ Repeats ways (f x))
    (hsome : ∃ x ∈ xs, f x ≠ []) : Repeats ways (xs.flatMap f) := by
  induction xs with
  | nil => simp at hsome
  | cons x xs ih =>
    rcases List.forall_mem_cons.1 h with ⟨hx, hxs⟩
    rw [List.flatMap_cons]
    rcases hx with hnil | ⟨more, hmore, heq⟩
    · rw [hnil, List.nil_append]
      refine ih hxs ?_
      rcases hsome with ⟨y, hy, hne⟩
      rcases List.mem_cons.1 hy with rfl | hy
      · exact absurd hnil hne
      · exact ⟨y, hy, hne⟩
    · refine ⟨more ++ xs.flatMap f, ?_, by rw [heq, List.append_assoc]⟩
      intro way hway
      rcases List.mem_append.1 hway with hway | hway
      · exact hmore hway
      · rcases List.mem_flatMap.1 hway with ⟨y, hy, hway⟩
        rcases hxs y hy with hnil | ⟨more', hmore', heq'⟩
        · simp [hnil] at hway
        · rw [heq'] at hway
          exact (List.mem_append.1 hway).elim id fun hway => hmore' hway

/-! ## What is left of ways below a slot -/

section Rests

variable {slot : Slot} {p : Parameter} {ps : List Parameter} {xs ys ways : List (List Parameter)}

theorem weave_cons (x : List Parameter) :
    weave (x :: xs) ys = ys.map (x ++ ·) ++ weave xs ys := rfl

theorem Node.rests_map_cons_append :
    Node.rests slot (ys.map ((p :: ps) ++ ·)) =
      if p.slot = slot then ys.map (ps ++ ·) else [] := by
  by_cases hslot : p.slot = slot
  · simp [Node.rests, List.filterMap_map, Function.comp_def, Node.rest?, hslot]
  · simp [Node.rests, List.filterMap_map, Function.comp_def, Node.rest?, hslot]

theorem Node.rests_eq_nil (h : ∀ way ∈ ways, ∀ p ∈ way.head?, p.slot ≠ slot) :
    Node.rests slot ways = [] := by
  refine List.eq_nil_iff_forall_not_mem.2 fun ps hps => ?_
  rcases Node.mem_rests_iff.1 hps with ⟨p, hslot, hway⟩
  exact h _ hway p rfl hslot

/-- Below a flag, selections have been begun, and what follows them is as it was. -/
theorem Node.rests_weave (hslot : slot.isFlag = true) (hys : ∀ y ∈ ys, ∀ p ∈ y, p.isFlag = false) :
    Node.rests slot (weave xs ys) = weave (Node.rests slot xs) ys := by
  induction xs with
  | nil => rfl
  | cons x xs ih =>
    rw [weave_cons, Node.rests_append, ih]
    cases x with
    | nil =>
      have hnil : Node.rests slot ys = [] := by
        refine Node.rests_eq_nil fun y hy p hp heq => ?_
        have hp' : p.isFlag = false := hys y hy p (List.mem_of_mem_head? hp)
        have hflag : p.isFlag = slot.isFlag := congrArg Slot.isFlag heq
        rw [hp', hslot] at hflag
        cases hflag
      have hsame : ys.map ([] ++ ·) = ys := by simp
      rw [hsame, hnil, List.nil_append, Node.rests, Node.rests, List.filterMap_cons_none rfl]
    | cons p ps =>
      rw [Node.rests_map_cons_append]
      by_cases hp : p.slot = slot
      · simp [hp, Node.rests, Node.rest?, weave]
      · simp [hp, Node.rests, Node.rest?]

/-- Below a flag of a run begin the orders of selections of the others. -/
theorem Node.mem_rests_iff_subperm {left : List Parameter} {f : Parameter} (hf : f ∈ left)
    (hapart : ∀ g ∈ left, g.slot = f.slot → g = f)
    (hways : ∀ way, way ∈ ways ↔ way.Subperm left) :
    ps ∈ Node.rests f.slot ways ↔ ps.Subperm (left.erase f) := by
  have hperm : left.Perm (f :: left.erase f) := List.perm_cons_erase hf
  rw [Node.mem_rests_iff, ← List.subperm_cons (a := f), ← hperm.subperm_left, ← hways]
  constructor
  · rintro ⟨g, hslot, hway⟩
    have hg : g ∈ left := ((hways _).1 hway).subset List.mem_cons_self
    rw [← hapart g hg hslot]
    exact hway
  · intro hway
    exact ⟨f, rfl, hway⟩

end Rests

/-! ## Strands -/

namespace Node

/-- Whether a slot is not that of a flag. -/
def plainSlot (slot : Slot) : Bool := !slot.isFlag

/-- Whether a node below a flag of a run leads on as all such nodes do: to the same children that
are no flags, to the same usage if it has been typed out, and to the flags that are left, each of
which leads on in turn. -/
inductive Strand (cs : List Node) (end? : Option NumberedUsage) : List Parameter → Node → Prop where
  | intro {left : List Parameter} {n : Node} :
      n.resolved? = end? → n.kin plainSlot = cs → Sorted n.children →
      (∀ f ∈ left, ∃ c ∈ n.children, c.parameter = f) →
      (∀ c ∈ n.children, c.isFlag = true → c.parameter ∈ left) →
      (∀ c ∈ n.children, c.isFlag = true → Strand cs end? (left.erase c.parameter) c) →
      Strand cs end? left n

/-- What children laying ways makes depends on the children that are there. -/
theorem children_layAll_congr {u : NumberedUsage} {ways : List (List Parameter)} {n n' : Node}
    (h : n.children = n'.children) : (layAll u ways n).children = (layAll u ways n').children := by
  induction ways generalizing n n' with
  | nil => exact h
  | cons way ways ih =>
    refine ih ?_
    cases way with
    | nil => rw [children_lay_nil, children_lay_nil, h]
    | cons p ps =>
      have hchild : n.child? p = n'.child? p := by rw [child?, child?, h]
      simp only [lay, putChild, childOr, hchild, h]
      cases n'.child? p <;> rfl

section Strand

variable {u : NumberedUsage} {front flags back : List Parameter}

/-- The ways of a run that begin with no flag are those of what follows the run. -/
theorem repeats_filter_weave {chosen : List (List Parameter)}
    (hflags : ∀ ps ∈ chosen, ∀ p ∈ ps, p.isFlag = true) (hnil : [] ∈ chosen)
    {kind : Slot → Bool} (hkind : ∀ p ∈ back, kind p.slot = true)
    (hplain : ∀ slot, kind slot = true → slot.isFlag = false) :
    Repeats (expansions back) ((weave chosen (expansions back)).filter (beginsIn kind)) := by
  rw [weave, List.filter_flatMap]
  have hkept : (expansions back).filter (beginsIn kind) = expansions back := by
    refine List.filter_eq_self.2 fun e he => ?_
    cases e with
    | nil => rfl
    | cons p ps => exact hkind p (mem_of_mem_expansions he List.mem_cons_self)
  refine repeats_flatMap ?_ ⟨[], hnil, by simpa [hkept] using expansions_ne_nil back⟩
  intro ps hps
  cases ps with
  | nil => exact .inr (by simpa [hkept] using Repeats.refl _)
  | cons p ps =>
    left
    have hp : p.isFlag = true := hflags _ hps p List.mem_cons_self
    have hnot : kind p.slot = false := by
      rw [Bool.eq_false_iff]
      intro htrue
      have hflag : p.isFlag = false := hplain p.slot htrue
      rw [hp] at hflag
      cases hflag
    simp [List.filter_map, Function.comp_def, beginsIn, hnot]

/-- What follows a run has no flags. -/
theorem kin_plainSlot_eq {n : Node} (h : ∀ c ∈ n.children, c.isFlag = false) :
    n.kin plainSlot = n.children := by
  refine List.filter_eq_self.2 fun c hc => ?_
  have hflag : c.parameter.slot.isFlag = false := h c hc
  simp [plainSlot, hflag]

/-- A laid node that is no literal resolves to the usage if a way ends there. -/
theorem Laid.resolved?_eq {n : Node} {ways : List (List Parameter)} (h : Laid u ways n)
    (hliteral : n.isLiteral = false) : n.resolved? = if [] ∈ ways then some u else none := by
  rw [resolved?, h.terminal, hliteral]
  simp

theorem nil_mem_weave_iff {chosen ways : List (List Parameter)} (hnil : [] ∈ chosen) :
    [] ∈ weave chosen ways ↔ [] ∈ ways := by
  rw [mem_weave_iff]
  constructor
  · rintro ⟨x, -, y, hy, heq⟩
    obtain ⟨-, rfl⟩ : x = [] ∧ y = [] := by simpa using heq.symm
    exact hy
  · intro hy
    exact ⟨[], hnil, [], hy, rfl⟩

/-- **Strands.** Where selections of the flags that are left have been laid, with what follows the
run after each of them, there is a strand. -/
theorem strand_layAll (hu : u.usage.isDefault = false) (hrun : u.usage.FlagRun front flags back)
    (q : Parameter) {left : List Parameter} {chosen : List (List Parameter)} {n : Node}
    {p : Parameter} (hp : p.isFlag = true)
    (hn : n = layAll u (weave chosen (expansions back)) (sprout p)) (hleft : left ⊆ flags)
    (hchosen : ∀ ps, ps ∈ chosen ↔ ps.Subperm left) :
    Strand (layAll u (expansions back) (sprout q)).children
      (if [] ∈ expansions back then some u else none) left n := by
  induction n using Node.induction generalizing left chosen p with
  | step n ih =>
    have hlaid : Laid u (weave chosen (expansions back)) n := by
      rw [hn]
      exact laid_layAll hu _ p
    have hnil : [] ∈ chosen := (hchosen []).2 List.nil_subperm
    have hmem : ∀ ps ∈ chosen, ∀ f ∈ ps, f ∈ left := fun ps hps f hf =>
      ((hchosen ps).1 hps).subset hf
    have hflag : ∀ ps ∈ chosen, ∀ f ∈ ps, f.isFlag = true := fun ps hps f hf =>
      hrun.isFlag f (hleft (hmem ps hps f hf))
    have hplain : ∀ e ∈ expansions back, ∀ r ∈ e, r.isFlag = false := fun e he r hr =>
      hrun.isFlag_back r (mem_of_mem_expansions he hr)
    -- A flag that begins a way is one of those that are left.
    have horigin : ∀ c ∈ n.children, c.isFlag = true → c.parameter ∈ left := by
      intro c hc hcflag
      rcases hlaid.origin c hc with ⟨ps, hps⟩
      rcases mem_weave_iff.1 hps with ⟨x, hx, y, hy, heq⟩
      cases x with
      | nil =>
        have hnot := hplain y hy c.parameter (by rw [← List.nil_append y, ← heq]; simp)
        rw [isFlag, hnot] at hcflag
        cases hcflag
      | cons f fs =>
        obtain rfl : c.parameter = f := (List.cons.inj heq).1
        exact hmem _ hx _ List.mem_cons_self
    refine .intro ?_ ?_ hlaid.sorted ?_ horigin ?_
    · -- The usage ends here if it may end right after the flags.
      have hliteral : n.isLiteral = false := by
        have hparameter : n.parameter = p := by rw [hn]; simp
        rw [isLiteral, hparameter]
        by_cases hl : p.isLiteral = true
        · rw [Parameter.isFlag_of_isLiteral hl] at hp
          cases hp
        · simpa using hl
      rw [hlaid.resolved?_eq hliteral]
      simp only [nil_mem_weave_iff hnil]
    · have hkind : ∀ r ∈ back, plainSlot r.slot = true := by
        intro r hr
        have hslot : r.slot.isFlag = false := hrun.isFlag_back r hr
        simp [plainSlot, hslot]
      have hrepeats : Repeats (expansions back)
          ((weave chosen (expansions back)).filter (beginsIn plainSlot)) :=
        repeats_filter_weave hflag hnil hkind fun slot hslot => by simpa [plainSlot] using hslot
      rw [hn, kin_layAll_sprout, hrepeats.layAll_eq, kin_plainSlot_eq]
      · exact children_layAll_congr rfl
      · intro c hc
        rcases (laid_layAll hu (expansions back) p).origin c hc with ⟨ps, hps⟩
        exact hplain _ hps _ List.mem_cons_self
    · intro f hf
      rcases List.exists_mem_of_ne_nil _ (expansions_ne_nil back) with ⟨e, he⟩
      have hway : f :: e ∈ weave chosen (expansions back) :=
        mem_weave_iff.2 ⟨[f], (hchosen [f]).2 (List.singleton_subperm_iff.2 hf), e, he, rfl⟩
      rcases hlaid.covers f e hway with ⟨c, hc, hslot⟩
      have hcflag : c.isFlag = true := by
        rw [isFlag, Parameter.isFlag_eq_of_slot_eq hslot]
        exact hrun.isFlag f (hleft hf)
      exact ⟨c, hc, hrun.eq_of_slot (hleft (horigin c hc hcflag)) (hleft hf) hslot⟩
    · intro c hc hcflag
      have hcleft := horigin c hc hcflag
      have hslot : c.parameter.slot.isFlag = true := hcflag
      have hbelow : c = layAll u (weave (rests c.parameter.slot chosen) (expansions back))
          (sprout c.parameter) := by
        rw [← rests_weave hslot hplain]
        exact hlaid.child c hc
      refine ih c hc hcflag hbelow (fun f hf => hleft (List.mem_of_mem_erase hf)) fun ps => ?_
      exact mem_rests_iff_subperm hcleft
        (fun f hf => hrun.eq_of_slot (hleft hf) (hleft hcleft)) hchosen

end Strand

/-! ## Forks -/

/-- Whether a slot is that of one of some parameters. -/
def slotAmong (ps : List Parameter) (slot : Slot) : Bool := decide (slot ∈ slots ps)

/-- Whether a run of flags may begin at a node. If all parameters that are no flags are in slots of
their own, what may follow the run may follow here in the same way, and whatever else may follow is
optional. -/
structure Fork (front flags back : List Parameter) (distinct : Prop) (cs : List Node)
    (end? : Option NumberedUsage) (n : Node) : Prop where
  sorted : Sorted n.children
  plain : ∀ c ∈ n.children, c.isFlag = false → c.parameter ∈ front ++ back
  covers : ∀ f ∈ flags, ∃ c ∈ n.children, c.parameter = f
  flag : ∀ c ∈ n.children, c.isFlag = true → c.parameter ∈ flags
  strand : ∀ c ∈ n.children, c.isFlag = true → Strand cs end? (flags.erase c.parameter) c
  kin : distinct → n.kin (slotAmong back) = cs
  optional : distinct → ∀ c ∈ n.children, c.isFlag = false →
    slotAmong back c.parameter.slot = false → c.isOptional = true

/-- Whether a tree has no flags but below forks, and nothing greedy. -/
inductive Woven (front flags back : List Parameter) (distinct : Prop) : Node → Prop where
  | plain {n : Node} : (∀ c ∈ n.children, c.isFlag = false) →
      (∀ c ∈ n.children, c.isGreedy = false) →
      (∀ c ∈ n.children, Woven front flags back distinct c) →
      Woven front flags back distinct n
  | fork {n : Node} {cs : List Node} {end? : Option NumberedUsage} :
      Fork front flags back distinct cs end? n →
      (∀ c ∈ n.children, c.isFlag = false → c.isGreedy = false) →
      (∀ c ∈ n.children, c.isFlag = false → Woven front flags back distinct c) →
      (∀ c ∈ cs, c.isFlag = false) → (∀ c ∈ cs, c.isGreedy = false) →
      (∀ c ∈ cs, Woven front flags back distinct c) → Woven front flags back distinct n

/-- What is left of a usage with one run of flags: parameters before the run with the run ahead, or
parameters after it. -/
inductive Stem where
  | ahead (ps : List Parameter)
  | past (ps : List Parameter)

namespace Stem

/-- The ways of typing what is left of a usage. -/
def ways (flags back : List Parameter) : Stem → List (List Parameter)
  | ahead ps => (weave (selections flags) (expansions back)).map (ps ++ ·)
  | past ps => [ps]

/-- What is left of a usage below a slot that is no flag's. -/
def below (flags back : List Parameter) (slot : Slot) : Stem → List Stem
  | ahead [] => (selections flags).flatMap fun chosen =>
      if chosen = [] then (rests slot (expansions back)).map past else []
  | ahead (p :: ps) => if p.slot = slot then [ahead ps] else []
  | past [] => []
  | past (p :: ps) => if p.slot = slot then [past ps] else []

/-- Whether stems are what is left of one usage after one path. -/
structure Good (front back : List Parameter) (distinct : Prop) (stems : List Stem) : Prop where
  ahead : ∀ ps, ahead ps ∈ stems → ∀ p ∈ ps, p ∈ front
  past : ∀ ps, past ps ∈ stems → ∀ p ∈ ps, p ∈ back
  /-- Before the run the same required parameters are left. -/
  alike : distinct → ∀ ps qs, .ahead ps ∈ stems → .ahead qs ∈ stems →
    ps.filter (·.isRequired) = qs.filter (·.isRequired)
  /-- A path is on one side of the run. -/
  oneSide : distinct → ∀ ps qs, .past ps ∈ stems → .ahead qs ∉ stems

section Stem

variable {u : Usage} {front flags back : List Parameter} {distinct : Prop} {slot : Slot}
  {stems : List Stem}

/-- Of the ways of a run, those that begin with no flag have no flag. -/
theorem rests_weave_plain (hslot : slot.isFlag = false) {chosen : List (List Parameter)}
    (hflags : ∀ ps ∈ chosen, ∀ f ∈ ps, f.isFlag = true) :
    rests slot (weave chosen (expansions back)) =
      (chosen.flatMap fun ps =>
        if ps = [] then (rests slot (expansions back)).map past else []).flatMap
          (ways flags back) := by
  induction chosen with
  | nil => rfl
  | cons ps chosen ih =>
    rcases List.forall_mem_cons.1 hflags with ⟨hps, hall⟩
    rw [weave_cons, rests_append, ih hall, List.flatMap_cons, List.flatMap_append]
    congr 1
    cases ps with
    | nil => simp [List.flatMap_map, ways]
    | cons f fs =>
      have hne : f.slot ≠ slot := by
        rintro rfl
        have hf : f.isFlag = true := hps f List.mem_cons_self
        have hf' : f.isFlag = false := hslot
        rw [hf] at hf'
        cases hf'
      rw [rests_map_cons_append, if_neg hne]
      simp

/-- What is left of ways below a slot is the ways of what is left. -/
theorem rests_flatMap_ways (hflags : ∀ f ∈ flags, f.isFlag = true) (hslot : slot.isFlag = false)
    (stems : List Stem) :
    rests slot (stems.flatMap (ways flags back)) =
      (stems.flatMap (below flags back slot)).flatMap (ways flags back) := by
  have hchosen : ∀ ps ∈ selections flags, ∀ f ∈ ps, f.isFlag = true := fun ps hps f hf =>
    hflags f (Arrangement.mem_of_mem_selections hps hf)
  induction stems with
  | nil => rfl
  | cons stem stems ih =>
    rw [List.flatMap_cons, rests_append, ih, List.flatMap_cons, List.flatMap_append]
    congr 1
    cases stem with
    | ahead ps =>
      cases ps with
      | nil => simpa [ways, below] using rests_weave_plain hslot hchosen
      | cons p ps =>
        rw [ways, rests_map_cons_append, below]
        split <;> simp [ways]
    | past ps =>
      cases ps with
      | nil => rfl
      | cons p ps =>
        by_cases hp : p.slot = slot
        · simp [ways, below, rests, rest?, hp]
        · simp [ways, below, rests, rest?, hp]

/-- What is left before the run below a slot was left before it. -/
theorem exists_ahead_of_mem_below {ps : List Parameter}
    (h : .ahead ps ∈ stems.flatMap (Stem.below flags back slot)) :
    ∃ p, p.slot = slot ∧ Stem.ahead (p :: ps) ∈ stems := by
  rcases List.mem_flatMap.1 h with ⟨stem, hstem, hmem⟩
  rcases stem with ⟨_ | ⟨p, qs⟩⟩ | ⟨_ | ⟨p, qs⟩⟩
  · simp only [Stem.below, List.mem_flatMap] at hmem
    rcases hmem with ⟨chosen, -, hmem⟩
    split at hmem
    · simp at hmem
    · simp at hmem
  · by_cases hp : p.slot = slot
    · obtain rfl : ps = qs := by simpa [Stem.below, hp] using hmem
      exact ⟨p, hp, hstem⟩
    · simp [Stem.below, hp] at hmem
  · simp [Stem.below] at hmem
  · by_cases hp : p.slot = slot
    · simp [Stem.below, hp] at hmem
    · simp [Stem.below, hp] at hmem

/-- What is left after the run below a slot was left after it, or it is a way of typing what
follows. -/
theorem exists_past_of_mem_below {ps : List Parameter}
    (h : .past ps ∈ stems.flatMap (Stem.below flags back slot)) :
    ∃ p, p.slot = slot ∧ (Stem.past (p :: ps) ∈ stems ∨
      Stem.ahead [] ∈ stems ∧ p :: ps ∈ expansions back) := by
  rcases List.mem_flatMap.1 h with ⟨stem, hstem, hmem⟩
  rcases stem with ⟨_ | ⟨p, qs⟩⟩ | ⟨_ | ⟨p, qs⟩⟩
  · simp only [Stem.below, List.mem_flatMap] at hmem
    rcases hmem with ⟨chosen, -, hmem⟩
    split at hmem
    · rcases mem_rests_iff.1 (by simpa using hmem) with ⟨p, hp, hway⟩
      exact ⟨p, hp, .inr ⟨hstem, hway⟩⟩
    · simp at hmem
  · by_cases hp : p.slot = slot
    · simp [Stem.below, hp] at hmem
    · simp [Stem.below, hp] at hmem
  · simp [Stem.below] at hmem
  · by_cases hp : p.slot = slot
    · obtain rfl : ps = qs := by simpa [Stem.below, hp] using hmem
      exact ⟨p, hp, .inl hstem⟩
    · simp [Stem.below, hp] at hmem

/-- What is left below a slot is still what is left of one usage after one path. -/
theorem Good.below (h : Good front back distinct stems)
    (hdistinct : distinct → ((front ++ back).map Parameter.slot).Nodup) (slot : Slot) :
    Good front back distinct (stems.flatMap (below flags back slot)) := by
  refine ⟨?_, ?_, ?_, ?_⟩
  · intro ps hps q hq
    rcases exists_ahead_of_mem_below hps with ⟨p, -, hstem⟩
    exact h.ahead _ hstem q (List.mem_cons_of_mem _ hq)
  · intro ps hps q hq
    rcases exists_past_of_mem_below hps with ⟨p, -, hstem | ⟨-, hway⟩⟩
    · exact h.past _ hstem q (List.mem_cons_of_mem _ hq)
    · exact mem_of_mem_expansions hway (List.mem_cons_of_mem _ hq)
  · intro hd ps qs hps hqs
    rcases exists_ahead_of_mem_below hps with ⟨p, hp, hpstem⟩
    rcases exists_ahead_of_mem_below hqs with ⟨q, hq, hqstem⟩
    have hfront : (front.map Parameter.slot).Nodup := by
      have hnodup := hdistinct hd
      rw [List.map_append] at hnodup
      exact hnodup.of_append_left
    obtain rfl : p = q := List.inj_on_of_nodup_map hfront
      (h.ahead _ hpstem p List.mem_cons_self) (h.ahead _ hqstem q List.mem_cons_self)
      (hp.trans hq.symm)
    have halike := h.alike hd _ _ hpstem hqstem
    rw [List.filter_cons, List.filter_cons] at halike
    split at halike
    · exact (List.cons.inj halike).2
    · exact halike
  · intro hd ps qs hps hqs
    rcases exists_ahead_of_mem_below hqs with ⟨q, hq, hqstem⟩
    rcases exists_past_of_mem_below hps with ⟨p, hp, hstem | ⟨-, hway⟩⟩
    · exact h.oneSide hd _ _ hstem hqstem
    · -- The slot would be one before the run and one after it.
      have hnodup := hdistinct hd
      rw [List.map_append, List.nodup_append] at hnodup
      refine hnodup.2.2 q.slot ?_ p.slot ?_ (hq.trans hp.symm)
      · exact List.mem_map_of_mem (h.ahead _ hqstem q List.mem_cons_self)
      · exact List.mem_map_of_mem (mem_of_mem_expansions hway List.mem_cons_self)

/-- What is left of ways below a flag. -/
def begun (flags : List Parameter) (slot : Slot) : Stem → List (List Parameter)
  | ahead [] => rests slot (selections flags)
  | _ => []

/-- Below a flag, orders of selections have been begun. -/
theorem rests_flatMap_ways_flag (h : Good front back distinct stems)
    (hfront : ∀ p ∈ front, p.isFlag = false) (hback : ∀ p ∈ back, p.isFlag = false)
    (hslot : slot.isFlag = true) :
    rests slot (stems.flatMap (ways flags back)) =
      weave (stems.flatMap (begun flags slot)) (expansions back) := by
  have hne : ∀ p : Parameter, p.isFlag = false → p.slot ≠ slot := by
    rintro p hp rfl
    have hp' : p.isFlag = true := hslot
    rw [hp] at hp'
    cases hp'
  have hstem : ∀ stem ∈ stems, rests slot (ways flags back stem) =
      weave (begun flags slot stem) (expansions back) := by
    intro stem hstem
    rcases stem with ⟨_ | ⟨p, ps⟩⟩ | ⟨_ | ⟨p, ps⟩⟩
    · have hsame : ways flags back (ahead []) = weave (selections flags) (expansions back) := by
        simp [ways]
      rw [hsame, rests_weave hslot fun e he r hr => hback r (mem_of_mem_expansions he hr)]
      rfl
    · rw [ways, rests_map_cons_append,
        if_neg (hne p (hfront p (h.ahead _ hstem p List.mem_cons_self)))]
      rfl
    · rfl
    · have hp := hne p (hback p (h.past _ hstem p List.mem_cons_self))
      simp [ways, begun, rests, rest?, hp, weave]
  clear h
  induction stems with
  | nil => rfl
  | cons stem stems ih =>
    rcases List.forall_mem_cons.1 hstem with ⟨hfirst, hstem⟩
    rw [List.flatMap_cons, rests_append, ih hstem, hfirst]
    simp [weave]

/-- A way of typing what is left begins before the run, in it, or after it. -/
theorem Good.head_cases (h : Good front back distinct stems) {p : Parameter} {ps : List Parameter}
    (hway : p :: ps ∈ stems.flatMap (ways flags back)) :
    (p ∈ front ∧ ∃ qs, .ahead (p :: qs) ∈ stems) ∨ (p ∈ flags ∧ .ahead [] ∈ stems) ∨ p ∈ back := by
  rcases List.mem_flatMap.1 hway with ⟨stem, hstem, hmem⟩
  rcases stem with ⟨_ | ⟨q, qs⟩⟩ | qs
  · have hweave : p :: ps ∈ weave (selections flags) (expansions back) := by
      simpa [ways] using hmem
    rcases mem_weave_iff.1 hweave with ⟨x, hx, y, hy, heq⟩
    cases x with
    | nil =>
      obtain rfl : p :: ps = y := by simpa using heq
      exact .inr (.inr (mem_of_mem_expansions hy List.mem_cons_self))
    | cons f fs =>
      obtain rfl : p = f := (List.cons.inj heq).1
      exact .inr (.inl ⟨Arrangement.mem_of_mem_selections hx List.mem_cons_self, hstem⟩)
  · obtain rfl : q = p := by
      simp only [ways, List.mem_map] at hmem
      rcases hmem with ⟨way, -, heq⟩
      exact (List.cons.inj heq).1
    exact .inl ⟨h.ahead _ hstem q List.mem_cons_self, qs, hstem⟩
  · obtain rfl : p :: ps = qs := by simpa [ways] using hmem
    exact .inr (.inr (h.past _ hstem p List.mem_cons_self))

/-- A child of what is left is of a parameter before the run, in it, or after it. -/
theorem Good.child_cases (h : Good front back distinct stems) {u : NumberedUsage} {n c : Node}
    (hlaid : Laid u (stems.flatMap (ways flags back)) n) (hc : c ∈ n.children) :
    (c.parameter ∈ front ∧ ∃ qs, .ahead (c.parameter :: qs) ∈ stems) ∨
      (c.parameter ∈ flags ∧ .ahead [] ∈ stems) ∨ c.parameter ∈ back := by
  rcases hlaid.origin c hc with ⟨ps, hps⟩
  exact h.head_cases hps

/-- Where the run may begin, orders of selections of the other flags have been begun below a flag.
-/
theorem mem_begun_iff (hrun : u.FlagRun front flags back) (hahead : .ahead [] ∈ stems)
    {f : Parameter} (hf : f ∈ flags) {ps : List Parameter} :
    ps ∈ stems.flatMap (begun flags f.slot) ↔ ps.Subperm (flags.erase f) := by
  have hrests : ps ∈ rests f.slot (selections flags) ↔ ps.Subperm (flags.erase f) :=
    mem_rests_iff_subperm hf (fun g hg => hrun.eq_of_slot hg hf)
      fun _ => Arrangement.mem_selections_iff
  rw [← hrests, List.mem_flatMap]
  constructor
  · rintro ⟨stem, -, hbegun⟩
    rcases stem with ⟨_ | ⟨q, qs⟩⟩ | qs
    · exact hbegun
    · simp [begun] at hbegun
    · simp [begun] at hbegun
  · intro hps
    exact ⟨.ahead [], hahead, hps⟩

/-- Where the run may begin, the ways that begin in slots behind it are those of what follows it. -/
theorem Good.repeats_filter (h : Good front back distinct stems) (hd : distinct)
    (hdistinct : distinct → ((front ++ back).map Parameter.slot).Nodup)
    (hrun : u.FlagRun front flags back) (hahead : .ahead [] ∈ stems) :
    Repeats (expansions back)
      ((stems.flatMap (ways flags back)).filter (beginsIn (slotAmong back))) := by
  have hselected : Repeats (expansions back)
      ((weave (selections flags) (expansions back)).filter (beginsIn (slotAmong back))) := by
    refine repeats_filter_weave
      (fun ps hps f hf => hrun.isFlag f (Arrangement.mem_of_mem_selections hps hf))
      (Arrangement.nil_mem_selections flags)
      (fun r hr => decide_eq_true (List.mem_map_of_mem hr)) fun slot hslot => ?_
    rcases List.mem_map.1 (of_decide_eq_true hslot) with ⟨r, hr, rfl⟩
    exact hrun.isFlag_back r hr
  have hsame : ways flags back (.ahead []) = weave (selections flags) (expansions back) := by
    simp [ways]
  rw [List.filter_flatMap]
  refine repeats_flatMap ?_ ⟨.ahead [], hahead, ?_⟩
  · intro stem hstem
    rcases stem with ⟨_ | ⟨q, qs⟩⟩ | qs
    · right
      rw [hsame]
      exact hselected
    · -- What is before the run is in another slot than all that is after it.
      left
      have hq : slotAmong back q.slot = false := by
        rw [Bool.eq_false_iff]
        intro htrue
        have hnodup := hdistinct hd
        rw [List.map_append, List.nodup_append] at hnodup
        refine hnodup.2.2 q.slot ?_ q.slot (of_decide_eq_true htrue) rfl
        exact List.mem_map_of_mem (h.ahead _ hstem q List.mem_cons_self)
      simp [ways, List.filter_map, Function.comp_def, beginsIn, hq]
    · exact absurd hahead (h.oneSide hd _ _ hstem)
  · rw [hsame]
    rcases hselected with ⟨more, -, heq⟩
    rw [heq]
    simp [expansions_ne_nil]

end Stem

end Stem

/-! ## Woven trees -/

section Woven

variable {u : NumberedUsage} {front flags back : List Parameter} {distinct : Prop}

/-- Ways without flags make a tree without flags. -/
theorem woven_of_plain (hu : u.usage.isDefault = false) {ways : List (List Parameter)}
    (hplain : ∀ way ∈ ways, ∀ p ∈ way, p.isFlag = false ∧ p.greedy = false) {n : Node}
    {p : Parameter} (hn : n = layAll u ways (sprout p)) :
    (∀ c ∈ n.children, c.isFlag = false) ∧ (∀ c ∈ n.children, c.isGreedy = false) ∧
      ∀ c ∈ n.children, Woven front flags back distinct c := by
  induction n using Node.induction generalizing ways p with
  | step n ih =>
    have hlaid : Laid u ways n := by
      rw [hn]
      exact laid_layAll hu ways p
    have hhead : ∀ c ∈ n.children, c.isFlag = false ∧ c.isGreedy = false := by
      intro c hc
      rcases hlaid.origin c hc with ⟨ps, hps⟩
      exact hplain _ hps _ List.mem_cons_self
    refine ⟨fun c hc => (hhead c hc).1, fun c hc => (hhead c hc).2, ?_⟩
    intro c hc
    have hrests : ∀ way ∈ rests c.parameter.slot ways, ∀ p ∈ way,
        p.isFlag = false ∧ p.greedy = false := by
      intro way hway q hq
      rcases mem_rests_iff.1 hway with ⟨r, -, hr⟩
      exact hplain _ hr q (List.mem_cons_of_mem _ hq)
    rcases ih c hc hrests (hlaid.child c hc) with ⟨hflag, hgreedy, hbelow⟩
    exact .plain hflag hgreedy hbelow

/-- Where the run may begin there is a fork. -/
theorem fork_of_stems (hu : u.usage.isDefault = false) (hrun : u.usage.FlagRun front flags back)
    (hdistinct : distinct → ((front ++ back).map Parameter.slot).Nodup) {stems : List Stem}
    (hgood : Stem.Good front back distinct stems) (hahead : .ahead [] ∈ stems) {n : Node}
    {p : Parameter} (hlaid : Laid u (stems.flatMap (Stem.ways flags back)) n)
    (hn : n = layAll u (stems.flatMap (Stem.ways flags back)) (sprout p)) :
    Fork front flags back distinct (layAll u (expansions back) (sprout p)).children
      (if [] ∈ expansions back then some u else none) n := by
  have hflag : ∀ c ∈ n.children, c.isFlag = true → c.parameter ∈ flags := by
    intro c hc hcflag
    rcases hgood.child_cases hlaid hc with ⟨hfront, -⟩ | ⟨hmem, -⟩ | hback
    · rw [isFlag, hrun.isFlag_front _ hfront] at hcflag
      cases hcflag
    · exact hmem
    · rw [isFlag, hrun.isFlag_back _ hback] at hcflag
      cases hcflag
  refine
    { sorted := hlaid.sorted, plain := ?plain, covers := ?covers, flag := hflag,
      strand := ?strand, kin := ?kin, optional := ?optional }
  case plain =>
    intro c hc hcflag
    rcases hgood.child_cases hlaid hc with ⟨hfront, -⟩ | ⟨hmem, -⟩ | hback
    · exact List.mem_append_left _ hfront
    · rw [isFlag, hrun.isFlag _ hmem] at hcflag
      cases hcflag
    · exact List.mem_append_right _ hback
  case covers =>
    intro f hf
    -- A selection of the flag alone is one of the ways.
    rcases List.exists_mem_of_ne_nil _ (expansions_ne_nil back) with ⟨e, he⟩
    have hselected : [f] ∈ selections flags :=
      Arrangement.mem_selections_iff.2 (List.singleton_subperm_iff.2 hf)
    have hway : f :: e ∈ stems.flatMap (Stem.ways flags back) := by
      refine List.mem_flatMap.2 ⟨.ahead [], hahead, ?_⟩
      simpa [Stem.ways] using mem_weave_iff.2 ⟨[f], hselected, e, he, rfl⟩
    rcases hlaid.covers f e hway with ⟨c, hc, hslot⟩
    have hcflag : c.isFlag = true := by
      rw [isFlag, Parameter.isFlag_eq_of_slot_eq hslot]
      exact hrun.isFlag f hf
    exact ⟨c, hc, hrun.eq_of_slot (hflag c hc hcflag) hf hslot⟩
  case strand =>
    intro c hc hcflag
    have hbelow : c = layAll u
        (weave (stems.flatMap (Stem.begun flags c.parameter.slot)) (expansions back))
        (sprout c.parameter) := by
      rw [← Stem.rests_flatMap_ways_flag hgood hrun.isFlag_front hrun.isFlag_back hcflag]
      exact hlaid.child c hc
    exact strand_layAll hu hrun p hcflag hbelow List.erase_subset fun ps =>
      Stem.mem_begun_iff hrun hahead (hflag c hc hcflag)
  case kin =>
    intro hd
    -- With slots of its own, what follows the run is laid here as it is laid by itself.
    rw [hn, kin_layAll_sprout, (hgood.repeats_filter hd hdistinct hrun hahead).layAll_eq]
    refine List.filter_eq_self.2 fun c hc => ?_
    rcases (laid_layAll hu (expansions back) p).origin c hc with ⟨ps, hps⟩
    exact decide_eq_true (List.mem_map_of_mem (mem_of_mem_expansions hps List.mem_cons_self))
  case optional =>
    intro hd c hc hcflag hcback
    rcases hgood.child_cases hlaid hc with ⟨-, qs, hstem⟩ | ⟨hmem, -⟩ | hback
    · -- Nothing that is required is left before the run.
      have halike := hgood.alike hd _ _ hstem hahead
      have hnot : c.parameter.isRequired = false := by
        by_cases hrequired : c.parameter.isRequired = true
        · simp [hrequired] at halike
        · simpa using hrequired
      simpa [isOptional, Parameter.isRequired] using hnot
    · rw [isFlag, hrun.isFlag _ hmem] at hcflag
      cases hcflag
    · have hslot : c.parameter.slot ∈ slots back := List.mem_map_of_mem hback
      simp [slotAmong, hslot] at hcback

/-- **Woven trees.** What is left of a usage with one run of flags makes a woven tree. -/
theorem woven_of_stems (hu : u.usage.isDefault = false) (hrun : u.usage.FlagRun front flags back)
    (hgreedy : ∀ p ∈ u.usage.parameters, p.greedy = false)
    (hdistinct : distinct → ((front ++ back).map Parameter.slot).Nodup) {stems : List Stem}
    (hgood : Stem.Good front back distinct stems) {n : Node} {p : Parameter}
    (hn : n = layAll u (stems.flatMap (Stem.ways flags back)) (sprout p)) :
    Woven front flags back distinct n := by
  induction n using Node.induction generalizing stems p with
  | step n ih =>
    have hlaid : Laid u (stems.flatMap (Stem.ways flags back)) n := by
      rw [hn]
      exact laid_layAll hu _ p
    have hgreedyChild : ∀ c ∈ n.children, c.isGreedy = false := by
      intro c hc
      refine hgreedy c.parameter ?_
      rw [hrun.parameters]
      rcases hgood.child_cases hlaid hc with ⟨hfront, -⟩ | ⟨hmem, -⟩ | hback
      · simp [hfront]
      · simp [hmem]
      · simp [hback]
    have hbelow : ∀ c ∈ n.children, c.isFlag = false → Woven front flags back distinct c := by
      intro c hc hcflag
      have hleft : Stem.Good front back distinct
          (stems.flatMap (Stem.below flags back c.parameter.slot)) := hgood.below hdistinct _
      refine ih c hc hleft (p := c.parameter) ?_
      rw [← Stem.rests_flatMap_ways hrun.isFlag hcflag]
      exact hlaid.child c hc
    -- Flags come next exactly if a way has nothing left before the run.
    by_cases hahead : .ahead [] ∈ stems
    · have hback : ∀ e ∈ expansions back, ∀ r ∈ e, r.isFlag = false ∧ r.greedy = false := by
        intro e he r hr
        have hmem := mem_of_mem_expansions he hr
        exact ⟨hrun.isFlag_back r hmem, hgreedy r (by rw [hrun.parameters]; simp [hmem])⟩
      rcases woven_of_plain hu hback (p := p) rfl with ⟨hcsflag, hcsgreedy, hcswoven⟩
      exact .fork (fork_of_stems hu hrun hdistinct hgood hahead hlaid hn)
        (fun c hc _ => hgreedyChild c hc) hbelow hcsflag hcsgreedy hcswoven
    · have hplain : ∀ c ∈ n.children, c.isFlag = false := by
        intro c hc
        rcases hgood.child_cases hlaid hc with ⟨hfront, -⟩ | ⟨-, hstem⟩ | hback
        · exact hrun.isFlag_front _ hfront
        · exact absurd hstem hahead
        · exact hrun.isFlag_back _ hback
      exact .plain hplain hgreedyChild fun c hc => hbelow c hc (hplain c hc)

end Woven

end Node

/-! ## Grammars -/

namespace Grammar

/-- **One run of flags.** The tree of a single usage with one run of flags and nothing greedy is
woven. -/
theorem Reachable.woven {root : Parameter} {g : Grammar} (hg : Reachable root g) {u : Usage}
    (husages : g.usages = [u]) {front flags back : List Parameter}
    (hrun : u.FlagRun front flags back) (hflags : flags ≠ [])
    (hgreedy : ∀ p ∈ u.parameters, p.greedy = false) :
    Node.Woven front flags back (((front ++ back).map Parameter.slot).Nodup) g.root.bare := by
  have hwellFormed : u.WellFormed := hg.faithful.wellFormed u (by rw [husages]; simp)
  have hu : u.isDefault = false := by
    rw [Bool.eq_false_iff]
    intro hdefault
    rcases List.exists_mem_of_ne_nil _ hflags with ⟨f, hf⟩
    have hliteral := hwellFormed.literals hdefault f (by rw [hrun.parameters]; simp [hf])
    have hplain := Parameter.isFlag_of_isLiteral hliteral
    rw [hrun.isFlag f hf] at hplain
    cases hplain
  have hways : u.ways =
      ((expansions front).map Node.Stem.ahead).flatMap (Node.Stem.ways flags back) := by
    rw [hrun.ways_eq hflags hu, List.flatMap_map]
    rfl
  have hgood : Node.Stem.Good front back ((front ++ back).map Parameter.slot).Nodup
      ((expansions front).map Node.Stem.ahead) := by
    refine ⟨?_, by simp, ?_, by simp⟩
    · intro ps hps
      obtain hps : ps ∈ expansions front := by simpa using hps
      exact fun p hp => mem_of_mem_expansions hps hp
    · intro _ ps qs hps hqs
      obtain hps : ps ∈ expansions front := by simpa using hps
      obtain hqs : qs ∈ expansions front := by simpa using hqs
      rw [required_of_mem_expansions hps, required_of_mem_expansions hqs]
  refine Node.woven_of_stems (u := ⟨0, u⟩) (p := root) hu hrun hgreedy id hgood ?_
  rw [hg.bare_eq, husages, ← hways]
  rfl

end Grammar

end CommandLanguage

import CommandLanguage.Proofs.Place

/-!
# Paths of parameters

A node stands for a parameter if it is in its slot, and greedy if the parameter is a greedy
argument. A list of parameters leads from a node to those that are reached along children that stand
for them. Such paths are what usages become in a tree (`Node.Grown`), and what trails follow
(`Judge.Follows.leads`).
-/

namespace CommandLanguage

/-! ## Slots -/

/-- What a tree tells siblings apart by. -/
structure Slot where
  name : String
  type : ValueType
  isLiteral : Bool
  isFlag : Bool
deriving DecidableEq

namespace Parameter

/-- The slot of a parameter. -/
def slot (p : Parameter) : Slot where
  name := Text.foldCase p.name
  type := p.valueType
  isLiteral := p.isLiteral
  isFlag := p.isFlag

/-- Whether a parameter takes a value that is no flag's. -/
def isArgument (p : Parameter) : Bool := !p.isLiteral && !p.isFlag

theorem sameSlot_iff_slot_eq {p q : Parameter} : p.sameSlot q = true ↔ p.slot = q.slot := by
  rw [sameSlot_iff, slot, slot, Slot.mk.injEq]

theorem valueType_eq_of_slot_eq {p q : Parameter} (h : p.slot = q.slot) :
    p.valueType = q.valueType :=
  congrArg Slot.type h

theorem isLiteral_eq_of_slot_eq {p q : Parameter} (h : p.slot = q.slot) :
    p.isLiteral = q.isLiteral :=
  congrArg Slot.isLiteral h

theorem isFlag_eq_of_slot_eq {p q : Parameter} (h : p.slot = q.slot) : p.isFlag = q.isFlag :=
  congrArg Slot.isFlag h

theorem isFlag_of_isLiteral {p : Parameter} (h : p.isLiteral = true) : p.isFlag = false := by
  unfold isLiteral at h
  unfold isFlag
  split at h
  · rename_i hkind
    simp [hkind]
  · cases h

/-- What is no flag takes no value as one. -/
theorem input?_eq_none {p : Parameter} (h : p.isFlag = false) : p.input? = none := by
  unfold isFlag at h
  unfold input?
  split at h
  · cases h
  · rfl

theorem isFlag_of_isArgument {p : Parameter} (h : p.isArgument = true) : p.isFlag = false := by
  simp only [isArgument, Bool.and_eq_true, Bool.not_eq_true'] at h
  exact h.2

end Parameter

/-- The slots of parameters. -/
def slots (ps : List Parameter) : List Slot :=
  ps.map Parameter.slot

@[simp] theorem slots_nil : slots [] = [] := rfl

@[simp] theorem slots_cons (p : Parameter) (ps : List Parameter) :
    slots (p :: ps) = p.slot :: slots ps := rfl

/-! ## Paths -/

namespace Node

/-- Whether a node can be where a usage keeps a parameter. -/
structure StandsFor (n : Node) (p : Parameter) : Prop where
  slot : n.parameter.slot = p.slot
  greedy : p.isArgument = true → p.greedy = true → n.isGreedy = true

theorem standsFor_parameter (n : Node) : n.StandsFor n.parameter :=
  ⟨rfl, fun _ hgreedy => hgreedy⟩

theorem StandsFor.isFlag_eq {n : Node} {p : Parameter} (h : n.StandsFor p) : n.isFlag = p.isFlag :=
  Parameter.isFlag_eq_of_slot_eq h.slot

theorem StandsFor.isLiteral_eq {n : Node} {p : Parameter} (h : n.StandsFor p) :
    n.isLiteral = p.isLiteral :=
  Parameter.isLiteral_eq_of_slot_eq h.slot

/-- Standing for a parameter depends on the parameter of a node alone. -/
theorem StandsFor.of_parameter_eq {n n' : Node} {p : Parameter} (h : n.StandsFor p)
    (heq : n'.parameter = n.parameter) : n'.StandsFor p := by
  rcases h with ⟨hslot, hgreedy⟩
  refine ⟨by rw [heq]; exact hslot, ?_⟩
  intro hargument hp
  rw [isGreedy, heq]
  exact hgreedy hargument hp

/-- Whether parameters lead from a node to another. -/
inductive Leads : Node → List Parameter → Node → Prop where
  | here {n : Node} : Leads n [] n
  | down {n c m : Node} {p : Parameter} {ps : List Parameter} :
      c ∈ n.children → c.StandsFor p → Leads c ps m → Leads n (p :: ps) m

@[simp] theorem leads_nil_iff {n m : Node} : n.Leads [] m ↔ m = n := by
  constructor
  · rintro ⟨⟩
    rfl
  · rintro rfl
    exact .here

theorem leads_cons_iff {n m : Node} {p : Parameter} {ps : List Parameter} :
    n.Leads (p :: ps) m ↔ ∃ c ∈ n.children, c.StandsFor p ∧ c.Leads ps m := by
  constructor
  · rintro ⟨⟩
    exact ⟨_, ‹_›, ‹_›, ‹_›⟩
  · rintro ⟨c, hmem, hstands, hleads⟩
    exact .down hmem hstands hleads

/-- Below a node, what parameters lead to is determined by its children. -/
theorem Leads.of_children_eq {n n' m : Node} {ps : List Parameter} (h : n.Leads ps m)
    (hne : ps ≠ []) (heq : n'.children = n.children) : n'.Leads ps m := by
  cases h with
  | here => exact absurd rfl hne
  | down hmem hstands hrest => exact .down (by rw [heq]; exact hmem) hstands hrest

/-- What parameters lead to stands for the last of them. -/
theorem Leads.standsFor_getLast {n m : Node} {ps : List Parameter} (h : n.Leads ps m) :
    ∀ p ∈ ps.getLast?, m.StandsFor p := by
  induction h with
  | here => simp
  | @down n c m p ps hmem hstands hrest ih =>
    intro q hq
    cases ps with
    | nil =>
      obtain rfl := leads_nil_iff.1 hrest
      obtain rfl : p = q := by simpa using hq
      exact hstands
    | cons p' ps => exact ih q (by simpa using hq)

end Node

/-- The parameters of the nodes of steps. -/
def Step.parameters (steps : List Step) : List Parameter :=
  steps.map (·.node.parameter)

/-- The steps of a trail go along a path. -/
theorem Judge.Follows.leads {j : Judge} {n : Node} {steps : List Step} {left : List String}
    (h : j.Follows n steps left) {p : Place} (hp : p.node = n) :
    n.Leads (Step.parameters steps) (p.along steps).node := by
  induction h generalizing p with
  | nil => exact Node.leads_nil_iff.2 hp
  | @cons n s steps left hmem hallows hrest ih =>
    exact .down hmem s.node.standsFor_parameter (ih (p := p.child s.node) rfl)

end CommandLanguage

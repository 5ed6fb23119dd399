import CommandLanguage.Proofs.DeclaredPermissions
import CommandLanguage.Proofs.Trie

/-!
# Nodes that mirror each other

One place of a usage has several nodes: an optional argument may stand before it or not, and flags in
any order. A node *mirrors* another one if the same parameters are below it, path by path
(`Node.Mirrors`). Where all usages that share a node declare it alike, a node mirrors those of its
children that may be left out (`CommandTree.SharesParameters.elides`), since a way of typing a usage
stays one without an optional argument.
-/

namespace CommandLanguage

/-! ## Parameters that are alike -/

namespace Parameter

variable {p q r : Parameter}

/-- Whether two parameters take and offer the same words. -/
structure Alike (p q : Parameter) : Prop where
  slot : p.slot = q.slot
  kind : p.kind = q.kind
  greedy : p.greedy = q.greedy
  suggestions : p.suggestions = q.suggestions

instance (p q : Parameter) : Decidable (p.Alike q) :=
  decidable_of_iff
    (p.slot = q.slot ∧ p.kind = q.kind ∧ p.greedy = q.greedy ∧ p.suggestions = q.suggestions)
    ⟨fun ⟨hslot, hkind, hgreedy, hsuggestions⟩ => ⟨hslot, hkind, hgreedy, hsuggestions⟩,
      fun h => ⟨h.slot, h.kind, h.greedy, h.suggestions⟩⟩

namespace Alike

theorem refl (p : Parameter) : p.Alike p :=
  ⟨rfl, rfl, rfl, rfl⟩

theorem trans (h : p.Alike q) (h' : q.Alike r) : p.Alike r :=
  ⟨h.slot.trans h'.slot, h.kind.trans h'.kind, h.greedy.trans h'.greedy,
    h.suggestions.trans h'.suggestions⟩

theorem isFlag_eq (h : p.Alike q) : p.isFlag = q.isFlag :=
  isFlag_eq_of_slot_eq h.slot

theorem isOptional_eq (h : p.Alike q) : p.isOptional = q.isOptional := by
  unfold isOptional
  rw [h.kind]

theorem input?_eq (h : p.Alike q) : p.input? = q.input? := by
  unfold input?
  rw [h.kind]

/-- Parameters that are alike have the same names, up to the case of letters. -/
theorem answersTo_eq (h : p.Alike q) (word : String) : p.answersTo word = q.answersTo word := by
  have hname : Text.foldCase p.name = Text.foldCase q.name := congrArg Slot.name h.slot
  have haliases : p.aliases = q.aliases := by
    unfold aliases
    rw [h.kind]
  have hsame : Text.sameIgnoringCase p.name word = Text.sameIgnoringCase q.name word := by
    rw [Bool.eq_iff_iff, Text.sameIgnoringCase_iff, Text.sameIgnoringCase_iff, hname]
  simp only [answersTo, names, List.any_cons, hsame, haliases]

theorem admits_eq (h : p.Alike q) (token : String) : admits token p = admits token q := by
  have htype := valueType_eq_of_slot_eq h.slot
  unfold admits
  rw [h.kind, htype, h.answersTo_eq]

end Alike

end Parameter

/-- With the built-in types, parameters that are alike take the same words. -/
theorem Judge.accepts_eq {j : Judge} (hfits : j.fits = Parameter.admits) {p q : Parameter}
    (h : p.Alike q) (token : String) : j.accepts p token = j.accepts q token := by
  have hanswers : p.answersTo = q.answersTo := funext h.answersTo_eq
  unfold accepts
  rw [h.kind, hfits, h.admits_eq, hanswers]

/-! ## Nodes that mirror another -/

namespace Node

variable {n m c : Node}

theorem isSkippable_eq (h : n.parameter.Alike m.parameter) : n.isSkippable = m.isSkippable := by
  simp only [isSkippable, isOptional, isFlag, h.isOptional_eq, h.isFlag_eq]

/-- Whether below a node is all that is below another one at the paths that begin with a slot. -/
def Mirrors (slot : Slot) (n m : Node) : Prop :=
  ∀ path e, n.view (slot :: path) = some e →
    ∃ e', m.view (slot :: path) = some e' ∧ e.parameter.Alike e'.parameter

theorem Mirrors.refl (slot : Slot) (n : Node) : n.Mirrors slot n :=
  fun _ e he => ⟨e, he, .refl _⟩

theorem Mirrors.trans {slot : Slot} {k : Node} (h : n.Mirrors slot m) (h' : m.Mirrors slot k) :
    n.Mirrors slot k := by
  intro path e he
  rcases h path e he with ⟨e', he', halike⟩
  rcases h' path e' he' with ⟨e'', he'', halike'⟩
  exact ⟨e'', he'', halike.trans halike'⟩

/-- A node that mirrors another one in the slot of a child has a child that mirrors this one. -/
theorem Mirrors.child (hn : n.Apart) (hm : m.Apart) (hc : c ∈ n.children)
    (h : n.Mirrors c.parameter.slot m) :
    ∃ d ∈ m.children, c.parameter.Alike d.parameter ∧ ∀ slot, c.Mirrors slot d := by
  have hview : n.view [c.parameter.slot] = some c.entry := by
    rw [hn.view_child hc]
    rfl
  obtain ⟨e', he', halike⟩ := h [] _ hview
  rw [view_cons, Option.bind_eq_some_iff] at he'
  rcases he' with ⟨d, hd, he'⟩
  have hmem : d ∈ m.children := List.mem_of_find?_eq_some hd
  have hslot : d.parameter.slot = c.parameter.slot := by simpa using List.find?_some hd
  obtain rfl : d.entry = e' := Option.some.inj he'
  refine ⟨d, hmem, halike, ?_⟩
  intro slot path e he
  rw [← hn.view_child hc] at he
  obtain ⟨e', he', halike⟩ := h _ e he
  rw [← hslot, hm.view_child hmem] at he'
  exact ⟨e', he', halike⟩

/-- Whether all that is below an argument that may be left out is there without it as well. -/
def Elides (n : Node) : Prop :=
  ∀ path slot rest e e', n.view (path ++ [slot]) = some e → e.parameter.isOptional = true →
    e.parameter.isFlag = false → rest ≠ [] → n.view (path ++ slot :: rest) = some e' →
      ∃ e'', n.view (path ++ rest) = some e'' ∧ e'.parameter.Alike e''.parameter

theorem Elides.child (h : n.Elides) (hn : n.Apart) (hc : c ∈ n.children) : c.Elides := by
  intro path slot rest e e'
  simpa [hn.view_child hc] using h (c.parameter.slot :: path) slot rest e e'

theorem Elides.mirrors (h : n.Elides) (hn : n.Apart) (hc : c ∈ n.children)
    (hskip : c.isSkippable = true) (slot : Slot) : c.Mirrors slot n := by
  obtain ⟨hoptional, hflag⟩ : c.parameter.isOptional = true ∧ c.parameter.isFlag = false := by
    simpa [isSkippable, isOptional, isFlag] using hskip
  intro path e he
  have hc' : n.view [c.parameter.slot] = some c.entry := by
    rw [hn.view_child hc]
    rfl
  exact h [] c.parameter.slot (slot :: path) c.entry e hc' hoptional hflag (by simp)
    (by rw [List.nil_append, hn.view_child hc, he])

end Node

/-! ## Usages that share nodes -/

/-- A way of typing stays one without an optional argument. -/
theorem ExpandsTo.omit {ps x y : List Parameter} {p : Parameter}
    (h : ExpandsTo ps (x ++ p :: y)) (hoptional : p.isOptional = true) (hflag : p.isFlag = false) :
    ExpandsTo ps (x ++ y) := by
  generalize he : x ++ p :: y = e at h
  induction h generalizing x with
  | nil => simp at he
  | @keep q ps e hq hps ih =>
    cases x with
    | nil =>
      obtain ⟨rfl, rfl⟩ := List.cons.inj he
      exact .drop hq hoptional hps
    | cons q' x =>
      simp only [List.cons_append, List.cons.injEq] at he
      obtain ⟨rfl, hrest⟩ := he
      exact .keep hq (ih hrest)
  | drop hq hdrop _ ih => exact .drop hq hdrop (ih he)
  | @run flags chosen ps e hne hflags hhead hchosen hps ih =>
    rcases List.append_eq_append_iff.1 he with ⟨z, hz, hrest⟩ | ⟨z, rfl, hrest⟩
    · cases z with
      | nil =>
        obtain rfl : x = chosen := by simpa using hz.symm
        simpa using ExpandsTo.run hne hflags hhead hchosen (ih (x := []) (by simpa using hrest))
      | cons q z =>
        -- The argument would be one of the flags.
        obtain ⟨rfl, -⟩ := List.cons.inj hrest
        have hp := hflags p (hchosen.subset (by simp [hz]))
        rw [hflag] at hp
        cases hp
    · rw [List.append_assoc]
      exact .run hne hflags hhead hchosen (ih hrest.symm)

theorem Usage.WellFormed.omit_mem_ways {u : Usage} (hu : u.WellFormed) {x y : List Parameter}
    {p : Parameter} (h : x ++ p :: y ∈ u.ways) (hoptional : p.isOptional = true)
    (hflag : p.isFlag = false) : x ++ y ∈ u.ways := by
  rw [mem_ways_iff] at h ⊢
  generalize he : x ++ p :: y = e at h
  cases h with
  | expansion hdefault hexpands =>
    subst he
    exact .expansion hdefault (hexpands.omit hoptional hflag)
  | default hdefault =>
    have hp := Parameter.isOptional_of_isLiteral (hu.literals hdefault p (by simp [← he]))
    rw [hoptional] at hp
    cases hp

/-- A way of typing has parameters of its usage. -/
theorem Usage.mem_parameters_of_mem_ways {u : Usage} {e : List Parameter} (h : e ∈ u.ways)
    {p : Parameter} (hp : p ∈ e) : p ∈ u.parameters := by
  rcases mem_ways_iff.1 h with ⟨-, hexpands⟩ | -
  · exact hexpands.mem hp
  · exact hp

/-- A way of typing that goes along two paths, one after the other, falls into two. -/
theorem through?_append_iff {path rest : List Slot} (hrest : rest ≠ []) {ps : List Parameter}
    {p : Parameter} :
    through? (path ++ rest) ps = some p ↔
      ∃ x y, ps = x ++ y ∧ slots x = path ∧ through? rest y = some p := by
  induction path generalizing ps with
  | nil =>
    constructor
    · exact fun h => ⟨[], ps, rfl, rfl, h⟩
    · rintro ⟨x, y, rfl, hx, h⟩
      obtain rfl : x = [] := by simpa [slots] using hx
      exact h
  | cons slot path ih =>
    cases ps with
    | nil =>
      constructor
      · simp
      · rintro ⟨x, y, hxy, hx, -⟩
        obtain ⟨rfl, -⟩ := List.append_eq_nil_iff.1 hxy.symm
        simp at hx
    | cons q ps =>
      have hcons : through? (slot :: path ++ rest) (q :: ps) =
          if slot = q.slot then through? (path ++ rest) ps else none := by
        simp [through?, hrest]
      rw [hcons]
      constructor
      · intro h
        split at h
        · rename_i hslot
          rcases ih.1 h with ⟨x, y, rfl, rfl, hy⟩
          exact ⟨q :: x, y, rfl, by simp [hslot], hy⟩
        · cases h
      · rintro ⟨x, y, hxy, hx, h⟩
        cases x with
        | nil => simp at hx
        | cons q' x =>
          rw [List.cons_append] at hxy
          obtain ⟨rfl, rfl⟩ := List.cons.inj hxy
          obtain ⟨rfl, rfl⟩ := List.cons.inj hx
          rw [if_pos rfl]
          exact ih.2 ⟨x, y, rfl, rfl, h⟩

/-- The parameter at the end of a path is one of the way, and in the last slot of the path. -/
theorem mem_of_through? {path : List Slot} {ps : List Parameter} {p : Parameter}
    (h : through? path ps = some p) : p ∈ ps ∧ path.getLast? = some p.slot := by
  cases path using List.reverseRecOn with
  | nil => simp at h
  | append_singleton path slot =>
    rcases (through?_append_iff (by simp)).1 h with ⟨x, y, rfl, -, hy⟩
    cases y with
    | nil => simp at hy
    | cons q y =>
      obtain ⟨rfl, rfl⟩ : slot = q.slot ∧ q = p := by simpa [through?] using hy
      simp

namespace CommandTree

variable {t : CommandTree}

/-- Whether usages that share a node declare it alike: each way of typing declares what the first way
along it does. -/
def SharesParameters (t : CommandTree) : Prop :=
  ∀ u ∈ t.usages, ∀ e ∈ u.ways, ∀ path p q, through? path e = some p →
    t.maker? path = some q → p.Alike q

/-- Usages whose parameters in one slot are alike share nodes that they declare alike. -/
theorem sharesParameters_of_alike (h : ∀ u ∈ t.usages, ∀ v ∈ t.usages, ∀ p ∈ u.parameters,
    ∀ q ∈ v.parameters, p.slot = q.slot → p.Alike q) : t.SharesParameters := by
  intro u hu e he path p q hp hq
  obtain ⟨w, hw, hthrough⟩ := List.exists_of_findSome?_eq_some hq
  rcases List.mem_flatMap.1 hw with ⟨v, hv, hway⟩
  obtain ⟨hpe, hlast⟩ := mem_of_through? hp
  obtain ⟨hqw, hlast'⟩ := mem_of_through? hthrough
  have hslot : p.slot = q.slot := Option.some.inj (hlast.symm.trans hlast')
  exact h u hu v hv p (Usage.mem_parameters_of_mem_ways he hpe) q
    (Usage.mem_parameters_of_mem_ways hway hqw) hslot

/-- Where usages that share a node declare it alike, all that is below an argument that may be left
out is there without it as well. -/
theorem SharesParameters.elides (hshares : t.SharesParameters)
    (houtlined : (⟨t.root, t.usages⟩ : Grammar).Outlined)
    (hwell : ∀ u ∈ t.usages, u.WellFormed) : t.root.Elides := by
  have hmaker : ∀ {path e}, path ≠ [] → t.root.view path = some e →
      t.maker? path = some e.parameter := by
    intro path e hpath he
    have hparameter := houtlined.parameter hpath
    rw [he] at hparameter
    exact hparameter.symm
  intro path slot rest e e' he hoptional hflag hrest he'
  have hne : path ++ slot :: rest ≠ [] := by simp
  -- Some way of typing goes along the path with the argument, whose parameter is optional too.
  obtain ⟨w, hw, hthrough⟩ := List.exists_of_findSome?_eq_some (hmaker hne he')
  rcases List.mem_flatMap.1 hw with ⟨u, hu, hway⟩
  have hsplit : path ++ slot :: rest = (path ++ [slot]) ++ rest := by simp
  rw [hsplit, through?_append_iff hrest] at hthrough
  rcases hthrough with ⟨x, y, rfl, hx, hthrough⟩
  obtain ⟨x, z, rfl, hpath, hz⟩ := List.map_eq_append_iff.1 hx
  obtain ⟨p, rfl, hp⟩ := List.map_eq_singleton_iff.1 hz
  have hargument : p.Alike e.parameter := by
    refine hshares u hu _ hway (path ++ [slot]) p _ ?_ (hmaker (by simp) he)
    exact (through?_append_iff (by simp)).2 ⟨x, [p] ++ y, by simp, hpath, by simp [through?, hp]⟩
  -- Without it the way is still one of the usage, and goes along the path without the argument.
  have hway' : x ++ y ∈ u.ways := by
    refine (hwell u hu).omit_mem_ways (by simpa using hway) ?_ ?_
    · rw [hargument.isOptional_eq]
      exact hoptional
    · rw [hargument.isFlag_eq]
      exact hflag
  have hthrough' : through? (path ++ rest) (x ++ y) = some e'.parameter :=
    (through?_append_iff hrest).2 ⟨x, y, rfl, hpath, hthrough⟩
  have hne' : path ++ rest ≠ [] := by simp [hrest]
  obtain ⟨e'', he''⟩ := Option.isSome_iff_exists.1 ((houtlined.view_isSome_iff hne').2
    ⟨u, hu, x ++ y, hway', (through?_isSome_iff.1 (by rw [hthrough']; rfl)).2⟩)
  exact ⟨e'', he'', hshares u hu _ hway' _ _ _ hthrough' (hmaker hne' he'')⟩

end CommandTree

end CommandLanguage

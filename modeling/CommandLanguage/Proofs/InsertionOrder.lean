import CommandLanguage.Proofs.Acceptance
import CommandLanguage.Proofs.Numbering
import CommandLanguage.Proofs.Trie

/-!
# The order of insertion

Declared usages may be inserted in any order: if all of them are accepted in one order they are in every
other, and the trees have one shape (`Grammar.insertAll_perm`). Whether usages are accepted is told
without their order (`Grammar.Reachable.exists_insertAll_eq_ok_iff`), and a tree is the trie of its
usages, whichever of several of one form it was that came first.
-/

namespace CommandLanguage

namespace Grammar

/-! ## Accepted usages -/

theorem Admits.mono {root : Parameter} {us vs : List Usage} (h : Admits root [] us)
    (hsub : ∀ v ∈ vs, v ∈ us) : Admits root [] vs where
  faultless := fun v hv => h.faultless v (hsub v hv)
  root := fun hroot v hv => h.root hroot v (hsub v hv)
  agree := by
    intro path b b' hb hb'
    have hways : ∀ e ∈ ([] ++ vs).flatMap Usage.ways, e ∈ ([] ++ us).flatMap Usage.ways := by
      intro e he
      rcases List.mem_flatMap.1 he with ⟨v, hv, he⟩
      exact List.mem_flatMap.2 ⟨v, hsub v hv, he⟩
    exact h.agree path b b' (hb.mono hways) (hb'.mono hways)

/-! ## Usages of a grammar -/

/-- What the usages of a grammar are after insertion: those before and the new one, if there was none
of its form. -/
structure Lists (before : List Usage) (us : List Usage) (after : List Usage) : Prop where
  kept : ∀ v ∈ before, v ∈ after
  origin : ∀ v ∈ after, v ∈ before ∨ v ∈ us
  listed : ∀ u ∈ us, ∃ v ∈ after, v.sameForm u = true

theorem Lists.trans {us us' before mid after : List Usage} (h : Lists before us mid)
    (h' : Lists mid us' after) : Lists before (us ++ us') after where
  kept := fun v hv => h'.kept v (h.kept v hv)
  origin := by
    intro v hv
    rw [List.mem_append, ← or_assoc]
    exact (h'.origin v hv).imp_left (h.origin v)
  listed := by
    intro u hu
    rcases List.mem_append.1 hu with hu | hu
    · rcases h.listed u hu with ⟨v, hv, hform⟩
      exact ⟨v, h'.kept v hv, hform⟩
    · exact h'.listed u hu

theorem lists_of_insert {g g' : Grammar} {u : Usage} {number : Nat}
    (h : g.insert u = .ok (number, g')) : Lists g.usages [u] g'.usages := by
  obtain ⟨-, ⟨hfind, rfl⟩ | ⟨-, -, husages, -⟩⟩ := insert_eq_ok_iff.1 h
  · obtain ⟨hlt, hform, -⟩ := List.findIdx?_eq_some_iff_getElem.1 hfind
    refine ⟨fun v hv => hv, fun v hv => .inl hv, ?_⟩
    intro v hv
    rw [List.mem_singleton.1 hv]
    exact ⟨_, List.getElem_mem hlt, hform⟩
  · rw [husages]
    refine ⟨fun v hv => List.mem_append_left _ hv, fun v hv => List.mem_append.1 hv, ?_⟩
    intro v hv
    exact ⟨v, List.mem_append_right _ hv, Usage.sameForm_iff.2 ⟨rfl, rfl⟩⟩

theorem lists_of_insertAll {us : List Usage} {g g' : Grammar} (h : g.insertAll us = .ok g') :
    Lists g.usages us g'.usages := by
  induction us generalizing g with
  | nil =>
    obtain rfl := Except.ok.inj h
    exact ⟨fun v hv => hv, fun v hv => .inl hv, by simp⟩
  | cons u us ih =>
    unfold insertAll at h ih
    rw [List.foldlM_cons] at h
    rcases bind_eq_ok_iff.1 h with ⟨mid, hmid, hrest⟩
    cases hinsert : g.insert u with
    | error e =>
      rw [hinsert] at hmid
      cases hmid
    | ok found =>
      rw [hinsert] at hmid
      obtain rfl := Except.ok.inj hmid
      exact (lists_of_insert hinsert).trans (ih hrest)

/-! ## Shapes -/

/-- Whether two grammars have trees of one shape: as many nodes, at the same paths, of which the same
complete usages, with as many parameters. -/
structure SameShape (g g' : Grammar) : Prop where
  size : g.size = g'.size
  paths : ∀ path, (∃ p ∈ g.root.places, p.slots = path) ↔ ∃ p ∈ g'.root.places, p.slots = path
  executable : ∀ path,
    (∃ p ∈ g.root.places, p.slots = path ∧ p.node.terminal.isSome = true) ↔
      ∃ p ∈ g'.root.places, p.slots = path ∧ p.node.terminal.isSome = true
  parameters : ∀ p ∈ g.root.places, ∀ p' ∈ g'.root.places, p.slots = p'.slots →
    p.node.terminal.map (·.usage.parameters.length) =
      p'.node.terminal.map (·.usage.parameters.length)

/-- Whether each usage of a grammar has one of its form in another. -/
def Covers (g g' : Grammar) : Prop :=
  ∀ u ∈ g'.usages, ∃ v ∈ g.usages, v.sameForm u = true

section Shapes

variable {g g' : Grammar} {path : List Slot}

theorem Covers.reaches (h : g.Covers g')
    (hpath : path = [] ∨ ∃ u ∈ g'.usages, ∃ e, u.Yields e ∧ path <+: slots e) :
    path = [] ∨ ∃ u ∈ g.usages, ∃ e, u.Yields e ∧ path <+: slots e := by
  rcases hpath with hnil | ⟨u, hu, e, he, hprefix⟩
  · exact .inl hnil
  · rcases h u hu with ⟨v, hv, hform⟩
    refine .inr ⟨v, hv, e, ?_, hprefix⟩
    rw [← Usage.mem_ways_iff, ways_eq_of_sameForm hform]
    exact Usage.mem_ways_iff.2 he

/-- What a usage of one grammar expands to, one with the same parameters of the other does. -/
theorem Covers.completes (h : g.Covers g') {u : NumberedUsage} (hu : g'.Completes path u) :
    ∃ v, g.Completes path v ∧ v.usage.parameters = u.usage.parameters := by
  rcases h u.usage (List.mem_of_getElem? hu.listed) with ⟨v, hv, hform⟩
  rcases Usage.sameForm_iff.1 hform with ⟨hdefault, hparameters⟩
  rcases List.getElem?_of_mem hv with ⟨number, hnumber⟩
  exact ⟨⟨number, v⟩, ⟨hnumber, hdefault.trans hu.proper, by rw [hparameters]; exact hu.expands⟩,
    hparameters⟩

/-- Where both complete a usage, the one that covers the other has no more parameters. -/
theorem Covers.length_le (h : g.Covers g') (hg : g.IsTrie) {p p' : Place}
    (hp : p ∈ g.root.places) (hslots : p.slots = p'.slots) {u u' : NumberedUsage}
    (hu : p.node.terminal = some u) (hu' : g'.Completes p'.slots u') :
    u.usage.parameters.length ≤ u'.usage.parameters.length := by
  rw [← hslots] at hu'
  rcases h.completes hu' with ⟨v, hv, hparameters⟩
  have hpreferred := ((hg.terminal p hp u).1 hu).2 v hv
  rw [hparameters] at hpreferred
  omega

theorem Covers.isSome_terminal (h : g.Covers g') (hg : g.IsTrie) (hg' : g'.IsTrie) {p p' : Place}
    (hp : p ∈ g.root.places) (hp' : p' ∈ g'.root.places) (hslots : p.slots = p'.slots)
    (hsome : p'.node.terminal.isSome = true) : p.node.terminal.isSome = true := by
  rcases (hg'.executable p' hp').1 hsome with ⟨u, hu⟩
  rcases h.completes hu with ⟨v, hv, -⟩
  exact (hg.executable p hp).2 ⟨v, by rwa [hslots]⟩

theorem Covers.executable (h : g.Covers g') (hg : g.IsTrie) (hg' : g'.IsTrie)
    (hpath : ∃ p ∈ g'.root.places, p.slots = path ∧ p.node.terminal.isSome = true) :
    ∃ p ∈ g.root.places, p.slots = path ∧ p.node.terminal.isSome = true := by
  rcases hpath with ⟨p', hp', rfl, hsome⟩
  obtain ⟨p, hp, hslots⟩ := (hg.reaches p'.slots).2 (h.reaches ((hg'.reaches p'.slots).1 ⟨p', hp', rfl⟩))
  exact ⟨p, hp, hslots, h.isSome_terminal hg hg' hp hp' hslots hsome⟩

/-- Tries of usages of the same forms have one shape. -/
theorem sameShape_of_covers (h : g.Covers g') (h' : g'.Covers g) (hg : g.IsTrie) (hg' : g'.IsTrie) :
    g.SameShape g' := by
  have hpaths : ∀ path,
      (∃ p ∈ g.root.places, p.slots = path) ↔ ∃ p ∈ g'.root.places, p.slots = path := by
    intro path
    rw [hg.reaches, hg'.reaches]
    exact ⟨h'.reaches, h.reaches⟩
  refine ⟨?_, hpaths, fun path => ⟨h'.executable hg' hg, h.executable hg hg'⟩, ?_⟩
  · -- Each node has a path of its own, so the paths tell how many there are.
    have hperm : (g.root.places.map Place.slots).Perm (g'.root.places.map Place.slots) := by
      rw [List.perm_ext_iff_of_nodup hg.apart hg'.apart]
      intro path
      simpa using hpaths path
    have hlength := hperm.length_eq
    rw [List.length_map, List.length_map] at hlength
    rw [size, size, Node.size_eq, Node.size_eq, Node.ids, Node.ids, List.length_map,
      List.length_map, hlength]
  · intro p hp p' hp' hslots
    have hsome := h.isSome_terminal hg hg' hp hp' hslots
    have hsome' := h'.isSome_terminal hg' hg hp' hp hslots.symm
    cases hu : p.node.terminal with
    | none =>
      cases hu' : p'.node.terminal with
      | none => rfl
      | some u' => simp [hu, hu'] at hsome
    | some u =>
      cases hu' : p'.node.terminal with
      | none => simp [hu, hu'] at hsome'
      | some u' =>
        -- Each tree prefers the shortest of the usages that end here.
        have hcompletes := ((hg.terminal p hp u).1 hu).1
        have hcompletes' := ((hg'.terminal p' hp' u').1 hu').1
        have hle := h.length_le hg hp hslots hu hcompletes'
        have hge := h'.length_le hg' hp' hslots.symm hu' hcompletes
        exact congrArg some (Nat.le_antisymm hle hge)

end Shapes

/-- **The order of insertion.** Declared usages are all accepted in one order exactly if they are in
another, and then the two trees have one shape. -/
theorem insertAll_perm (root : Parameter) {us vs : List Usage}
    (hdeclared : ∀ u ∈ us, u.Declared) (hperm : us.Perm vs) :
    ((∃ g, (new root).insertAll us = .ok g) ↔ ∃ g', (new root).insertAll vs = .ok g') ∧
      ∀ g g', (new root).insertAll us = .ok g → (new root).insertAll vs = .ok g' →
        g.SameShape g' := by
  have hdeclared' : ∀ v ∈ vs, v.Declared := fun v hv => hdeclared v (hperm.mem_iff.2 hv)
  constructor
  · rw [Reachable.new.exists_insertAll_eq_ok_iff (by simp [Grammar.new]) hdeclared,
      Reachable.new.exists_insertAll_eq_ok_iff (by simp [Grammar.new]) hdeclared']
    exact ⟨fun h => h.mono fun v hv => hperm.mem_iff.2 hv,
      fun h => h.mono fun v hv => hperm.mem_iff.1 hv⟩
  · intro g g' hg hg'
    have hlists := lists_of_insertAll hg
    have hlists' := lists_of_insertAll hg'
    refine sameShape_of_covers ?_ ?_ (Reachable.new.insertAll hg).outlined.isTrie
      (Reachable.new.insertAll hg').outlined.isTrie
    · intro v hv
      rcases hlists'.origin v hv with hnew | hv
      · simp [Grammar.new] at hnew
      · exact hlists.listed v (hperm.mem_iff.2 hv)
    · intro u hu
      rcases hlists.origin u hu with hnew | hu
      · simp [Grammar.new] at hnew
      · exact hlists'.listed u (hperm.mem_iff.1 hu)

/-- A usage whose last argument takes the words left. -/
def barringUsage : Usage :=
  ⟨"ban", [.required "who" .string, { Parameter.optional "why" .string with greedy := true }], none,
    none, false⟩

/-- A usage that begins with the same argument. -/
def suspendingUsage : Usage :=
  ⟨"suspend", [.required "who" .string, .required "days" .int], none, none, false⟩

/-- The two usages in either order. -/
theorem insertAll_perm_ban :
    ∃ us vs, us = [barringUsage, suspendingUsage] ∧ vs = [suspendingUsage, barringUsage] ∧
      (∀ u ∈ us, u.Declared) ∧ us.Perm vs ∧
        ∃ g g', (new (.literal "ban" [])).insertAll us = .ok g ∧
          (new (.literal "ban" [])).insertAll vs = .ok g' ∧ g.SameShape g' := by
  have hbarring : barringUsage.Declared :=
    ⟨⟨"ban", none, none, false,
      [⟨"who", .required, none, false, none, none, none, [], [], false⟩,
        ⟨"why", .optional, none, true, none, none, none, [], [], false⟩]⟩, "ban", rfl⟩
  have hsuspending : suspendingUsage.Declared :=
    ⟨⟨"suspend", none, none, false,
      [⟨"who", .required, none, false, none, none, none, [], [], false⟩,
        ⟨"days", .required, some "int", false, none, none, none, [], [], false⟩]⟩, "ban", rfl⟩
  have hdeclared : ∀ u ∈ [barringUsage, suspendingUsage], u.Declared := by
    simpa using ⟨hbarring, hsuspending⟩
  have hperm : [barringUsage, suspendingUsage].Perm [suspendingUsage, barringUsage] :=
    .swap suspendingUsage barringUsage []
  obtain ⟨g, hg⟩ : ∃ g, (new (.literal "ban" [])).insertAll [barringUsage, suspendingUsage] =
      .ok g := ⟨_, rfl⟩
  rcases insertAll_perm (.literal "ban" []) hdeclared hperm with ⟨hiff, hshape⟩
  rcases hiff.1 ⟨g, hg⟩ with ⟨g', hg'⟩
  exact ⟨_, _, rfl, rfl, hdeclared, hperm, g, g', hg, hg', hshape g g' hg hg'⟩

end Grammar

end CommandLanguage

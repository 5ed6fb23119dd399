import CommandLanguage.Proofs.Reachable
import CommandLanguage.Proofs.Resolution
import Mathlib.Data.List.Nodup

/-!
# Required parameters

The path to a resolved usage has a node in the slot of every parameter of one of the ways of typing
it, so in that of every required one. Whether these are all bound is another matter: a node is
shared by the usages that have a parameter in its slot, and is passed over if the parameter of the
usage that made it is optional.

* `CommandTree.requiredBound_iff` says exactly when the required parameters of a usage have their
  bindings, and `CommandTree.required_unbound` is the smallest case in which they have not;
* `CommandTree.KeepsRequired.requiredBound`: they always have where no required parameter lies on a
  node that may be passed over.
-/

namespace CommandLanguage

/-- Items that are found among others are found among those that are kept, if none in their place is
left out. -/
theorem sublist_map_filter {α β : Type} {f : α → β} {keep : α → Bool} {xs : List α} {ys : List β}
    (h : ys.Sublist (xs.map f)) (hkeep : ∀ x ∈ xs, keep x = false → f x ∉ ys) :
    ys.Sublist ((xs.filter keep).map f) := by
  induction xs generalizing ys with
  | nil => simpa using h
  | cons x xs ih =>
    rcases List.forall_mem_cons.1 hkeep with ⟨hx, hxs⟩
    rcases List.sublist_cons_iff.1 h with hrest | ⟨zs, rfl, hrest⟩
    · rw [List.filter_cons]
      split
      · exact (ih hrest hxs).cons _
      · exact ih hrest hxs
    · have hkept : keep x = true := by
        cases hfalse : keep x with
        | true => rfl
        | false => exact absurd List.mem_cons_self (hx hfalse)
      rw [List.filter_cons_of_pos hkept, List.map_cons]
      refine (ih hrest ?_).cons_cons _
      intro x' hx' hleft hmem
      exact hxs x' hx' hleft (List.mem_cons_of_mem _ hmem)

/-! ## Slots along a trail -/

namespace Step

/-- The slot of the node of a step. -/
def slot (s : Step) : Slot := s.node.parameter.slot

theorem slots_parameters (steps : List Step) : slots (parameters steps) = steps.map slot := by
  simp [slots, parameters, slot]

/-- The slots of bindings are those of the steps that bind a node. -/
theorem slots_bindings (steps : List Step) :
    (bindings steps).map (·.node.parameter.slot) = (steps.filter (·.binding?.isSome)).map slot := by
  induction steps with
  | nil => rfl
  | cons s steps ih =>
    cases s with
    | take before n ws => simp [binding?, slot, node, ih]
    | flag n f => simp [binding?, ih]
    | pass before n => simp [binding?, ih]

end Step

/-- A node that is passed over is optional. -/
theorem Judge.Follows.isOptional {j : Judge} {n : Node} {steps : List Step} {left : List String}
    (h : j.Follows n steps left) {s : Step} (hs : s ∈ steps) (hpass : s.passes = true) :
    s.node.isOptional = true := by
  rcases h.exists_allows hs with ⟨rest, hallows⟩
  cases hallows with
  | word | greedy | flag => cases hpass
  | pass hskip =>
    simp only [Node.isSkippable, Bool.and_eq_true] at hskip
    exact hskip.1

/-- Steps bind the nodes that are neither passed over nor flags. -/
theorem Judge.Follows.isFlag {j : Judge} {n : Node} {steps : List Step} {left : List String}
    (h : j.Follows n steps left) {s : Step} (hs : s ∈ steps) (hpass : s.passes = false)
    (hbinds : s.binding?.isSome = false) : s.slot.isFlag = true := by
  rcases h.exists_allows hs with ⟨rest, hallows⟩
  cases hallows with
  | word | greedy => cases hbinds
  | flag hflag => exact hflag
  | pass => cases hpass

/-! ## Required parameters of a resolved usage -/

namespace Usage

/-- The slots of the required parameters of a usage. -/
def requiredSlots (u : Usage) : List Slot :=
  slots (u.parameters.filter (·.isRequired))

/-- Whether the required parameters of a usage have bindings of their own, in order and in their
slots. -/
def RequiredBound (u : Usage) (bindings : List Binding) : Prop :=
  u.requiredSlots.Sublist (bindings.map (·.node.parameter.slot))

/-- No required parameter is a flag. -/
theorem isFlag_of_mem_requiredSlots {u : Usage} {slot : Slot} (h : slot ∈ u.requiredSlots) :
    slot.isFlag = false := by
  rcases List.mem_map.1 h with ⟨p, hp, rfl⟩
  have hrequired := (List.mem_filter.1 hp).2
  cases hflag : p.isFlag with
  | false => exact hflag
  | true => simp [Parameter.isRequired, Parameter.isOptional_of_isFlag hflag] at hrequired

/-- The required parameters of a usage are in order along each way of typing it. -/
theorem requiredSlots_sublist {u : Usage} {e : List Parameter} (h : e ∈ u.ways) :
    u.requiredSlots.Sublist (slots e) := by
  rw [requiredSlots, ← required_of_mem_ways h]
  exact List.filter_sublist.map _

end Usage

/-- Required parameters have bindings along a path if they are found among the nodes that are not
passed over. -/
theorem Usage.requiredBound_iff_sublist {j : Judge} {n : Node} {steps : List Step}
    {left : List String} (h : j.Follows n steps left) (u : Usage) :
    u.RequiredBound (Step.bindings steps) ↔
      u.requiredSlots.Sublist ((steps.filter (!·.passes)).map Step.slot) := by
  have hkept : steps.filter (·.binding?.isSome) =
      (steps.filter (!·.passes)).filter (·.binding?.isSome) := by
    rw [List.filter_filter]
    refine List.filter_congr fun s _ => ?_
    cases s <;> rfl
  rw [RequiredBound, Step.slots_bindings, hkept]
  constructor
  · intro hbound
    exact hbound.trans (List.filter_sublist.map _)
  · intro hfound
    refine sublist_map_filter hfound ?_
    intro s hs hbinds hmem
    rcases List.mem_filter.1 hs with ⟨hs, hpass⟩
    have hflag := h.isFlag hs (by simpa using hpass) hbinds
    rw [isFlag_of_mem_requiredSlots hmem] at hflag
    cases hflag

/-- If no two nodes of a path are in one slot, required parameters have bindings if no node in the
slot of one is passed over, and only then. -/
theorem Usage.requiredBound_iff_of_nodup {j : Judge} {n : Node} {steps : List Step}
    {left : List String} (h : j.Follows n steps left) {u : Usage}
    (hfound : u.requiredSlots.Sublist (steps.map Step.slot))
    (hnodup : (steps.map Step.slot).Nodup) :
    u.RequiredBound (Step.bindings steps) ↔
      ∀ s ∈ steps, s.passes = true → s.slot ∉ u.requiredSlots := by
  rw [requiredBound_iff_sublist h]
  constructor
  · intro hbound s hs hpass hmem
    rcases List.mem_map.1 (hbound.subset hmem) with ⟨s', hs', hslot⟩
    rcases List.mem_filter.1 hs' with ⟨hs', hkept⟩
    obtain rfl := List.inj_on_of_nodup_map hnodup hs' hs hslot
    simp [hpass] at hkept
  · intro hpasses
    refine sublist_map_filter hfound ?_
    intro s hs hpass
    exact hpasses s hs (by simpa using hpass)

/-- Required parameters are found among the nodes that are not passed over if each of them has such
a node at its place. -/
theorem requiredSlots_sublist_of_aligned {steps : List Step} {e : List Parameter}
    (hslots : steps.map Step.slot = slots e)
    (hkept : ∀ before s after front p back, steps = before ++ s :: after → e = front ++ p :: back →
      before.length = front.length → p.isRequired = true → s.passes = false) :
    (slots (e.filter (·.isRequired))).Sublist ((steps.filter (!·.passes)).map Step.slot) := by
  induction steps generalizing e with
  | nil =>
    have hnil : e = [] := by simpa [slots] using hslots.symm
    simp [hnil]
  | cons s steps ih =>
    cases e with
    | nil => simp [slots] at hslots
    | cons p e =>
      rw [List.map_cons, slots_cons, List.cons.injEq] at hslots
      rcases hslots with ⟨hslot, hslots⟩
      have hrest := ih hslots fun before s' after front p' back hsteps he hlength =>
        hkept (s :: before) s' after (p :: front) p' back (by simp [hsteps]) (by simp [he])
          (by simp [hlength])
      cases hrequired : p.isRequired with
      | false =>
        rw [List.filter_cons_of_neg (by simp [hrequired])]
        rw [List.filter_cons]
        split
        · exact hrest.cons _
        · exact hrest
      | true =>
        have hpass : s.passes = false := hkept [] s steps [] p e rfl rfl rfl hrequired
        rw [List.filter_cons_of_pos hrequired, List.filter_cons_of_pos (by simp [hpass]),
          List.map_cons, slots_cons, hslot]
        exact hrest.cons_cons _

/-- A node holds the usage that it resolves to. -/
theorem Node.held_of_resolved? {n : Node} {u : NumberedUsage} (h : n.resolved? = some u) :
    ∃ r, n.held? r = some u := by
  rcases Node.resolved?_eq_some_iff.1 h with hterminal | ⟨-, -, hfallback⟩
  · exact ⟨.terminal, hterminal⟩
  · exact ⟨.fallback, hfallback⟩

namespace CommandTree

variable {Source : Type}

/-- The path of an input that resolves goes along one of the ways of typing its usage, which is one
of the tree. -/
theorem Resolution.exists_way {root : Parameter} {g : Grammar} {settings : TreeSettings}
    {t : CommandTree} (hg : g.Reachable root) (hseal : g.seal settings = .ok t)
    {caps : Capabilities Source} {source : Source} {tokens : List String} {u : NumberedUsage}
    {steps : List Step} {after : List TypedFlag}
    (hres : t.Resolution caps source tokens u steps after) :
    t.usages[u.number]? = some u.usage ∧ ∃ e ∈ u.usage.ways, steps.map Step.slot = slots e := by
  have hleads := hres.trail.follows.leads (p := .root t.root) rfl
  rcases Node.held_of_resolved? hres.resolved with ⟨r, hheld⟩
  rcases (hg.of_seal hseal).1.faithful.origin hleads hheld with ⟨-, hnumber, e, he, hslots⟩
  rw [Step.slots_parameters] at hslots
  exact ⟨hnumber, e, he, hslots⟩

/-- **Required parameters of a resolved usage.** In a tree sealed from a grammar that can be built,
the path of an input that resolves goes along one of the ways of typing its usage. Required
parameters have bindings exactly when they are found among the nodes that are not passed over; if no
two nodes are in one slot, when no node in the slot of a required parameter is passed over. A node
that is passed over is optional, whatever the parameter of the usage is. -/
theorem requiredBound_iff {root : Parameter} {g : Grammar} {settings : TreeSettings}
    {t : CommandTree} (hg : g.Reachable root) (hseal : g.seal settings = .ok t)
    (caps : Capabilities Source) (source : Source) (tokens : List String)
    (h : (t.dispatch caps source tokens).status = .complete) :
    (∃ u steps after, t.Resolution caps source tokens u steps after) ∧
      ∀ u steps after, t.Resolution caps source tokens u steps after →
        t.usages[u.number]? = some u.usage ∧
        (∃ e ∈ u.usage.ways, steps.map Step.slot = slots e) ∧
        (∀ s ∈ steps, s.passes = true → s.node.isOptional = true) ∧
        (u.usage.RequiredBound (t.dispatch caps source tokens).bindings ↔
          u.usage.requiredSlots.Sublist ((steps.filter (!·.passes)).map Step.slot)) ∧
        ((steps.map Step.slot).Nodup →
          (u.usage.RequiredBound (t.dispatch caps source tokens).bindings ↔
            ∀ s ∈ steps, s.passes = true → s.slot ∉ u.usage.requiredSlots)) := by
  refine ⟨dispatch_complete h, ?_⟩
  intro u steps after hres
  have hfollows := hres.trail.follows
  rcases hres.exists_way hg hseal with ⟨hnumber, e, he, hslots⟩
  have hfound : u.usage.requiredSlots.Sublist (steps.map Step.slot) := by
    rw [hslots]
    exact Usage.requiredSlots_sublist he
  rw [hres.bindings]
  refine ⟨hnumber, ⟨e, he, hslots⟩, ?_, ?_, ?_⟩
  · intro s hs hpass
    exact hfollows.isOptional hs hpass
  · exact Usage.requiredBound_iff_sublist hfollows u.usage
  · intro hnodup
    exact Usage.requiredBound_iff_of_nodup hfollows hfound hnodup

/-- The node of `x` was made by a usage in which it is optional, and is bound for one in which it is
not. -/
theorem requiredBound_iff_number :
    ∃ t words, words = ["7", "hello"] ∧
      ofUsages "cmd" [⟨"a", [.optional "x" .int], none, none, false⟩,
        ⟨"b", [.required "x" .int, .required "z" .string], none, none, false⟩] = .ok t ∧
      (t.dispatch .builtin () words).status = .complete ∧
      ∃ u steps after, t.Resolution .builtin () words u steps after ∧
        (u.usage.RequiredBound (t.dispatch .builtin () words).bindings ↔
          u.usage.requiredSlots.Sublist ((steps.filter (!·.passes)).map Step.slot)) := by
  obtain ⟨t, ht⟩ : ∃ t, ofUsages "cmd" [⟨"a", [.optional "x" .int], none, none, false⟩,
      ⟨"b", [.required "x" .int, .required "z" .string], none, none, false⟩] = .ok t := ⟨_, rfl⟩
  have hcomplete : (t.dispatch .builtin () ["7", "hello"]).status = .complete := by
    cases ht
    rfl
  rcases bind_eq_ok_iff.1 ht with ⟨g, hg, hseal⟩
  obtain ⟨⟨u, steps, after, hres⟩, hbound⟩ :=
    requiredBound_iff (.insertAll .new hg) hseal .builtin () _ hcomplete
  exact ⟨t, _, rfl, ht, hcomplete, u, steps, after, hres, (hbound u steps after hres).2.2.2.1⟩

/-- A usage resolves without its first argument, since a usage inserted before it may leave out what
is in the same slot. -/
theorem required_unbound :
    ∃ t u words, words = ["hello"] ∧
      ofUsages "cmd" [⟨"a", [.optional "x" .int], none, none, false⟩,
        ⟨"b", [.required "x" .int, .required "z" .string], none, none, false⟩] = .ok t ∧
      (t.dispatch .builtin () words).status = .complete ∧
      (t.dispatch .builtin () words).usage = some u ∧
      ¬ u.usage.RequiredBound (t.dispatch .builtin () words).bindings := by
  refine ⟨_, _, _, rfl, rfl, rfl, rfl, fun h => ?_⟩
  -- There are two required parameters and one binding.
  have hlength : 2 ≤ 1 := h.length_le
  omega

/-- Whether no required parameter of a usage lies on a node that may be passed over. -/
def KeepsRequired (t : CommandTree) : Prop :=
  ∀ u ∈ t.usages, ∀ e ∈ u.ways, ∀ front p back, e = front ++ p :: back → p.isRequired = true →
    ∀ ps m, t.root.Leads ps m → slots ps = slots (front ++ [p]) → m.isOptional = false

/-- Where no required parameter lies on a node that may be passed over, the required parameters of
every usage to which an input resolves have bindings. -/
theorem KeepsRequired.requiredBound {root : Parameter} {g : Grammar} {settings : TreeSettings}
    {t : CommandTree} (hg : g.Reachable root) (hseal : g.seal settings = .ok t)
    (hkeeps : t.KeepsRequired) {caps : Capabilities Source} {source : Source}
    {tokens : List String} {u : NumberedUsage} {steps : List Step} {after : List TypedFlag}
    (hres : t.Resolution caps source tokens u steps after) :
    u.usage.RequiredBound (t.dispatch caps source tokens).bindings := by
  have hfollows := hres.trail.follows
  rcases hres.exists_way hg hseal with ⟨hnumber, e, he, hslots⟩
  rw [hres.bindings, Usage.requiredBound_iff_sublist hfollows, Usage.requiredSlots,
    ← Usage.required_of_mem_ways he]
  refine requiredSlots_sublist_of_aligned hslots ?_
  intro before s after' front p back hsteps he' hlength hrequired
  -- The slots up to the node are those up to the parameter.
  have hfront : slots (Step.parameters (before ++ [s])) = slots (front ++ [p]) := by
    rw [Step.slots_parameters]
    have hsplit : (before ++ [s]).map Step.slot ++ after'.map Step.slot =
        slots (front ++ [p]) ++ slots back := by
      rw [hsteps, he'] at hslots
      simpa [slots] using hslots
    exact (List.append_inj hsplit (by simp [slots, hlength])).1
  have hprefix : (t.judge caps source).Follows t.root (before ++ [s]) (Step.allWords after' ++
      TypedFlag.allWords after) := by
    refine Judge.Follows.append_left ?_
    rw [List.append_assoc, List.singleton_append, ← hsteps]
    exact hfollows
  have hleads := hprefix.leads (p := .root t.root) rfl
  rw [Place.node_along_of_getLast? (s := s) (by simp)] at hleads
  have hnode := hkeeps u.usage (List.mem_of_getElem? hnumber) e he front p back he' hrequired _ _
    hleads hfront
  cases hpass : s.passes with
  | false => rfl
  | true =>
    have hoptional := hfollows.isOptional (s := s) (by simp [hsteps]) hpass
    rw [hnode] at hoptional
    cases hoptional

end CommandTree

end CommandLanguage

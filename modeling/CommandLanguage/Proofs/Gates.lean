import CommandLanguage.Proofs.Resolution

/-!
# Permission gates

What an answer says of permissions is so. When an input resolves, the source has passed the gate of
the root, of every node that is bound, of every flag on the way, of the last node and of the usage
(`Search.Passed`). When it is stopped, the gate that it has not passed can be named: that of the
root, of the last node, or of the usage that the last node resolves to (`Search.Refused`). The main
statement, `CommandTree.verdict_justified`, is about every tree, source and input.
-/

namespace CommandLanguage

/-! ## Where walks end -/

namespace Judge

variable {j : Judge}

/-- What a walk finds among the children of a place of a tree is at a place of the tree. -/
theorem explore_last_mem {root n : Node} {above : List Node} {tokens : List String} {hit : Hit}
    (hp : (⟨n, above⟩ : Place) ∈ root.places)
    (h : j.explore ⟨n, above⟩ n.children tokens = .ok hit) : hit.last ∈ root.places := by
  induction n using Node.induction generalizing above tokens hit with
  | step n ih =>
    rcases explore_eq_ok h with ⟨c, hmem, hvisit⟩
    have hc : Place.child ⟨n, above⟩ c ∈ root.places := Node.child_mem_placesFrom hp hmem
    rcases visit_eq_ok hvisit with ⟨taken, token, rest, -, henter | ⟨-, hexplore⟩⟩
    · obtain ⟨-, ⟨-, rfl⟩ | ⟨-, bindings, flags, left, below, -, hbelow, rfl⟩⟩ := enter_eq_ok henter
      · exact hc
      · rw [Hit.last_after]
        rcases descend_eq_ok hbelow with hexplore | ⟨flags', own, -, hfinish, rfl⟩
        · exact ih c hmem hc hexplore
        · rcases Option.map_eq_some_iff.1 hfinish with ⟨u, -, rfl⟩
          exact hc
    · exact ih c hmem hc hexplore

/-- What a walk finds below a place of a tree is at a place of the tree. -/
theorem descend_last_mem {root : Node} {p : Place} {tokens : List String} {hit : Hit}
    (hp : p ∈ root.places) (h : j.descend p tokens = .ok hit) : hit.last ∈ root.places := by
  rcases descend_eq_ok h with hexplore | ⟨flags, own, -, hfinish, rfl⟩
  · exact explore_last_mem hp hexplore
  · rcases Option.map_eq_some_iff.1 hfinish with ⟨u, -, rfl⟩
    exact hp

/-- A node that takes words, or is typed as a flag, is one that the source may use. -/
theorem Allows.permits {s : Step} {rest : List String} (h : j.Allows s rest)
    (hpass : s.passes = false) : j.permits s.node.permission = true := by
  cases h with
  | word _ _ _ _ _ hpermits | greedy _ _ _ _ _ hpermits | flag _ _ hpermits => exact hpermits
  | pass => cases hpass

/-- A node that is passed over is no flag. -/
theorem Allows.isFlag_of_passes {s : Step} {rest : List String} (h : j.Allows s rest)
    (hpass : s.passes = true) : s.node.isFlag = false := by
  cases h with
  | word | greedy | flag => cases hpass
  | pass hskip =>
    simp only [Node.isSkippable, Bool.and_eq_true, Bool.not_eq_true'] at hskip
    exact hskip.2

end Judge

/-! ## Verdicts -/

/-- The gates that a source has passed when an input resolves. -/
structure Search.Passed (s : Search) (permits : Option String → Bool) (root : Node) : Prop where
  entry : permits root.permission = true
  place : s.last ∈ root.places
  bound : ∀ b ∈ s.bindings, b.node ∈ s.last.path ∧ permits b.node.permission = true
  flags : ∀ n ∈ s.last.path, n.isFlag = true → permits n.permission = true
  last : permits s.last.node.permission = true
  usage : ∃ u, s.usage = some u ∧ s.last.node.resolved? = some u ∧
    permits u.usage.permission = true

/-- The gate at which a source has been stopped. -/
inductive Search.Refused (s : Search) (permits : Option String → Bool) (root : Node) : Prop where
  | root : s.last = .root root → permits root.permission = false → Refused s permits root
  | node : s.last ∈ root.places → permits s.last.node.permission = false → Refused s permits root
  | usage {u : NumberedUsage} : s.last ∈ root.places → s.last.node.resolved? = some u →
      permits u.usage.permission = false → s.closest = some u → Refused s permits root

/-- Whether what an answer says of permissions is so. -/
structure Search.Verdict (s : Search) (permits : Option String → Bool) (root : Node) : Prop where
  usage_iff : s.usage.isSome = true ↔ s.status = .complete
  complete : s.status = .complete → s.Passed permits root
  pause : s.status = .pause → s.usage = none ∧ s.Refused permits root

/-- An answer has a usage if it is complete, and only then. -/
theorem Search.usage_isSome_ofWalk (found : Except Miss Hit) :
    (ofWalk found).usage.isSome = true ↔ (ofWalk found).status = .complete := by
  cases found with
  | error miss =>
    rcases miss with ⟨last, failed⟩
    cases failed <;> simp [ofWalk]
  | ok hit =>
    rcases hit with ⟨last, ending, bindings, flags⟩
    cases ending <;> simp [ofWalk]

/-- What a walk finds denied to the source stops it. -/
theorem Judge.Denied.refused {j : Judge} {root : Node} {hit : Hit} (h : j.Denied hit)
    (hlast : hit.last ∈ root.places) : (Search.ofWalk (.ok hit)).Refused j.permits root := by
  rcases hit with ⟨last, ending, bindings, flags⟩
  cases h with
  | node hpermits hending =>
    obtain rfl : ending = .paused last.nearestUsage := hending
    exact .node hlast hpermits
  | @usage u hresolved hpermits hending =>
    obtain rfl : ending = .paused (some u) := hending
    exact .usage hlast hresolved hpermits rfl

namespace CommandTree

variable {Source : Type} {t : CommandTree} {caps : Capabilities Source} {source : Source}
  {tokens : List String}

/-- When an input resolves, the source may use every node on the way that is not passed over. -/
theorem Resolution.permits {u : NumberedUsage} {steps : List Step} {after : List TypedFlag}
    (hres : t.Resolution caps source tokens u steps after) {s : Step} (hs : s ∈ steps)
    (hpass : s.passes = false) : caps.permits source s.node.permission = true := by
  rcases hres.trail.follows.exists_allows hs with ⟨rest, hallows⟩
  exact hallows.permits hpass

/-- When an input resolves, the source has passed every gate on the way. -/
theorem Resolution.passed {u : NumberedUsage} {steps : List Step} {after : List TypedFlag}
    (hres : t.Resolution caps source tokens u steps after)
    (hroot : caps.permits source t.root.permission = true) :
    (t.dispatch caps source tokens).Passed (caps.permits source) t.root := by
  have hpath : (t.dispatch caps source tokens).last.path = steps.map Step.node := by
    rw [hres.last, Place.path_along_root]
  refine ⟨hroot, ?_, ?_, ?_, ?_, ?_⟩
  · rw [hres.last]
    exact hres.trail.follows.along_mem_places (p := .root t.root) (Node.root_mem_places t.root)
  · intro b hb
    rw [hres.bindings] at hb
    rcases List.mem_filterMap.1 hb with ⟨s, hs, hbinds⟩
    have hnode : b.node = s.node ∧ s.passes = false := by
      cases s with
      | take before n ws =>
        cases hbinds
        exact ⟨rfl, rfl⟩
      | flag | pass => cases hbinds
    rw [hpath, hnode.1]
    exact ⟨List.mem_map_of_mem hs, hres.permits hs hnode.2⟩
  · intro n hn hflag
    rw [hpath] at hn
    rcases List.mem_map.1 hn with ⟨s, hs, rfl⟩
    cases hpass : s.passes with
    | false => exact hres.permits hs hpass
    | true =>
      -- No flag is passed over.
      rcases hres.trail.follows.exists_allows hs with ⟨rest, hallows⟩
      rw [hallows.isFlag_of_passes hpass] at hflag
      cases hflag
  · rw [hres.last]
    cases hlast : steps.getLast? with
    | none =>
      obtain rfl : steps = [] := by simpa using hlast
      exact hroot
    | some s =>
      rw [Place.node_along_of_getLast? hlast]
      exact hres.permits (List.mem_of_getLast? hlast) (hres.trail.arrives s hlast)
  · refine ⟨u, hres.usage, ?_, hres.permitted⟩
    rw [hres.last]
    exact hres.resolved

/-- **Permission verdicts.** A source to which an input resolves has passed every gate on the way, a
source that is stopped is denied something that can be named, and there is a usage exactly when the
input resolves. -/
theorem verdict_justified (t : CommandTree) (caps : Capabilities Source) (source : Source)
    (tokens : List String) :
    (t.dispatch caps source tokens).Verdict (caps.permits source) t.root := by
  rcases dispatch_cases t caps source tokens with
    ⟨hroot, hdispatch⟩ | ⟨hroot, ⟨miss, hdispatch⟩ | ⟨hit, hdescend, hdispatch⟩⟩
  · rw [hdispatch]
    refine ⟨by simp, by simp, ?_⟩
    intro _
    exact ⟨rfl, .root rfl hroot⟩
  · rw [hdispatch]
    refine ⟨Search.usage_isSome_ofWalk _, ?_, ?_⟩
    · rcases miss with ⟨last, failed⟩
      cases failed <;> simp [Search.ofWalk]
    · rcases miss with ⟨last, failed⟩
      cases failed <;> simp [Search.ofWalk]
  · refine ⟨?_, ?_, ?_⟩
    · rw [hdispatch]
      exact Search.usage_isSome_ofWalk _
    · intro hcomplete
      rcases dispatch_complete hcomplete with ⟨u, steps, after, hres⟩
      exact hres.passed hroot
    · intro hpause
      have husage : ¬ (t.dispatch caps source tokens).usage.isSome = true := by
        rw [hdispatch] at hpause ⊢
        rw [Search.usage_isSome_ofWalk, hpause]
        simp
      refine ⟨by simpa using husage, ?_⟩
      have hlast : hit.last ∈ t.root.places :=
        Judge.descend_last_mem (Node.root_mem_places t.root) hdescend
      rw [hdispatch] at hpause ⊢
      rcases Judge.descend_sound hdescend with hdenied | ⟨u, steps, after, hfound⟩
      · exact hdenied.refused hlast
      · rw [hfound.hit] at hpause
        cases hpause

end CommandTree

end CommandLanguage

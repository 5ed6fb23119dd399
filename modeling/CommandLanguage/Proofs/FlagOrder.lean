import CommandLanguage.Proofs.Astray
import CommandLanguage.Proofs.RequiredParameters

/-!
# The order of flags

The tree of a single usage with one run of flags answers to typed flags in one order as in any other
as far as the status and the usage go, and altogether if the words do not resolve
(`CommandTree.dispatch_reordered`). The arguments and the flags that an answer has are the same if
the optional arguments are ranked and the flags are typed nowhere before; else what is passed over
may drop flags in one order that it keeps in another, `CommandTree.dispatch_unordered` is a case.
-/

namespace CommandLanguage

/-! ## Segments -/

/-- Whether typed flags are different ones of a list, each typed by one of its names and bound as it
asks. -/
structure Judge.Segments (j : Judge) (flags : List Parameter) (typed : List TypedFlag) : Prop where
  mem : ∀ f ∈ typed, f.bound.flag ∈ flags
  named : ∀ f ∈ typed, (flagAlias? f.token).any f.bound.flag.answersTo = true
  binds : ∀ f ∈ typed, j.Binds f.bound
  distinct : (typed.map (·.bound.flag)).Nodup

namespace Usage.FlagRun

variable {u : Usage} {front flags back : List Parameter}

theorem flags_eq (h : u.FlagRun front flags back) : u.flags = flags := by
  rw [Usage.flags, h.parameters, List.filter_append, List.filter_append,
    List.filter_eq_nil_iff.2 fun p hp => by simp [h.isFlag_front p hp],
    List.filter_eq_self.2 h.isFlag,
    List.filter_eq_nil_iff.2 fun p hp => by simp [h.isFlag_back p hp]]
  simp

/-- The table of a single usage knows the flags of its run. -/
theorem namesFlags (h : u.FlagRun front flags back) {j : Judge}
    (hflags : j.flags = FlagTable.ofUsages [u]) : j.NamesFlags flags := by
  have hdeclared : FlagTable.declared [u] = flags := by simp [FlagTable.declared, h.flags_eq]
  intro token f
  rw [hflags, FlagTable.lookup_eq_some_iff (by rw [hdeclared]; exact h.apart), hdeclared]

theorem eq_of_name (h : u.FlagRun front flags back) {f g : Parameter} (hf : f ∈ flags)
    (hg : g ∈ flags) (hname : f.name = g.name) : f = g := by
  by_contra hfg
  have happart := h.apart.forall hf hg hfg f.name List.mem_cons_self g.name List.mem_cons_self
  rw [Text.sameIgnoringCase_iff.2 (congrArg Text.foldCase hname)] at happart
  cases happart

variable {j : Judge} {typed typed' : List TypedFlag}

/-- Different flags of a run, well typed, may be typed in any order. -/
theorem exchanges (h : u.FlagRun front flags back) (hnames : j.NamesFlags flags)
    (hsegments : j.Segments flags typed) (hperm : typed.Perm typed') (hne : typed ≠ []) :
    j.Exchanges typed typed' where
  perm := hperm
  ne_nil := hne
  known := fun f hf =>
    ⟨(hnames _ _).2 ⟨hsegments.mem f hf, hsegments.named f hf⟩, hsegments.binds f hf⟩
  names := by
    have hdistinct := hsegments.distinct
    have hmap : typed.map (·.bound.flag.name) = (typed.map (·.bound.flag)).map Parameter.name := by
      rw [List.map_map]
      rfl
    rw [hmap]
    refine hdistinct.map_on fun f hf g hg hname => ?_
    rcases List.mem_map.1 hf with ⟨x, hx, rfl⟩
    rcases List.mem_map.1 hg with ⟨y, hy, rfl⟩
    exact h.eq_of_name (hsegments.mem x hx) (hsegments.mem y hy) hname

end Usage.FlagRun

/-- Where an order of segments differs from another, two different flags are typed. -/
theorem Judge.Segments.exists_pair {j : Judge} {flags : List Parameter}
    {typed typed' : List TypedFlag} (h : j.Segments flags typed) (hperm : typed.Perm typed')
    (hne : typed ≠ typed') : typed ≠ [] ∧ ∃ f ∈ flags, ∃ g ∈ flags, f ≠ g := by
  rcases typed with _ | ⟨x, _ | ⟨y, typed⟩⟩
  · exact absurd hperm.nil_eq hne
  · exact absurd (List.perm_singleton.1 hperm.symm).symm hne
  · refine ⟨by simp, _, h.mem x (by simp), _, h.mem y (by simp), ?_⟩
    intro heq
    have hnot := (List.nodup_cons.1 h.distinct).1
    exact hnot (by simp [heq])

/-! ## Answers -/

namespace Search

/-- The arguments of an answer tell no more of a node than its parameter. -/
theorem arguments_eq (s : Search) :
    s.arguments = ((s.bindings.map Binding.plain).filter (!·.1.isLiteral)).map
      fun x => (x.1.name, x.2) := by
  rw [arguments, List.filter_map, List.map_map]
  rfl

/-- What an answer says of a flag depends on the flags of its name alone. -/
theorem flag?_congr {s s' : Search} (h : FlagsAlike s.flags s'.flags) (name : String) :
    s.flag? name = s'.flag? name := by
  have hlast : ∀ s : Search, s.flag? name =
      ((s.flags.filter (·.flag.name == name)).reverse.head?).map (·.value) := by
    intro s
    rw [flag?, ← List.head?_filter, List.filter_reverse]
  rw [hlast, hlast, h name]

/-- Answers of walks that find the same, or go astray at the same place. -/
theorem ofWalk_alike {same : Prop} {found found' : Except Miss Hit} {x x' : Option Finding}
    (h : Tells found x) (h' : Tells found' x') (halike : Finding.Alike same x x')
    (hmiss : ∀ m m', found = .error m → found' = .error m' → m = m') :
    (ofWalk found).status = (ofWalk found').status ∧
      ((ofWalk found).status ≠ .complete → ofWalk found = ofWalk found') ∧
        (same → (ofWalk found).arguments = (ofWalk found').arguments ∧
          ∀ name, (ofWalk found).flag? name = (ofWalk found').flag? name) := by
  cases h with
  | @miss m =>
    cases halike
    cases h' with
    | @miss m' =>
      obtain rfl := hmiss m m' rfl rfl
      exact ⟨rfl, fun _ => rfl, fun _ => ⟨rfl, fun _ => rfl⟩⟩
  | @hit hit u hending =>
    cases halike with
    | some hsame =>
      cases h' with
      | @hit hit' u' hending' =>
        rcases hit with ⟨last, ending, bindings, flags⟩
        rcases hit' with ⟨last', ending', bindings', flags'⟩
        cases hending
        cases hending'
        refine ⟨rfl, fun hnot => absurd rfl hnot, fun hs => ⟨?_, ?_⟩⟩
        · have hvalues : bindings.map Binding.plain = bindings'.map Binding.plain := (hsame hs).1
          rw [arguments_eq, arguments_eq]
          simp only [ofWalk, hvalues]
        · exact fun name => flag?_congr (hsame hs).2 name

end Search

namespace CommandTree

variable {Source : Type} {t : CommandTree} {caps : Capabilities Source} {source : Source}
  {tokens : List String}

/-- In a tree of a single usage every input that resolves does so to that usage. -/
theorem usage_eq_of_complete {root : Parameter} {g : Grammar} {settings : TreeSettings}
    (hg : g.Reachable root) (hseal : g.seal settings = .ok t) {u : Usage} (husages : g.usages = [u])
    (h : (t.dispatch caps source tokens).status = .complete) :
    (t.dispatch caps source tokens).usage = some ⟨0, u⟩ := by
  rcases dispatch_complete h with ⟨⟨number, usage⟩, steps, after, hres⟩
  have hnumber := (hres.exists_way hg hseal).1
  rw [(hg.of_seal hseal).2.1, husages] at hnumber
  rcases number with _ | number
  · obtain rfl : u = usage := by simpa using hnumber
    exact hres.usage
  · simp at hnumber

theorem flags_of_seal {g : Grammar} {settings : TreeSettings} (hseal : g.seal settings = .ok t) :
    t.flags = FlagTable.ofUsages g.usages := by
  rw [(Grammar.seal_eq_ok_iff.1 hseal).2]

/-- Whether the first word is refused depends on that word alone, and no flag is. -/
theorem refusesFirst_reordered {j : Judge} {typed typed' : List TypedFlag}
    (h : j.Exchanges typed typed') (a b : List String) :
    t.refusesFirst j (a ++ (TypedFlag.allWords typed ++ b)) =
      t.refusesFirst j (a ++ (TypedFlag.allWords typed' ++ b)) := by
  cases a with
  | cons token a => rfl
  | nil =>
    have hflag : ∀ {typed typed' : List TypedFlag}, j.Exchanges typed typed' →
        t.refusesFirst j (TypedFlag.allWords typed ++ b) = false := by
      intro typed typed' h
      rcases List.exists_cons_of_ne_nil h.ne_nil with ⟨f, typed, rfl⟩
      have hlooks := Judge.isFlagToken_of_lookup (h.known f List.mem_cons_self).lookup
      simp [refusesFirst, TypedFlag.words, hlooks]
    exact (hflag h).trans (hflag h.symm).symm

/-- **The order of flags.** In a tree sealed from a single usage that has one run of flags with
different names and nothing greedy, where the source may use everything, well typed segments of
different flags may be typed in any order, behind words that do not end in a flag: the status and
the usage of the answer stay the same, and so does the answer altogether if the words do not
resolve. If they do, the arguments and the value of each flag stay the same as well where the
parameters that are no flags are in different slots, the optional ones ranked, and none of the flags
is named among the words before. -/
theorem dispatch_reordered {root : Parameter} {g : Grammar} {settings : TreeSettings}
    (hg : g.Reachable root) (hseal : g.seal settings = .ok t) {u : Usage} (husages : g.usages = [u])
    {front flags back : List Parameter} (hrun : u.FlagRun front flags back)
    (hgreedy : ∀ p ∈ u.parameters, p.greedy = false)
    (hpermits : ∀ gate, caps.permits source gate = true) {a b : List String}
    (hlast : ∀ token ∈ a.getLast?, isFlagToken token = false) {typed typed' : List TypedFlag}
    (hsegments : (t.judge caps source).Segments flags typed) (hperm : typed.Perm typed') :
    let s := t.dispatch caps source (a ++ (TypedFlag.allWords typed ++ b))
    let s' := t.dispatch caps source (a ++ (TypedFlag.allWords typed' ++ b))
    s.status = s'.status ∧ s.usage = s'.usage ∧ (s.status ≠ .complete → s = s') ∧
      (((front ++ back).map Parameter.slot).Nodup → Ranked flags (front ++ back) →
        (∀ token ∈ a, ∀ f ∈ typed, t.flags.lookup token ≠ some f.bound.flag) →
        s.arguments = s'.arguments ∧ ∀ name, s.flag? name = s'.flag? name) := by
  intro s s'
  by_cases hsame : typed = typed'
  · subst hsame
    exact ⟨rfl, rfl, fun _ => rfl, fun _ _ _ => ⟨rfl, fun _ => rfl⟩⟩
  rcases hsegments.exists_pair hperm hsame with ⟨hne, hpair⟩
  have hflagsNe : flags ≠ [] := by
    rcases hpair with ⟨f, hf, -⟩
    exact List.ne_nil_of_mem hf
  have hnames : (t.judge caps source).NamesFlags flags := by
    refine hrun.namesFlags ?_
    rw [← husages]
    exact flags_of_seal hseal
  have hexchanges := hrun.exchanges hnames hsegments hperm hne
  -- One usage makes the whole tree, so its shape is known.
  have hwoven : Node.Woven front flags back ((front ++ back).map Parameter.slot).Nodup
      t.root.bare := by
    refine (hg.of_seal hseal).1.woven ?_ hrun hflagsNe hgreedy
    rw [(hg.of_seal hseal).2.1, husages]
  have hwords : (t.judge caps source).Reordered typed typed'
      (∀ token ∈ a, ∀ f ∈ typed, t.flags.lookup token ≠ some f.bound.flag)
      (a ++ (TypedFlag.allWords typed ++ b)) (a ++ (TypedFlag.allWords typed' ++ b)) :=
    hexchanges.reordered_append [] hlast id (by simp) (by simp)
  have hjudge : ∀ gate, (t.judge caps source).permits gate = true := hpermits
  have hfirst : t.refusesFirst (t.judge caps source) (a ++ (TypedFlag.allWords typed ++ b)) =
      t.refusesFirst (t.judge caps source) (a ++ (TypedFlag.allWords typed' ++ b)) :=
    refusesFirst_reordered hexchanges a b
  have halike := hwoven.alike hnames hrun.isFlag hrun.isFlag_back hexchanges hwords
  rw [Judge.seekBelow_bare, Judge.seekBelow_bare] at halike
  -- What is found is alike in both orders, and what is missed is missed at the same place.
  have hwalk := Search.ofWalk_alike (Judge.descend_tells hjudge (.root t.root) _)
    (Judge.descend_tells hjudge (.root t.root) _) halike
    fun m m' hm hm' => hwoven.astray hnames hrun.isFlag hpair hexchanges hwords hm hm'
  have hanswers : s.status = s'.status ∧ (s.status ≠ .complete → s = s') ∧
      (((front ++ back).map Parameter.slot).Nodup ∧ Ranked flags (front ++ back) ∧
        (∀ token ∈ a, ∀ f ∈ typed, t.flags.lookup token ≠ some f.bound.flag) →
        s.arguments = s'.arguments ∧ ∀ name, s.flag? name = s'.flag? name) := by
    simp only [s, s', dispatch, hjudge, hfirst, Bool.not_true, Bool.false_eq_true, if_false]
    split
    · exact ⟨rfl, fun _ => rfl, fun _ => ⟨rfl, fun _ => rfl⟩⟩
    · exact hwalk
  rcases hanswers with ⟨hstatus, hmissed, hfound⟩
  refine ⟨hstatus, ?_, hmissed, fun hdistinct hranked hfresh => hfound ⟨hdistinct, hranked, hfresh⟩⟩
  -- There is but one usage to answer with.
  by_cases hcomplete : s.status = .complete
  · exact (usage_eq_of_complete hg hseal husages hcomplete).trans
      (usage_eq_of_complete hg hseal husages (hstatus ▸ hcomplete)).symm
  · rw [hmissed hcomplete]

/-- Two flags, a number that may be left out, and a text. -/
def countUsage (input : ValueType) : Usage :=
  ⟨"h", [.switch "v" [], .valueFlag "w" [] input, .optional "n" .int, .required "s" .string],
    none, none, false⟩

theorem flagRun_countUsage (input : ValueType) :
    (countUsage input).FlagRun [] [.switch "v" [], .valueFlag "w" [] input]
      [.optional "n" .int, .required "s" .string] where
  parameters := rfl
  isFlag_front := by simp
  isFlag := by
    intro p hp
    rcases List.mem_pair.1 hp with rfl | rfl <;> rfl
  isFlag_back := by decide
  apart := by
    refine List.pairwise_pair.2 ?_
    change ∀ x ∈ ["v"], ∀ y ∈ ["w"], Text.sameIgnoringCase x y = false
    decide

/-- The switch, and the other flag with a value. -/
def countFlags (input : ValueType) (value : String) : List TypedFlag :=
  [⟨"-v", .switch "v" [], none⟩, ⟨"-w", .valueFlag "w" [] input, some value⟩]

theorem segments_countFlags {input : ValueType} {value : String} {t : CommandTree}
    (hfits : input.admits value = true) :
    (t.judge .builtin ()).Segments [.switch "v" [], .valueFlag "w" [] input]
      (countFlags input value) where
  mem := by simp [countFlags]
  named := by
    intro f hf
    rcases List.mem_pair.1 hf with rfl | rfl
    · rfl
    · change (flagAlias? "-w").any (fun word => ["w"].any (Text.sameIgnoringCase · word)) = true
      decide
  binds := by
    intro f hf
    rcases List.mem_pair.1 hf with rfl | rfl
    · exact .switch rfl
    · exact .value rfl hfits
  distinct := by
    refine List.pairwise_pair.2 fun heq => ?_
    have hname : "v" = "w" := congrArg Parameter.name heq
    simp at hname

/-- The switch and the flag with a number are typed in both orders. The number that may be left out
comes after both of them. -/
theorem dispatch_reordered_count :
    ∃ t words words', words = ["-v", "-w", "7", "hello"] ∧ words' = ["-w", "7", "-v", "hello"] ∧
      ofUsages "cmd" [countUsage .int] = .ok t ∧
      (t.dispatch .builtin () words).status = .complete ∧
      (t.dispatch .builtin () words').status = .complete ∧
      (t.dispatch .builtin () words).arguments = (t.dispatch .builtin () words').arguments ∧
      ∀ name, (t.dispatch .builtin () words).flag? name =
        (t.dispatch .builtin () words').flag? name := by
  obtain ⟨t, ht⟩ : ∃ t, ofUsages "cmd" [countUsage .int] = .ok t := ⟨_, rfl⟩
  rcases bind_eq_ok_iff.1 ht with ⟨g, hg, hseal⟩
  have husages : g.usages = [countUsage .int] := by
    cases hg
    rfl
  have hcomplete : (t.dispatch .builtin () ["-v", "-w", "7", "hello"]).status = .complete := by
    cases ht
    rfl
  have hpermits : ∀ gate, Capabilities.builtin.permits () gate = true := by
    intro gate
    cases gate <;> rfl
  have hsegments : (t.judge .builtin ()).Segments [.switch "v" [], .valueFlag "w" [] .int]
      (countFlags .int "7") := segments_countFlags (by decide)
  obtain ⟨hstatus, -, -, hfound⟩ := dispatch_reordered (.insertAll .new hg) hseal husages
    (flagRun_countUsage .int) (by decide) hpermits (a := []) (b := ["hello"]) (by simp) hsegments
    (.swap _ _ _)
  refine ⟨t, _, _, rfl, rfl, ht, hcomplete, hstatus.symm.trans hcomplete, ?_⟩
  exact hfound (by decide) (by unfold Ranked; decide) (by simp)

/-- The number that may be left out comes between the two flags. If the switch is typed before the
flag with a text it is in the answer, and if it is typed after that flag it is not. -/
theorem dispatch_unordered :
    ∃ t typed typed', ofUsages "cmd" [countUsage .string] = .ok t ∧
      (t.judge .builtin ()).Segments [.switch "v" [], .valueFlag "w" [] .string] typed ∧
      typed.Perm typed' ∧
      TypedFlag.allWords typed ++ ["hello"] = ["-v", "-w", "x", "hello"] ∧
      TypedFlag.allWords typed' ++ ["hello"] = ["-w", "x", "-v", "hello"] ∧
      (t.dispatch .builtin () ["-v", "-w", "x", "hello"]).status = .complete ∧
      (t.dispatch .builtin () ["-v", "-w", "x", "hello"]).flag? "v" = some none ∧
      (t.dispatch .builtin () ["-w", "x", "-v", "hello"]).flag? "v" = none :=
  ⟨_, countFlags .string "x", _, rfl, segments_countFlags (by decide), .swap _ _ _, rfl, rfl, rfl,
    rfl, rfl⟩

end CommandTree

end CommandLanguage

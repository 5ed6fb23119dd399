import CommandLanguage.Proofs.Orders
import CommandLanguage.Proofs.Outline

/-!
# Grammars are tries

What a tree is, said without the way in which it is built. A parameter list expands to the lists
that keep or drop each of its optional arguments and have some flags of each run of flags, in any
order (`ExpandsTo`). The tree of a grammar is the trie of the expansions of its usages
(`Grammar.IsTrie`): its places are the beginnings of expansions, and where an expansion ends a place
completes the usage with the fewest parameters of those that expand to its path. A default usage has
its parameter list in place of expansions, and is what the place at the end of it falls back to.

Whatever usages are inserted, refused ones among them, the tree is this trie, and the usages are, up
to their forms, those that were accepted in their turn (`Grammar.insertEach_isTrie`).
-/

namespace CommandLanguage

/-! ## Expansions -/

/-- Whether the second of two parameter lists is the first with each optional argument kept or
dropped, and with some of the flags of each maximal run in some order. -/
inductive ExpandsTo : List Parameter → List Parameter → Prop where
  | nil : ExpandsTo [] []
  | keep {p : Parameter} {ps e : List Parameter} :
      p.isFlag = false → ExpandsTo ps e → ExpandsTo (p :: ps) (p :: e)
  | drop {p : Parameter} {ps e : List Parameter} :
      p.isFlag = false → p.isOptional = true → ExpandsTo ps e → ExpandsTo (p :: ps) e
  | run {flags chosen ps e : List Parameter} :
      flags ≠ [] → (∀ p ∈ flags, p.isFlag = true) → (∀ p ∈ ps.head?, p.isFlag = false) →
        chosen.Subperm flags → ExpandsTo ps e → ExpandsTo (flags ++ ps) (chosen ++ e)

/-- A parameter list expands to lists of its own parameters. -/
theorem ExpandsTo.mem {ps e : List Parameter} {p : Parameter} (h : ExpandsTo ps e) (hp : p ∈ e) :
    p ∈ ps := by
  induction h with
  | nil => exact hp
  | keep _ _ ih =>
    rcases List.mem_cons.1 hp with rfl | hp
    · exact List.mem_cons_self
    · exact List.mem_cons_of_mem _ (ih hp)
  | drop _ _ _ ih => exact List.mem_cons_of_mem _ (ih hp)
  | run _ _ _ hchosen _ ih =>
    rcases List.mem_append.1 hp with hp | hp
    · exact List.mem_append_left _ (hchosen.subset hp)
    · exact List.mem_append_right _ (ih hp)

/-- A parameter list begins with a parameter that is no flag, or with a maximal run of flags. -/
theorem runInduction {motive : List Parameter → Prop} (nil : motive [])
    (single : ∀ p ps, p.isFlag = false → motive ps → motive (p :: ps))
    (run : ∀ flags ps, flags ≠ [] → (∀ p ∈ flags, p.isFlag = true) →
      (∀ p ∈ ps.head?, p.isFlag = false) → motive ps → motive (flags ++ ps)) :
    ∀ ps, motive ps
  | [] => nil
  | p :: ps => by
    by_cases hp : p.isFlag = true
    · have hflags : ∀ q ∈ ps.takeWhile (·.isFlag), q.isFlag = true := by
        intro q hq
        exact List.all_eq_true.1 (List.all_takeWhile (p := (·.isFlag))) q hq
      have hhead : ∀ q ∈ (ps.dropWhile (·.isFlag)).head?, q.isFlag = false := by
        intro q hq
        have hnot := List.head?_dropWhile_not (·.isFlag) ps
        rw [Option.mem_def.1 hq] at hnot
        simpa using hnot
      have hrest := runInduction nil single run (ps.dropWhile (·.isFlag))
      have hrun := run (p :: ps.takeWhile (·.isFlag)) (ps.dropWhile (·.isFlag)) (by simp)
        (List.forall_mem_cons.2 ⟨hp, hflags⟩) hhead hrest
      simpa using hrun
    · exact single p ps (by simpa using hp) (runInduction nil single run ps)
termination_by ps => ps.length
decreasing_by
  · have hle := (List.dropWhile_sublist (l := ps) (·.isFlag)).length_le
    simp only [List.length_cons]
    omega
  · simp

section Expansions

variable {p : Parameter} {flags ps e : List Parameter}

theorem Segment.ofParameters_of_not_isFlag (hp : p.isFlag = false) :
    ofParameters (p :: ps) = .single p :: ofParameters ps := by
  simp [ofParameters, hp]

theorem Segment.ofParameters_run (hne : flags ≠ []) (hflags : ∀ p ∈ flags, p.isFlag = true)
    (hhead : ∀ p ∈ ps.head?, p.isFlag = false) :
    ofParameters (flags ++ ps) = .run flags :: ofParameters ps := by
  induction flags with
  | nil => exact absurd rfl hne
  | cons f flags ih =>
    rcases List.forall_mem_cons.1 hflags with ⟨hf, hflags⟩
    rw [List.cons_append, ofParameters, if_pos hf]
    cases flags with
    | nil =>
      cases ps with
      | nil => rfl
      | cons q ps =>
        have hq : q.isFlag = false := hhead q rfl
        rw [List.nil_append, ofParameters_of_not_isFlag hq]
    | cons f' flags => rw [ih (by simp) hflags]

theorem mem_expansions_cons_iff (hp : p.isFlag = false) :
    e ∈ expansions (p :: ps) ↔
      (∃ e' ∈ expansions ps, e = p :: e') ∨ p.isOptional = true ∧ e ∈ expansions ps := by
  rw [expansions, Segment.ofParameters_of_not_isFlag hp, Segment.expansions, List.mem_append]
  refine or_congr ?_ ?_
  · simp [expansions, eq_comm]
  · split
    · rename_i hoptional
      simp [hoptional, expansions]
    · rename_i hoptional
      simp [hoptional]

theorem mem_expansions_run_iff (hne : flags ≠ []) (hflags : ∀ p ∈ flags, p.isFlag = true)
    (hhead : ∀ p ∈ ps.head?, p.isFlag = false) :
    e ∈ expansions (flags ++ ps) ↔
      ∃ chosen, chosen.Subperm flags ∧ ∃ e' ∈ expansions ps, e = chosen ++ e' := by
  rw [expansions, Segment.ofParameters_run hne hflags hhead, Segment.expansions]
  simp [Arrangement.mem_selections_iff, expansions, eq_comm]

/-- **Expansions.** The ways of typing a parameter list are what it expands to. -/
theorem mem_expansions_iff : e ∈ expansions ps ↔ ExpandsTo ps e := by
  constructor
  · intro h
    induction ps using runInduction generalizing e with
    | nil =>
      obtain rfl : e = [] := by simpa [expansions, Segment.ofParameters, Segment.expansions] using h
      exact .nil
    | single p ps hp ih =>
      rcases (mem_expansions_cons_iff hp).1 h with ⟨e', he', rfl⟩ | ⟨hoptional, he⟩
      · exact .keep hp (ih he')
      · exact .drop hp hoptional (ih he)
    | run flags ps hne hflags hhead ih =>
      rcases (mem_expansions_run_iff hne hflags hhead).1 h with ⟨chosen, hchosen, e', he', rfl⟩
      exact .run hne hflags hhead hchosen (ih he')
  · intro h
    induction h with
    | nil => simp [expansions, Segment.ofParameters, Segment.expansions]
    | keep hp _ ih => exact (mem_expansions_cons_iff hp).2 (.inl ⟨_, ih, rfl⟩)
    | drop hp hoptional _ ih => exact (mem_expansions_cons_iff hp).2 (.inr ⟨hoptional, ih⟩)
    | run hne hflags hhead hchosen _ ih =>
      exact (mem_expansions_run_iff hne hflags hhead).2 ⟨_, hchosen, _, ih, rfl⟩

end Expansions

/-! ## Tries -/

/-- Whether a usage is typed as a parameter list: an expansion of its own, or its own if it is a
default. -/
inductive Usage.Yields (u : Usage) : List Parameter → Prop where
  | expansion {e : List Parameter} : u.isDefault = false → ExpandsTo u.parameters e → Yields u e
  | default : u.isDefault = true → Yields u u.parameters

theorem Usage.mem_ways_iff {u : Usage} {e : List Parameter} : e ∈ u.ways ↔ u.Yields e := by
  unfold ways
  split
  · rename_i hdefault
    constructor
    · intro he
      obtain rfl : e = u.parameters := by simpa using he
      exact .default hdefault
    · rintro (⟨hnot, -⟩ | -)
      · simp [hdefault] at hnot
      · simp
  · rename_i hdefault
    have hnot : u.isDefault = false := by simpa using hdefault
    rw [mem_expansions_iff]
    constructor
    · intro he
      exact .expansion hnot he
    · rintro (⟨-, he⟩ | h)
      · exact he
      · exact absurd h hdefault

namespace Grammar

/-- Whether a usage of a grammar that is no default expands to a path. -/
structure Completes (g : Grammar) (path : List Slot) (u : NumberedUsage) : Prop where
  listed : g.usages[u.number]? = some u.usage
  proper : u.usage.isDefault = false
  expands : ∃ e, ExpandsTo u.usage.parameters e ∧ slots e = path

/-- Whether a default usage of a grammar has a path. -/
structure FallsBack (g : Grammar) (path : List Slot) (u : NumberedUsage) : Prop where
  listed : g.usages[u.number]? = some u.usage
  default : u.usage.isDefault = true
  slots_eq : slots u.usage.parameters = path

/-- Whether the tree of a grammar is the trie of its usages. -/
structure IsTrie (g : Grammar) : Prop where
  /-- Places have paths of their own. -/
  apart : (g.root.places.map Place.slots).Nodup
  /-- The paths of places are the beginnings of what the usages are typed as. -/
  reaches : ∀ path, (∃ p ∈ g.root.places, p.slots = path) ↔
    path = [] ∨ ∃ u ∈ g.usages, ∃ e, u.Yields e ∧ path <+: slots e
  /-- A place completes a usage if some usage expands to its path. -/
  executable : ∀ p ∈ g.root.places,
    p.node.terminal.isSome = true ↔ ∃ u, g.Completes p.slots u
  /-- Of the usages that expand to its path it completes one with the fewest parameters, and of
  these the last. -/
  terminal : ∀ p ∈ g.root.places, ∀ u, p.node.terminal = some u ↔
    g.Completes p.slots u ∧ ∀ v, g.Completes p.slots v →
      u.usage.parameters.length < v.usage.parameters.length ∨
        u.usage.parameters.length = v.usage.parameters.length ∧ v.number ≤ u.number
  /-- A place falls back to the last default usage with its path. -/
  fallback : ∀ p ∈ g.root.places, ∀ u, p.node.fallback = some u ↔
    g.FallsBack p.slots u ∧ ∀ v, g.FallsBack p.slots v → v.number ≤ u.number

theorem completes_iff {g : Grammar} {path : List Slot} {u : NumberedUsage} :
    g.Completes path u ↔ EndsAt g.usages .terminal path u := by
  constructor
  · rintro ⟨hlisted, hproper, e, he, hpath⟩
    refine ⟨hlisted, by simp [Usage.role, hproper], e, ?_, hpath.symm⟩
    exact Usage.mem_ways_iff.2 (.expansion hproper he)
  · rintro ⟨hlisted, hrole, e, he, hpath⟩
    have hproper : u.usage.isDefault = false := by simpa [Usage.role] using hrole
    rcases Usage.mem_ways_iff.1 he with ⟨-, he⟩ | hdefault
    · exact ⟨hlisted, hproper, e, he, hpath.symm⟩
    · simp [hproper] at hdefault

theorem fallsBack_iff {g : Grammar} {path : List Slot} {u : NumberedUsage} :
    g.FallsBack path u ↔ EndsAt g.usages .fallback path u := by
  constructor
  · rintro ⟨hlisted, hdefault, hpath⟩
    refine ⟨hlisted, by simp [Usage.role, hdefault], u.usage.parameters, ?_, hpath.symm⟩
    exact Usage.mem_ways_iff.2 (.default hdefault)
  · rintro ⟨hlisted, hrole, e, he, hpath⟩
    have hdefault : u.usage.isDefault = true := by simpa [Usage.role] using hrole
    rcases Usage.mem_ways_iff.1 he with ⟨hproper, -⟩ | -
    · simp [hdefault] at hproper
    · exact ⟨hlisted, hdefault, hpath.symm⟩

/-- A tree that is what its usages tell is the trie of its usages. -/
theorem Outlined.isTrie {g : Grammar} (hg : g.Outlined) : g.IsTrie := by
  have hsettled : ∀ p ∈ g.root.places, p.node.entry.Settled g.usages p.slots := by
    intro p hp
    exact hg.settled (hg.apart.view_of_mem hp)
  refine ⟨hg.apart.nodup_paths, ?_, ?_, ?_, ?_⟩
  · intro path
    have hplace : (∃ p ∈ g.root.places, p.slots = path) ↔ (g.root.view path).isSome = true := by
      constructor
      · rintro ⟨p, hp, rfl⟩
        rw [hg.apart.view_of_mem hp]
        rfl
      · intro hsome
        rcases Option.isSome_iff_exists.1 hsome with ⟨e, he⟩
        rcases Node.exists_place_of_view he with ⟨p, hp, hpath, -⟩
        exact ⟨p, hp, hpath⟩
    rw [hplace]
    by_cases hpath : path = []
    · simp [hpath, Node.view_nil]
    · rw [hg.view_isSome_iff hpath]
      simp only [hpath, false_or, Usage.mem_ways_iff]
  · intro p hp
    simp only [completes_iff]
    exact (hsettled p hp).held?_isSome_iff .terminal
  · intro p hp u
    simp only [completes_iff]
    exact (hsettled p hp).held?_eq_some_iff .terminal
  · intro p hp u
    simp only [fallsBack_iff]
    exact (hsettled p hp).held?_eq_some_iff .fallback

/-! ## Usages in turn -/

/-- Insert usages in turn, leaving out those that are refused. -/
def insertEach (g : Grammar) (us : List Usage) : Grammar :=
  us.foldl
    (fun g u =>
      match g.insert u with
      | .ok (_, g') => g'
      | .error _ => g)
    g

theorem Reachable.insertEach {root : Parameter} {g : Grammar} (hg : Reachable root g)
    (us : List Usage) : Reachable root (g.insertEach us) := by
  induction us generalizing g with
  | nil => exact hg
  | cons u us ih =>
    refine ih ?_
    dsimp only
    split
    · rename_i hinsert
      exact hg.insert hinsert
    · exact hg

/-- Whether a usage can be inserted. -/
def Accepts (g : Grammar) (u : Usage) : Prop :=
  ∃ number g', g.insert u = .ok (number, g')

/-- Whether a grammar has a usage of the form of another. -/
def HasForm (g : Grammar) (u : Usage) : Prop :=
  ∃ v ∈ g.usages, v.sameForm u = true

/-- **Step.** A usage that is inserted adds its form if it is accepted, and no other. -/
theorem hasForm_insertEach_singleton_iff {g : Grammar} {u w : Usage} :
    (g.insertEach [u]).HasForm w ↔ g.HasForm w ∨ u.sameForm w = true ∧ g.Accepts u := by
  unfold Accepts
  rw [insertEach, List.foldl_cons, List.foldl_nil]
  cases hinsert : g.insert u with
  | error e => simp
  | ok inserted =>
    rcases inserted with ⟨number, g'⟩
    have haccepted : ∃ number' g'', Except.ok (ε := GrammarError) (number, g') = .ok (number', g'') :=
      ⟨number, g', rfl⟩
    simp only [haccepted, and_true]
    obtain ⟨-, ⟨hfind, rfl⟩ | ⟨-, -, husages, -⟩⟩ := insert_eq_ok_iff.1 hinsert
    · -- The form of `u` is that of a usage which the grammar has.
      obtain ⟨hlt, hform, -⟩ := List.findIdx?_eq_some_iff_getElem.1 hfind
      refine (or_iff_left_of_imp fun hw => ⟨_, List.getElem_mem hlt, ?_⟩).symm
      rw [Usage.sameForm_iff] at hform hw ⊢
      exact ⟨hform.1.trans hw.1, hform.2.trans hw.2⟩
    · simp [HasForm, husages, or_and_right, exists_or]

/-- **Run.** The forms of a grammar are those that it had, and those of the usages that were accepted
in their turn. -/
theorem hasForm_insertEach_iff {g : Grammar} {us : List Usage} {w : Usage} :
    (g.insertEach us).HasForm w ↔ g.HasForm w ∨
      ∃ before v after, us = before ++ v :: after ∧ v.sameForm w = true ∧
        (g.insertEach before).Accepts v := by
  induction us generalizing g with
  | nil => simp [insertEach]
  | cons u us ih =>
    have hrun : ∀ us, g.insertEach (u :: us) = (g.insertEach [u]).insertEach us := fun _ => rfl
    rw [hrun, ih, hasForm_insertEach_singleton_iff]
    constructor
    · rintro ((hold | ⟨hform, haccepts⟩) | ⟨before, v, after, rfl, hform, haccepts⟩)
      · exact .inl hold
      · exact .inr ⟨[], u, us, rfl, hform, haccepts⟩
      · exact .inr ⟨u :: before, v, after, rfl, hform, haccepts⟩
    · rintro (hold | ⟨before, v, after, hus, hform, haccepts⟩)
      · exact .inl (.inl hold)
      · cases before with
        | nil =>
          obtain ⟨rfl, rfl⟩ := List.cons.inj hus
          exact .inl (.inr ⟨hform, haccepts⟩)
        | cons u' before =>
          obtain ⟨rfl, rfl⟩ := List.cons.inj hus
          exact .inr ⟨before, v, after, rfl, hform, haccepts⟩

/-- The usages of a grammar are those that it had and some of those inserted, in their order. -/
theorem usages_insertEach_sublist (g : Grammar) (us : List Usage) :
    (g.insertEach us).usages.Sublist (g.usages ++ us) := by
  induction us generalizing g with
  | nil => simp [insertEach]
  | cons u us ih =>
    have hone : (g.insertEach [u]).usages.Sublist (g.usages ++ [u]) := by
      rw [insertEach, List.foldl_cons, List.foldl_nil]
      split
      · rename_i hinsert
        rcases insert_cases hinsert with rfl | ⟨-, husages, -⟩
        · exact List.sublist_append_left _ _
        · rw [husages]
      · exact List.sublist_append_left _ _
    have hall := (ih (g.insertEach [u])).trans (hone.append_right us)
    rwa [List.append_assoc] at hall

/-- **Tries.** Whatever usages are inserted into a new grammar, its tree is the trie of its usages.
These are usages inserted, in their order, and have the forms of those that were accepted in their
turn. -/
theorem insertEach_isTrie (root : Parameter) (us : List Usage) :
    ((new root).insertEach us).IsTrie ∧ ((new root).insertEach us).usages.Sublist us ∧
      ∀ u, ((new root).insertEach us).HasForm u ↔
        ∃ before v after, us = before ++ v :: after ∧ v.sameForm u = true ∧
          ((new root).insertEach before).Accepts v := by
  have hreachable : Reachable root ((new root).insertEach us) := Reachable.new.insertEach us
  refine ⟨hreachable.outlined.isTrie, usages_insertEach_sublist (new root) us, fun u => ?_⟩
  rw [hasForm_insertEach_iff, or_iff_right]
  rintro ⟨v, hv, -⟩
  cases hv

/-- A listing, a text with a parameter behind it, which is refused, and a gift. -/
def giftUsages : List Usage :=
  [⟨"list", [.literal "list" []], none, none, false⟩,
    ⟨"note", [{ Parameter.required "text" .string with greedy := true }, .required "to" .string],
      none, none, false⟩,
    ⟨"give", [.literal "give" [], .required "kit" .string, .optional "player" .string], none, none,
      false⟩]

/-- The tree has the places of the two usages that are accepted. One of them is where the gift ends if
nobody is named. -/
theorem insertEach_isTrie_kit :
    ∃ g, g = (new (.literal "kit" [])).insertEach giftUsages ∧ g.size = 4 ∧
      g.usages.map (·.handler) = ["list", "give"] ∧
      (g.HasForm ⟨"other", [.literal "list" []], none, none, false⟩) ∧
      ∃ p ∈ g.root.places, p.slots = slots [.literal "give" [], .required "kit" .string] ∧
        p.node.terminal.isSome = true := by
  obtain ⟨htrie, -, hforms⟩ := insertEach_isTrie (.literal "kit" []) giftUsages
  refine ⟨_, rfl, rfl, rfl, ?_, ?_⟩
  · exact (hforms _).2 ⟨[], _, _, rfl, rfl, _, _, rfl⟩
  · let give : NumberedUsage := ⟨1, ⟨"give", [.literal "give" [], .required "kit" .string,
      .optional "player" .string], none, none, false⟩⟩
    have hlisted : ((new (.literal "kit" [])).insertEach giftUsages).usages[give.number]? =
        some give.usage := rfl
    have hexpands : ExpandsTo give.usage.parameters [.literal "give" [], .required "kit" .string] :=
      .keep rfl (.keep rfl (.drop rfl rfl .nil))
    obtain ⟨p, hp, hpath⟩ := (htrie.reaches _).2 (.inr ⟨_, List.mem_of_getElem? hlisted, _,
      .expansion rfl hexpands, List.prefix_rfl⟩)
    refine ⟨p, hp, hpath, (htrie.executable p hp).2 ⟨give, hlisted, rfl, _, hexpands, hpath.symm⟩⟩

end Grammar

end CommandLanguage

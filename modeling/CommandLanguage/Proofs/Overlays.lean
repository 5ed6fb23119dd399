import CommandLanguage.Settings

/-!
# What overlays change

An overlay declares commands one after the other, each in place of the first of its name or at the end.
What comes of all of them is told without the steps in between: under which names there are commands,
and in which order (`CommandDeclaration.foldedNames_redeclareAll`), what stands at the place of each
command that is kept (`CommandDeclaration.getElem?_redeclareAll`), and what is found under a name
(`CommandDeclaration.find?_redeclareAll`). Wherever an overlay declares a name more than once, the last
declaration counts.

`Config.overlaid_law` puts together what an overlay makes of a whole configuration.
-/

namespace CommandLanguage

/-! ## Names -/

/-- No item is left twice. -/
theorem nodup_eraseDups {α : Type} [BEq α] [LawfulBEq α] (l : List α) : l.eraseDups.Nodup := by
  match l with
  | [] => exact .nil
  | a :: l =>
    rw [List.eraseDups_cons, List.nodup_cons]
    refine ⟨?_, nodup_eraseDups _⟩
    simp [List.mem_eraseDups]
termination_by l.length
decreasing_by
  have hle : (l.filter fun b => !b == a).length ≤ l.length := List.length_filter_le _ _
  simpa using Nat.lt_succ_of_le hle

namespace CommandDeclaration

variable {d c : CommandDeclaration} {ds cs : List CommandDeclaration} {x y : String}

/-- The names of commands, without regard to the case of ASCII letters. -/
def foldedNames (ds : List CommandDeclaration) : List String :=
  ds.map fun d => Text.foldCase d.name

/-- The last command declared under a name. -/
def lastNamed? (ds : List CommandDeclaration) (name : String) : Option CommandDeclaration :=
  ds.findRev? (·.isNamed name)

theorem isNamed_iff : d.isNamed x = true ↔ Text.foldCase d.name = Text.foldCase x :=
  Text.sameIgnoringCase_iff

theorem isNamed_eq_false_iff : d.isNamed x = false ↔ Text.foldCase d.name ≠ Text.foldCase x := by
  rw [Bool.eq_false_iff, Ne, isNamed_iff]

theorem isNamed_self (d : CommandDeclaration) : d.isNamed d.name = true :=
  isNamed_iff.2 rfl

/-- A command that has two names has the names of both. -/
theorem isNamed_congr (h : Text.foldCase x = Text.foldCase y) : d.isNamed x = d.isNamed y := by
  rw [Bool.eq_iff_iff, isNamed_iff, isNamed_iff, h]

theorem isNamed_comm (d c : CommandDeclaration) : d.isNamed c.name = c.isNamed d.name :=
  Text.sameIgnoringCase_comm _ _

@[simp] theorem lastNamed?_nil (x : String) : lastNamed? [] x = none := rfl

theorem lastNamed?_cons (d : CommandDeclaration) (ds : List CommandDeclaration) (x : String) :
    lastNamed? (d :: ds) x = (lastNamed? ds x <|> if d.isNamed x then some d else none) := by
  unfold lastNamed?
  rw [List.findRev?]
  cases List.findRev? (·.isNamed x) ds <;> rfl

theorem lastNamed?_congr (h : Text.foldCase x = Text.foldCase y) :
    lastNamed? ds x = lastNamed? ds y := by
  have hnamed : (fun d : CommandDeclaration => d.isNamed x) = fun d => d.isNamed y :=
    funext fun d => isNamed_congr h
  rw [lastNamed?, lastNamed?, hnamed]

/-- Declarations of one name have no part in what another name stands for. -/
theorem lastNamed?_filter (h : Text.foldCase x ≠ Text.foldCase y) :
    lastNamed? (ds.filter fun d => !d.isNamed y) x = lastNamed? ds x := by
  induction ds with
  | nil => rfl
  | cons d ds ih =>
    rw [lastNamed?_cons, List.filter_cons]
    cases hy : d.isNamed y with
    | false => rw [Bool.not_false, if_pos rfl, lastNamed?_cons, ih]
    | true =>
      have hx : d.isNamed x = false :=
        isNamed_eq_false_iff.2 fun hx => h (hx.symm.trans (isNamed_iff.1 hy))
      simp [hx, ih]

/-- Nothing is left of a name whose declarations are taken out. -/
theorem lastNamed?_filter_self (h : Text.foldCase x = Text.foldCase y) :
    lastNamed? (ds.filter fun d => !d.isNamed y) x = none := by
  rw [lastNamed?, List.findRev?_eq_find?_reverse, List.find?_eq_none]
  intro d hd
  have hy : d.isNamed y = false := by simpa using (List.mem_filter.1 (List.mem_reverse.1 hd)).2
  rw [isNamed_congr h, hy]
  exact Bool.false_ne_true

/-! ## Declaring again -/

/-- Commands with others declared after them, one after the other. -/
def redeclareAll (ds cs : List CommandDeclaration) : List CommandDeclaration :=
  ds.foldl (fun commands d => redeclare d commands) cs

theorem merge_eq (base added : List CommandDeclaration) (removed : List String) :
    merge base added removed false =
      redeclareAll added (base.filter fun c => !removed.any c.isNamed) := rfl

theorem redeclareAll_cons (d : CommandDeclaration) (ds cs : List CommandDeclaration) :
    redeclareAll (d :: ds) cs = redeclareAll ds (redeclare d cs) := rfl

/-- The first command is replaced by the last of its name, and the other declarations go on to the
commands behind it. -/
theorem redeclareAll_first (ds : List CommandDeclaration) (c : CommandDeclaration)
    (cs : List CommandDeclaration) :
    redeclareAll ds (c :: cs) = (lastNamed? ds c.name).getD c ::
      redeclareAll (ds.filter fun d => !d.isNamed c.name) cs := by
  induction ds generalizing c cs with
  | nil => rfl
  | cons d ds ih =>
    rw [redeclareAll_cons, redeclare, isNamed_comm, lastNamed?_cons, List.filter_cons]
    cases hnamed : d.isNamed c.name with
    | true =>
      -- From here on `d` stands where `c` did, under the same name.
      have hsame := isNamed_iff.1 hnamed
      have hothers : (fun d' : CommandDeclaration => !d'.isNamed d.name) =
          fun d' => !d'.isNamed c.name := funext fun d' => by rw [isNamed_congr hsame]
      rw [if_pos rfl, ih, lastNamed?_congr hsame, hothers]
      cases lastNamed? ds c.name <;> rfl
    | false =>
      rw [if_neg Bool.false_ne_true, ih, Bool.not_false, if_pos rfl, redeclareAll_cons]
      cases lastNamed? ds c.name <;> rfl

/-- What stands at the place of a command that there was: the last declaration of its name, or the
command itself if there is none, or if it was not the first of its name. -/
theorem getElem?_redeclareAll {i : Nat} (h : cs[i]? = some c) :
    (redeclareAll ds cs)[i]? =
      some (if (cs.take i).any (·.isNamed c.name) then c else (lastNamed? ds c.name).getD c) := by
  induction cs generalizing ds i with
  | nil => cases h
  | cons c' cs ih =>
    rw [redeclareAll_first]
    cases i with
    | zero =>
      obtain rfl := Option.some.inj h
      rfl
    | succ i =>
      rw [List.getElem?_cons_succ] at h ⊢
      rw [ih h, List.take_succ_cons, List.any_cons]
      cases hnamed : c'.isNamed c.name with
      | true =>
        rw [lastNamed?_filter_self (isNamed_iff.1 hnamed).symm]
        simp
      | false =>
        rw [lastNamed?_filter (isNamed_eq_false_iff.1 hnamed).symm, Bool.false_or]

theorem find?_redeclare (d : CommandDeclaration) (cs : List CommandDeclaration) (x : String) :
    (redeclare d cs).find? (·.isNamed x) =
      if d.isNamed x then some d else cs.find? (·.isNamed x) := by
  induction cs with
  | nil => cases hx : d.isNamed x <;> simp [redeclare, hx]
  | cons c cs ih =>
    rw [redeclare]
    cases hnamed : c.isNamed d.name with
    | true =>
      have hsame : c.isNamed x = d.isNamed x := by
        rw [Bool.eq_iff_iff, isNamed_iff, isNamed_iff, isNamed_iff.1 hnamed]
      rw [if_pos rfl, List.find?_cons, List.find?_cons, hsame]
      cases d.isNamed x <;> rfl
    | false =>
      rw [if_neg Bool.false_ne_true, List.find?_cons, List.find?_cons, ih]
      cases hc : c.isNamed x with
      | false => rfl
      | true =>
        -- The name is that of `c`, so it is not that of `d`.
        have hne := isNamed_eq_false_iff.1 hnamed
        have hd : d.isNamed x = false :=
          isNamed_eq_false_iff.2 fun hd => hne ((isNamed_iff.1 hc).trans hd.symm)
        simp [hd]

/-- What is found under a name: its last declaration, or what there was. -/
theorem find?_redeclareAll (ds cs : List CommandDeclaration) (x : String) :
    (redeclareAll ds cs).find? (·.isNamed x) =
      (lastNamed? ds x <|> cs.find? (·.isNamed x)) := by
  induction ds generalizing cs with
  | nil => rfl
  | cons d ds ih =>
    rw [redeclareAll_cons, ih, find?_redeclare, lastNamed?_cons]
    cases lastNamed? ds x with
    | some d' => rfl
    | none => cases d.isNamed x <;> rfl

theorem foldedNames_redeclare (d : CommandDeclaration) (cs : List CommandDeclaration) :
    foldedNames (redeclare d cs) =
      if Text.foldCase d.name ∈ foldedNames cs then foldedNames cs
      else foldedNames cs ++ [Text.foldCase d.name] := by
  induction cs with
  | nil => rfl
  | cons c cs ih =>
    rw [redeclare]
    cases hnamed : c.isNamed d.name with
    | true =>
      rw [if_pos rfl]
      simp [foldedNames, isNamed_iff.1 hnamed]
    | false =>
      rw [if_neg Bool.false_ne_true]
      have hne := (isNamed_eq_false_iff.1 hnamed).symm
      have hcons : ∀ l, foldedNames (c :: l) = Text.foldCase c.name :: foldedNames l := fun _ => rfl
      rw [hcons, hcons, ih]
      by_cases hmem : Text.foldCase d.name ∈ foldedNames cs <;> simp [hmem, hne]

/-- The names that there were keep their places, and new ones follow in the order in which they are
declared for the first time. -/
theorem foldedNames_redeclareAll (ds cs : List CommandDeclaration) :
    foldedNames (redeclareAll ds cs) = foldedNames cs ++
      ((foldedNames ds).filter fun name => name ∉ foldedNames cs).eraseDups := by
  induction ds generalizing cs with
  | nil => simp [redeclareAll, foldedNames]
  | cons d ds ih =>
    have hcons : foldedNames (d :: ds) = Text.foldCase d.name :: foldedNames ds := rfl
    rw [redeclareAll_cons, ih, foldedNames_redeclare, hcons]
    by_cases hmem : Text.foldCase d.name ∈ foldedNames cs
    · simp [hmem]
    · -- A name that is new is no longer so when it comes again.
      have hlater : ((foldedNames ds).filter fun name =>
            name ∉ foldedNames cs ++ [Text.foldCase d.name]) =
          ((foldedNames ds).filter fun name => name ∉ foldedNames cs).filter fun name =>
            !name == Text.foldCase d.name := by
        rw [List.filter_filter]
        refine List.filter_congr fun name _ => ?_
        rw [Bool.eq_iff_iff]
        simp [and_comm]
      rw [if_neg hmem, hlater, List.filter_cons, if_pos (by simpa using hmem), List.eraseDups_cons,
        List.append_assoc, List.singleton_append]

theorem nodup_foldedNames_redeclareAll (h : (foldedNames cs).Nodup) :
    (foldedNames (redeclareAll ds cs)).Nodup := by
  rw [foldedNames_redeclareAll, List.nodup_append]
  refine ⟨h, nodup_eraseDups _, ?_⟩
  intro old hold new hnew heq
  have hfree := (List.mem_filter.1 (List.mem_eraseDups.1 hnew)).2
  exact of_decide_eq_true hfree (heq ▸ hold)

/-- Where no two commands share a name, each is found under its own. -/
theorem find?_of_mem (hnodup : (foldedNames cs).Nodup) (hmem : c ∈ cs) :
    cs.find? (·.isNamed c.name) = some c := by
  rcases List.append_of_mem hmem with ⟨before, behind, rfl⟩
  refine List.find?_eq_some_iff_append.2 ⟨isNamed_self c, before, behind, rfl, ?_⟩
  intro d hd
  rw [foldedNames, List.map_append, List.nodup_append] at hnodup
  have hne := hnodup.2.2 _ (List.mem_map_of_mem hd) (Text.foldCase c.name) (by simp)
  rw [Bool.not_eq_true', isNamed_eq_false_iff]
  exact hne

/-- What comes behind the commands that there were is the last declaration of its name. -/
theorem lastNamed?_of_mem_drop (h : c ∈ (redeclareAll ds cs).drop cs.length) :
    lastNamed? ds c.name = some c := by
  induction cs generalizing ds with
  | nil =>
    have hnodup : (foldedNames (redeclareAll ds [])).Nodup := nodup_foldedNames_redeclareAll .nil
    have hfound := find?_of_mem hnodup h
    rw [find?_redeclareAll] at hfound
    simpa using hfound
  | cons c' cs ih =>
    rw [redeclareAll_first, List.length_cons, List.drop_succ_cons] at h
    have hlast := ih h
    -- It is one of the declarations that went on past `c'`.
    by_cases heq : Text.foldCase c.name = Text.foldCase c'.name
    · rw [lastNamed?_filter_self heq] at hlast
      cases hlast
    · rwa [lastNamed?_filter heq] at hlast

/-! ## Removing -/

/-- What is found under a name among commands of which some are removed by name. -/
theorem find?_removed (base : List CommandDeclaration) (removed : List String) (x : String) :
    (base.filter fun c => !removed.any c.isNamed).find? (·.isNamed x) =
      if removed.any (Text.sameIgnoringCase x) then none else base.find? (·.isNamed x) := by
  have hremoved : ∀ c : CommandDeclaration, c.isNamed x = true →
      removed.any c.isNamed = removed.any (Text.sameIgnoringCase x) := by
    intro c hc
    refine congrArg removed.any (funext fun r => ?_)
    rw [Bool.eq_iff_iff, isNamed_iff, Text.sameIgnoringCase_iff, isNamed_iff.1 hc]
  induction base with
  | nil => simp
  | cons c base ih =>
    rw [List.filter_cons, List.find?_cons]
    cases hc : c.isNamed x with
    | true =>
      rw [hremoved c hc]
      cases hany : removed.any (Text.sameIgnoringCase x) with
      | true => simpa [hany] using ih
      | false => simp [hc]
    | false =>
      cases removed.any c.isNamed with
      | true => simpa using ih
      | false => simpa [hc] using ih

end CommandDeclaration

/-! ## Settings -/

/-- Whether a setting is the one that is given, or the old one if none is. -/
def Takes {α : Type} (given : Option α) (old new : α) : Prop :=
  (∀ value, given = some value → new = value) ∧ (given = none → new = old)

theorem takes_getD {α : Type} (given : Option α) (old : α) : Takes given old (given.getD old) := by
  cases given <;> simp [Takes]

/-- Whether each setting is that of an overlay where it is given, and the old one otherwise. -/
structure Settings.OverlaidBy (s old : Settings) (o : SettingsOverlay) : Prop where
  strict : Takes o.strict old.strict s.strict
  overlappingSuggestions :
    Takes o.overlappingSuggestions old.overlappingSuggestions s.overlappingSuggestions
  autoPermissions : Takes o.autoPermissions old.autoPermissions s.autoPermissions
  permissionDelimiter : Takes o.permissionDelimiter old.permissionDelimiter s.permissionDelimiter
  suggestionTtl : Takes o.suggestionTtl old.suggestionTtl s.suggestionTtl
  logLevel : Takes o.logLevel old.logLevel s.logLevel
  logFile : Takes o.logFile old.logFile s.logFile

theorem Settings.overlaidBy_overlaid (s : Settings) (o : SettingsOverlay) :
    (s.overlaid o).OverlaidBy s o where
  strict := takes_getD _ _
  overlappingSuggestions := takes_getD _ _
  autoPermissions := takes_getD _ _
  permissionDelimiter := takes_getD _ _
  suggestionTtl := takes_getD _ _
  logLevel := takes_getD _ _
  logFile := takes_getD _ _

theorem Settings.overlaid_overlaid (s : Settings) (o : SettingsOverlay) :
    (s.overlaid o).overlaid o = s.overlaid o := by
  have hgiven : ∀ {α : Type} (given : Option α) (old : α),
      given.getD (given.getD old) = given.getD old := by
    intro α given old
    cases given <;> rfl
  simp only [Settings.overlaid, hgiven]

/-! ## Whole configurations -/

namespace Config

variable {c : Config} {o : Overlay}

/-- What is found under a name in a configuration with an overlay that does not replace it. -/
theorem command?_overlaid (h : o.replace = false) (x : String) :
    (c.overlaid o).command? x =
      (CommandDeclaration.lastNamed? o.commands x <|>
        if o.removed.any (Text.sameIgnoringCase x) then none else c.command? x) := by
  rw [command?, overlaid, h]
  dsimp only
  rw [CommandDeclaration.merge_eq, CommandDeclaration.find?_redeclareAll,
    CommandDeclaration.find?_removed]
  rfl

/-- Under an overlay that has been applied already nothing else is found. -/
theorem command?_overlaid_overlaid (c : Config) (o : Overlay) (x : String) :
    ((c.overlaid o).overlaid o).command? x = (c.overlaid o).command? x := by
  cases h : o.replace with
  | true => simp [command?, overlaid, CommandDeclaration.merge, h]
  | false =>
    rw [command?_overlaid h, command?_overlaid h]
    cases CommandDeclaration.lastNamed? o.commands x with
    | some d => rfl
    | none => cases o.removed.any (Text.sameIgnoringCase x) <;> rfl

/-- **Overlays.** An overlay that replaces leaves its own commands. Under any other, what is found under
a name is its last declaration in the overlay, or else the first one that there was unless the name is
removed. The commands that are not removed keep their order: at the place of each there is still that
command, or the overlay's last declaration of its name if it was the first of that name. The new names
follow in the order in which the overlay first declares them, each with its last declaration, and names
that were different before remain so. Each setting is the overlay's where one is given, and what it was
otherwise. The same overlay once more changes nothing that is found, and no setting. -/
theorem overlaid_law (c : Config) (o : Overlay) :
    (o.replace = true → (c.overlaid o).commands = o.commands) ∧
      (o.replace = false →
        let kept := c.commands.filter fun d => !o.removed.any d.isNamed
        let names := CommandDeclaration.foldedNames kept
        (∀ x, (c.overlaid o).command? x =
            (CommandDeclaration.lastNamed? o.commands x <|>
              if o.removed.any (Text.sameIgnoringCase x) then none else c.command? x)) ∧
          (∀ (i : Nat) d, kept[i]? = some d → (c.overlaid o).commands[i]? =
            some (if (kept.take i).any (·.isNamed d.name) then d
              else (CommandDeclaration.lastNamed? o.commands d.name).getD d)) ∧
          CommandDeclaration.foldedNames (c.overlaid o).commands = names ++
            ((CommandDeclaration.foldedNames o.commands).filter fun x => x ∉ names).eraseDups ∧
          (∀ d ∈ (c.overlaid o).commands.drop kept.length,
            CommandDeclaration.lastNamed? o.commands d.name = some d) ∧
          ((CommandDeclaration.foldedNames c.commands).Nodup →
            (CommandDeclaration.foldedNames (c.overlaid o).commands).Nodup)) ∧
      (c.overlaid o).settings.OverlaidBy c.settings o.settings ∧
      (∀ x, ((c.overlaid o).overlaid o).command? x = (c.overlaid o).command? x) ∧
      ((c.overlaid o).overlaid o).settings = (c.overlaid o).settings := by
  refine ⟨?_, ?_, Settings.overlaidBy_overlaid _ _, command?_overlaid_overlaid c o,
    Settings.overlaid_overlaid _ _⟩
  · intro h
    simp [overlaid, CommandDeclaration.merge, h]
  · intro h kept names
    have hmerged : (c.overlaid o).commands = CommandDeclaration.redeclareAll o.commands kept := by
      rw [overlaid, h]
      rfl
    rw [hmerged]
    refine ⟨command?_overlaid h, fun i d hd => CommandDeclaration.getElem?_redeclareAll hd,
      CommandDeclaration.foldedNames_redeclareAll _ _,
      fun d hd => CommandDeclaration.lastNamed?_of_mem_drop hd, fun hnodup => ?_⟩
    apply CommandDeclaration.nodup_foldedNames_redeclareAll
    exact hnodup.sublist (List.filter_sublist.map _)

/-- A command without usages. -/
def bare (name handler : String) : CommandDeclaration :=
  ⟨name, [], none, some handler, []⟩

/-- Three commands. -/
def three : Config :=
  ⟨.default, [bare "tp" "a", bare "msg" "b", bare "ban" "c"]⟩

/-- Two commands, one of them declared twice, in place of one of the three and after them. -/
def twice : Overlay where
  replace := false
  removed := ["TP"]
  settings := { SettingsOverlay.none with strict := some true }
  commands := [bare "fly" "d", bare "MSG" "e", bare "Fly" "f"]

/-- The second declaration of a new command counts, and a replaced one keeps its place. -/
theorem overlaid_law_twice :
    twice.replace = false ∧ (CommandDeclaration.foldedNames three.commands).Nodup ∧
      (three.overlaid twice).command? "FLY" = some (bare "Fly" "f") ∧
      (three.overlaid twice).command? "tp" = none ∧
      (three.overlaid twice).commands[0]? = some (bare "MSG" "e") ∧
      CommandDeclaration.foldedNames (three.overlaid twice).commands = ["msg", "ban", "fly"] ∧
      (CommandDeclaration.foldedNames (three.overlaid twice).commands).Nodup ∧
      (three.overlaid twice).settings.strict = true := by
  have hnodup : (CommandDeclaration.foldedNames three.commands).Nodup := by decide
  obtain ⟨-, hmerges, hsettings, -, -⟩ := overlaid_law three twice
  obtain ⟨hfound, hplaces, hnames, -, hdistinct⟩ := hmerges rfl
  refine ⟨rfl, hnodup, (hfound "FLY").trans (by decide), (hfound "tp").trans (by decide),
    (hplaces 0 (bare "msg" "b") (by decide)).trans (by decide), hnames.trans (by decide),
    hdistinct hnodup, hsettings.strict.1 true rfl⟩

end Config

end CommandLanguage

import CommandLanguage.Proofs.AsciiLetters
import CommandLanguage.Proofs.NameIndex
import CommandLanguage.Proofs.Overlays
import Mathlib.Data.List.Nodup

/-!
# Redefined commands

Which commands have one name is told twice. An overlay declares a command in place of the one whose
name agrees with its own up to the case of ASCII letters, and a registry refuses a command whose name
agrees in lower case with one that is taken. Names that the overlay takes for one the registry takes
for one too (`Text.lowercase_foldCase`), but not the other way round: `É` and `é` are two names for the
overlay and one for the registry.

Commands that can be built and have no aliases are all registered exactly if no two of their names
agree in lower case (`Registry.declareAll_eq_ok_iff`). So what an overlay makes of a configuration is
accepted exactly if each command that the registry would take for redefined is one that the overlay
has replaced, and it is if all names are ASCII (`Config.ofConfig_overlaid_iff`).
-/

namespace CommandLanguage

namespace Text

/-! ## Lower case and folded letters -/

/-- No letter is case-ignorable. The ranges are looked through once, not once for each letter. -/
theorem isCaseIgnorable_lowerAscii (c : Char) :
    isCaseIgnorable (lowerAscii c) = isCaseIgnorable c := by
  have hranges : ∀ r ∈ caseIgnorableRanges, (r.2 < 65 ∨ 90 < r.1) ∧ (r.2 < 97 ∨ 122 < r.1) := by
    decide +kernel
  have hletter : ∀ n, 65 ≤ n ∧ n ≤ 90 ∨ 97 ≤ n ∧ n ≤ 122 →
      isCaseIgnorable (Char.ofNat n) = false := by
    intro n hn
    have hvalid : n.isValidChar := .inl (by omega)
    have htoNat : (Char.ofNat n).toNat = n := by
      rw [Char.ofNat, dif_pos hvalid]
      rfl
    rw [isCaseIgnorable, inRanges, List.any_eq_false]
    intro r hr
    have hr := hranges r hr
    rw [htoNat, Bool.and_eq_true, decide_eq_true_eq, decide_eq_true_eq]
    omega
  apply apply_lowerAscii isCaseIgnorable
  intro k hk
  rw [hletter _ (by omega), hletter _ (by omega)]

theorem meetsCased_map_lowerAscii (cs : List Char) :
    meetsCased (cs.map lowerAscii) = meetsCased cs := by
  have hignorable : isCaseIgnorable ∘ lowerAscii = isCaseIgnorable :=
    funext isCaseIgnorable_lowerAscii
  have hcased : ∀ c, isCased (lowerAscii c) = isCased c :=
    apply_lowerAscii isCased (by decide +kernel)
  rw [meetsCased, meetsCased, List.dropWhile_map, hignorable, List.head?_map]
  cases (cs.dropWhile isCaseIgnorable).head? with
  | none => rfl
  | some c => exact hcased c

theorem lowercaseFrom_map_lowerAscii (before cs : List Char) :
    lowercaseFrom (before.map lowerAscii) (cs.map lowerAscii) = lowercaseFrom before cs := by
  have hsigma : ∀ c, lowerAscii c = 'Σ' ↔ c = 'Σ' := fun c => lowerAscii_eq_iff (by decide +kernel)
  have hchar : ∀ c, lowerChar (lowerAscii c) = lowerChar c :=
    apply_lowerAscii lowerChar (by decide +kernel)
  induction cs generalizing before with
  | nil => rfl
  | cons c cs ih =>
    have hrest := ih (c :: before)
    rw [List.map_cons] at hrest ⊢
    simp only [lowercaseFrom, hsigma, hchar, meetsCased_map_lowerAscii, hrest]

/-- Names that agree up to the case of ASCII letters agree in lower case. -/
theorem lowercase_foldCase (s : String) : lowercase (foldCase s) = lowercase s := by
  rw [lowercase, lowercase, toList_foldCase]
  exact congrArg String.ofList (lowercaseFrom_map_lowerAscii [] s.toList)

/-- In a text of ASCII characters no other letters have a case. -/
theorem lowercase_eq_foldCase {s : String} (h : ∀ c ∈ s.toList, c.toNat < 128) :
    lowercase s = foldCase s := by
  have hchars : ∀ before cs : List Char, (∀ c ∈ cs, c.toNat < 128) →
      lowercaseFrom before cs = cs.map lowerAscii := by
    intro before cs hcs
    induction cs generalizing before with
    | nil => rfl
    | cons c cs ih =>
      rcases List.forall_mem_cons.1 hcs with ⟨hc, hcs⟩
      have hsigma : c ≠ 'Σ' := by
        rintro rfl
        exact absurd hc (by decide)
      rw [lowercaseFrom, if_neg hsigma, lowerChar, if_pos hc, ih _ hcs]
      rfl
  rw [lowercase, hchars [] _ h, foldCase]

end Text

/-! ## Commands without aliases -/

/-- Whether a declared command can be built and sealed. -/
def CommandDeclaration.Builds (d : CommandDeclaration) : Prop :=
  ∃ g, d.grammar = .ok g ∧ g.fault? = none

/-- The names of commands in lower case. -/
def CommandDeclaration.lowerNames (ds : List CommandDeclaration) : List String :=
  ds.map fun d => Text.lowercase d.name

variable {Source : Type}

/-- Whether a command can be built does not depend on settings. -/
theorem CommandDeclaration.exists_command_iff {d : CommandDeclaration} (settings : TreeSettings) :
    (∃ c : Command Source, d.command settings = .ok c) ↔ d.Builds := by
  constructor
  · rintro ⟨c, hc⟩
    obtain ⟨g, hg, hrest⟩ := bind_eq_ok_iff.1 hc
    obtain ⟨t, hseal, -⟩ := bind_eq_ok_iff.1 hrest
    exact ⟨g, hg, (Grammar.seal_eq_ok_iff.1 hseal).1⟩
  · rintro ⟨g, hg, hfault⟩
    exact ⟨_, bind_eq_ok_iff.2 ⟨g, hg, bind_eq_ok_iff.2
      ⟨_, Grammar.seal_eq_ok_iff.2 ⟨hfault, rfl⟩, rfl⟩⟩⟩

namespace Registry

/-- The names that are taken, in lower case. -/
def takenKeys (r : Registry Source) : List String :=
  r.commands.flatMap (·.keys)

variable {r r' : Registry Source} {d : CommandDeclaration} {ds : List CommandDeclaration}

theorem isSome_byKey?_iff {key : String} : (r.byKey? key).isSome = true ↔ key ∈ r.takenKeys := by
  rw [byKey?, List.find?_isSome, takenKeys, List.mem_flatMap]
  simp

/-- What becomes of a command that has no aliases and can be built: it is refused if its name is taken,
and else its name is. -/
theorem declare_plain (hplain : d.aliases = []) (hbuilds : d.Builds) (r : Registry Source) :
    (Text.lowercase d.name ∈ r.takenKeys ∧
        r.declare d = .error (.nameTaken (Text.lowercase d.name))) ∨
      Text.lowercase d.name ∉ r.takenKeys ∧
        ∃ r', r.declare d = .ok r' ∧ r'.takenKeys = r.takenKeys ++ [Text.lowercase d.name] := by
  obtain ⟨c, hc⟩ : ∃ c : Command Source, d.command r.settings = .ok c :=
    (CommandDeclaration.exists_command_iff r.settings).2 hbuilds
  have hkeys : c.keys = [Text.lowercase d.name] := by
    rw [Command.keys, CommandDeclaration.names_of_command hc, hplain]
    rfl
  have hdeclare : r.declare d = r.register c := by
    rw [declare_eq, hc]
    rfl
  rw [hdeclare, register, hkeys, List.find?_singleton]
  by_cases htaken : Text.lowercase d.name ∈ r.takenKeys
  · rw [if_pos (isSome_byKey?_iff.2 htaken)]
    exact .inl ⟨htaken, rfl⟩
  · rw [if_neg (mt isSome_byKey?_iff.1 htaken)]
    refine .inr ⟨htaken, _, rfl, ?_⟩
    simp [takenKeys, hkeys]

theorem builds_of_declare (h : r.declare d = .ok r') : d.Builds := by
  rw [declare_eq] at h
  obtain ⟨c, hc, -⟩ := bind_eq_ok_iff.1 h
  exact (CommandDeclaration.exists_command_iff r.settings).1 ⟨c, hc⟩

theorem declareAll_cons (r : Registry Source) (d : CommandDeclaration)
    (ds : List CommandDeclaration) :
    r.declareAll (d :: ds) = r.declare d >>= fun r' => r'.declareAll ds := rfl

/-- Commands without aliases are all registered exactly if they can be built and no two of their names
agree in lower case, with each other or with one that is taken. -/
theorem declareAll_eq_ok_iff (hplain : ∀ d ∈ ds, d.aliases = []) (hnodup : r.takenKeys.Nodup) :
    (∃ r', r.declareAll ds = .ok r') ↔
      (∀ d ∈ ds, d.Builds) ∧ (r.takenKeys ++ CommandDeclaration.lowerNames ds).Nodup := by
  induction ds generalizing r with
  | nil =>
    refine iff_of_true ⟨r, rfl⟩ ⟨by simp, ?_⟩
    rwa [CommandDeclaration.lowerNames, List.map_nil, List.append_nil]
  | cons d ds ih =>
    rcases List.forall_mem_cons.1 hplain with ⟨hd, hds⟩
    rw [declareAll_cons]
    by_cases hbuilds : d.Builds
    · rcases declare_plain hd hbuilds r with ⟨htaken, hrefused⟩ | ⟨hfree, r', hok, hkeys⟩
      · -- A name that is taken comes twice.
        rw [hrefused]
        refine iff_of_false (by rintro ⟨_, h⟩; cases h) ?_
        rintro ⟨-, hapart⟩
        exact (List.nodup_append.1 hapart).2.2 _ htaken _ List.mem_cons_self rfl
      · have hnodup' : r'.takenKeys.Nodup := by
          rw [hkeys, List.nodup_append]
          refine ⟨hnodup, List.nodup_singleton _, ?_⟩
          rintro key hkey _ hd rfl
          exact hfree (List.mem_singleton.1 hd ▸ hkey)
        rw [hok]
        refine (ih hds hnodup').trans ?_
        rw [hkeys, List.append_assoc, List.forall_mem_cons, and_iff_right hbuilds]
        rfl
    · -- A command that cannot be built is refused, whatever its name.
      refine iff_of_false ?_ fun h => hbuilds (h.1 d List.mem_cons_self)
      rintro ⟨_, h⟩
      obtain ⟨r', hr', -⟩ := bind_eq_ok_iff.1 h
      exact hbuilds (builds_of_declare hr')

/-- Among commands that can be built and have no aliases, the one that is refused has a name that is
taken, or was by one before it. -/
theorem of_declareAll_eq_error (hplain : ∀ d ∈ ds, d.aliases = []) (hbuilds : ∀ d ∈ ds, d.Builds)
    {e : GrammarError} (h : r.declareAll ds = .error e) :
    ∃ before d behind, ds = before ++ d :: behind ∧ e = .nameTaken (Text.lowercase d.name) ∧
      Text.lowercase d.name ∈ r.takenKeys ++ CommandDeclaration.lowerNames before := by
  induction ds generalizing r with
  | nil => cases h
  | cons d ds ih =>
    rcases List.forall_mem_cons.1 hplain with ⟨hd, hds⟩
    rcases List.forall_mem_cons.1 hbuilds with ⟨hd', hds'⟩
    rw [declareAll_cons] at h
    rcases declare_plain hd hd' r with ⟨htaken, hrefused⟩ | ⟨-, r', hok, hkeys⟩
    · rw [hrefused] at h
      obtain rfl := Except.error.inj h
      exact ⟨[], d, ds, rfl, rfl, List.mem_append_left _ htaken⟩
    · rw [hok] at h
      obtain ⟨before, d', behind, rfl, he, hmem⟩ := ih hds hds' h
      rw [hkeys, List.append_assoc] at hmem
      exact ⟨d :: before, d', behind, rfl, he, hmem⟩

theorem takenKeys_empty (settings : TreeSettings) :
    (empty settings : Registry Source).takenKeys = [] := rfl

/-- The commands of a configuration without aliases are accepted exactly if they can be built and no
two of their names agree in lower case. -/
theorem ofConfig_eq_ok_iff {config : Config} (hplain : ∀ d ∈ config.commands, d.aliases = []) :
    (∃ r : Registry Source, ofConfig config = .ok r) ↔
      (∀ d ∈ config.commands, d.Builds) ∧ (CommandDeclaration.lowerNames config.commands).Nodup :=
  declareAll_eq_ok_iff hplain .nil

end Registry

/-! ## Merged commands -/

namespace CommandDeclaration

variable {c d : CommandDeclaration} {ds cs : List CommandDeclaration}

theorem mem_redeclare (h : c ∈ redeclare d cs) : c = d ∨ c ∈ cs := by
  induction cs with
  | nil => exact .inl (List.mem_singleton.1 h)
  | cons c' cs ih =>
    rw [redeclare] at h
    split at h
    · exact (List.mem_cons.1 h).imp_right (List.mem_cons_of_mem c')
    · rcases List.mem_cons.1 h with rfl | h
      · exact .inr List.mem_cons_self
      · exact (ih h).imp_right (List.mem_cons_of_mem c')

theorem mem_redeclareAll (h : c ∈ redeclareAll ds cs) : c ∈ cs ++ ds := by
  induction ds generalizing cs with
  | nil => exact List.mem_append_left _ h
  | cons d ds ih =>
    rcases List.mem_append.1 (ih h) with hmem | hmem
    · rcases mem_redeclare hmem with rfl | hmem
      · simp
      · exact List.mem_append_left _ hmem
    · exact List.mem_append_right _ (List.mem_cons_of_mem d hmem)

theorem lowerNames_eq (ds : List CommandDeclaration) :
    lowerNames ds = (foldedNames ds).map Text.lowercase := by
  rw [lowerNames, foldedNames, List.map_map]
  exact List.map_congr_left fun d _ => (Text.lowercase_foldCase d.name).symm

/-- Names that differ in lower case are not the same up to the case of ASCII letters. -/
theorem nodup_foldedNames_of_lowerNames (h : (lowerNames ds).Nodup) : (foldedNames ds).Nodup := by
  rw [lowerNames_eq] at h
  exact h.of_map _

theorem mem_foldedNames_redeclareAll {name : String} :
    name ∈ foldedNames (redeclareAll ds cs) ↔ name ∈ foldedNames (cs ++ ds) := by
  rw [foldedNames_redeclareAll, foldedNames, foldedNames, foldedNames, List.map_append,
    List.mem_append, List.mem_append, List.mem_eraseDups, List.mem_filter]
  by_cases h : name ∈ cs.map fun d => Text.foldCase d.name
  · simp [h]
  · simp [h]

/-- Merged commands differ in lower case exactly if each name that agrees in lower case with that of a
redeclared command is that command's name, up to the case of ASCII letters. -/
theorem nodup_lowerNames_redeclareAll (hcs : (lowerNames cs).Nodup) :
    (lowerNames (redeclareAll ds cs)).Nodup ↔ ∀ d ∈ ds, ∀ c ∈ cs ++ ds,
      Text.lowercase c.name = Text.lowercase d.name → c.isNamed d.name = true := by
  have hfolded : (foldedNames (redeclareAll ds cs)).Nodup :=
    nodup_foldedNames_redeclareAll (nodup_foldedNames_of_lowerNames hcs)
  rw [lowerNames_eq, List.nodup_map_iff_inj_on hfolded]
  simp only [mem_foldedNames_redeclareAll]
  constructor
  · intro h d hd c hc hsame
    apply isNamed_iff.2
    apply h _ (List.mem_map_of_mem hc) _ (List.mem_map_of_mem (List.mem_append_right cs hd))
    rwa [Text.lowercase_foldCase, Text.lowercase_foldCase]
  · intro h x hx y hy hsame
    obtain ⟨c, hc, rfl⟩ := List.mem_map.1 hx
    obtain ⟨d, hd, rfl⟩ := List.mem_map.1 hy
    rw [Text.lowercase_foldCase, Text.lowercase_foldCase] at hsame
    rcases List.mem_append.1 hd with hd' | hd'
    · rcases List.mem_append.1 hc with hc' | hc'
      · -- Neither is redeclared, and there they differ.
        rw [List.inj_on_of_nodup_map hcs hc' hd' hsame]
      · exact (isNamed_iff.1 (h c hc' d hd hsame.symm)).symm
    · exact isNamed_iff.1 (h d hd' c hc hsame)

/-- Where no two names are the same up to the case of ASCII letters, no command before another is one
of its name. -/
theorem isNamed_eq_false_of_nodup (h : (foldedNames (cs ++ d :: ds)).Nodup) (hc : c ∈ cs) :
    c.isNamed d.name = false := by
  rw [foldedNames, List.map_append, List.nodup_append] at h
  apply isNamed_eq_false_iff.2
  exact h.2.2 _ (List.mem_map_of_mem hc) _ List.mem_cons_self

end CommandDeclaration

namespace Config

/-- The commands of a configuration that an overlay does not remove. -/
def kept (c : Config) (o : Overlay) : List CommandDeclaration :=
  c.commands.filter fun d => !o.removed.any d.isNamed

theorem commands_overlaid {c : Config} {o : Overlay} (h : o.replace = false) :
    (c.overlaid o).commands = CommandDeclaration.redeclareAll o.commands (c.kept o) := by
  rw [overlaid, h]
  rfl

theorem mem_commands_overlaid {c : Config} {o : Overlay} (h : o.replace = false)
    {d : CommandDeclaration} (hd : d ∈ (c.overlaid o).commands) : d ∈ c.kept o ++ o.commands := by
  rw [commands_overlaid h] at hd
  exact CommandDeclaration.mem_redeclareAll hd

/-- No two merged commands have one name for the overlay. -/
theorem nodup_foldedNames_commands_overlaid {c : Config} {o : Overlay} (h : o.replace = false)
    (hkept : (CommandDeclaration.lowerNames (c.kept o)).Nodup) :
    (CommandDeclaration.foldedNames (c.overlaid o).commands).Nodup := by
  rw [commands_overlaid h]
  apply CommandDeclaration.nodup_foldedNames_redeclareAll
  exact CommandDeclaration.nodup_foldedNames_of_lowerNames hkept

/-- **Redefined commands.** Take a configuration that is accepted and an overlay that does not replace
it, no command with an alias, and each one of the overlay fit to be built. What the overlay makes of
the configuration is accepted exactly if each command that agrees in lower case with one of the
overlay agrees with it up to the case of ASCII letters, and so it is if all names are ASCII. Else it
is refused for a name, and for one that the overlay has not replaced: two merged commands agree in
lower case, though not up to the case of ASCII letters. -/
theorem ofConfig_overlaid_iff (Source : Type) (base : Config) (o : Overlay)
    (hbase : ∃ r : Registry Source, Registry.ofConfig base = .ok r) (hreplace : o.replace = false)
    (hplain : ∀ d ∈ base.commands ++ o.commands, d.aliases = [])
    (hbuilds : ∀ d ∈ o.commands, d.Builds) :
    ((∃ r : Registry Source, Registry.ofConfig (base.overlaid o) = .ok r) ↔
        ∀ d ∈ o.commands, ∀ c ∈ base.kept o ++ o.commands,
          Text.lowercase c.name = Text.lowercase d.name → c.isNamed d.name = true) ∧
      ((∀ d ∈ base.commands ++ o.commands, ∀ c ∈ d.name.toList, c.toNat < 128) →
        ∃ r : Registry Source, Registry.ofConfig (base.overlaid o) = .ok r) ∧
      ∀ e, (Registry.ofConfig (base.overlaid o) : Except GrammarError (Registry Source)) = .error e →
        ∃ before d behind, (base.overlaid o).commands = before ++ d :: behind ∧
          e = .nameTaken (Text.lowercase d.name) ∧
          ∃ c ∈ before, Text.lowercase c.name = Text.lowercase d.name ∧ c.isNamed d.name = false := by
  have hkept : (base.kept o).Sublist base.commands := List.filter_sublist
  have hsub : ∀ d ∈ base.kept o ++ o.commands, d ∈ base.commands ++ o.commands :=
    (hkept.append_right o.commands).subset
  obtain ⟨hbaseBuilds, hbaseNames⟩ := (Registry.ofConfig_eq_ok_iff
    fun d hd => hplain d (List.mem_append_left _ hd)).1 hbase
  have hkeptNames : (CommandDeclaration.lowerNames (base.kept o)).Nodup :=
    hbaseNames.sublist (hkept.map _)
  have hmergedPlain : ∀ d ∈ (base.overlaid o).commands, d.aliases = [] :=
    fun d hd => hplain d (hsub d (mem_commands_overlaid hreplace hd))
  have hmergedBuilds : ∀ d ∈ (base.overlaid o).commands, d.Builds := by
    intro d hd
    rcases List.mem_append.1 (hsub d (mem_commands_overlaid hreplace hd)) with hd | hd
    · exact hbaseBuilds d hd
    · exact hbuilds d hd
  -- The base has distinct keys, so a key is taken twice only where a redefinition is not seen.
  have hiff : (∃ r : Registry Source, Registry.ofConfig (base.overlaid o) = .ok r) ↔
      ∀ d ∈ o.commands, ∀ c ∈ base.kept o ++ o.commands,
        Text.lowercase c.name = Text.lowercase d.name → c.isNamed d.name = true := by
    rw [Registry.ofConfig_eq_ok_iff hmergedPlain, and_iff_right hmergedBuilds,
      commands_overlaid hreplace]
    exact CommandDeclaration.nodup_lowerNames_redeclareAll hkeptNames
  refine ⟨hiff, ?_, ?_⟩
  · intro hascii
    apply hiff.2
    intro d hd c hc hsame
    rw [Text.lowercase_eq_foldCase (hascii c (hsub c hc)),
      Text.lowercase_eq_foldCase (hascii d (List.mem_append_right _ hd))] at hsame
    exact CommandDeclaration.isNamed_iff.2 hsame
  · intro e he
    obtain ⟨before, d, behind, hcommands, rfl, htaken⟩ :=
      Registry.of_declareAll_eq_error hmergedPlain hmergedBuilds he
    rw [Registry.takenKeys_empty, List.nil_append] at htaken
    obtain ⟨c, hc, hsame⟩ := List.mem_map.1 htaken
    refine ⟨before, d, behind, hcommands, rfl, c, hc, hsame, ?_⟩
    have hfolded := nodup_foldedNames_commands_overlaid hreplace hkeptNames
    rw [hcommands] at hfolded
    exact CommandDeclaration.isNamed_eq_false_of_nodup hfolded hc

/-- A command whose name is no ASCII letter, and another one. -/
def accented : Config :=
  ⟨.default, [bare "é" "a", bare "kit" "b"]⟩

/-- The two commands again, in capitals, with or without the first one removed. -/
def capitals (removed : List String) : Overlay where
  replace := false
  removed := removed
  settings := .none
  commands := [bare "É" "c", bare "KIT" "d"]

theorem builds_bare (name handler : String) : (bare name handler).Builds :=
  ⟨_, rfl, rfl⟩

/-- With the old command out of the way the one in capitals is accepted. -/
theorem ofConfig_overlaid_iff_removed :
    (∃ r : Registry Unit, Registry.ofConfig accented = .ok r) ∧ (capitals ["é"]).replace = false ∧
      (∀ d ∈ accented.commands ++ (capitals ["é"]).commands, d.aliases = []) ∧
      (∀ d ∈ (capitals ["é"]).commands, d.Builds) ∧
      ∃ r : Registry Unit, Registry.ofConfig (accented.overlaid (capitals ["é"])) = .ok r := by
  have hbase : ∃ r : Registry Unit, Registry.ofConfig accented = .ok r := ⟨_, rfl⟩
  have hplain : ∀ d ∈ accented.commands ++ (capitals ["é"]).commands, d.aliases = [] := by decide
  have hbuilds : ∀ d ∈ (capitals ["é"]).commands, d.Builds := by
    intro d hd
    rcases List.mem_pair.1 hd with rfl | rfl
    · exact builds_bare _ _
    · exact builds_bare _ _
  refine ⟨hbase, rfl, hplain, hbuilds, ?_⟩
  apply (ofConfig_overlaid_iff Unit accented (capitals ["é"]) hbase rfl hplain hbuilds).1.2
  decide +kernel

/-- An overlay that declares a command in capitals beside one that goes by the same name in lower case,
and has not replaced it, is refused for that name. -/
theorem capital_refused :
    (∃ r : Registry Unit, Registry.ofConfig accented = .ok r) ∧ (capitals []).replace = false ∧
      (∀ d ∈ accented.commands ++ (capitals []).commands, d.aliases = []) ∧
      (∀ d ∈ accented.commands ++ (capitals []).commands, d.Builds) ∧
      (Registry.ofConfig (accented.overlaid (capitals [])) :
        Except GrammarError (Registry Unit)) = .error (.nameTaken "é") := by
  refine ⟨⟨_, rfl⟩, rfl, by decide, ?_, rfl⟩
  intro d hd
  have hbare : ∃ name handler, d = bare name handler := by
    simp only [accented, capitals, List.cons_append, List.nil_append, List.mem_cons,
      List.not_mem_nil, or_false] at hd
    rcases hd with rfl | rfl | rfl | rfl <;> exact ⟨_, _, rfl⟩
  obtain ⟨name, handler, rfl⟩ := hbare
  exact builds_bare name handler

end Config

end CommandLanguage

import CommandLanguage.Proofs.NameIndex

/-!
# Completing names of commands

A first word is completed by looking through the commands: those that the source may not use are passed
over, then the names that do not begin with the word, then those that have come before up to case. No
two commands share a name, so a name is only ever passed over for another one of the same command
(`Command.find?_names`). What is left is therefore what the index of names tells: a name that is shown
leads to a command that the source may use (`Directory.complete_names_law`).
-/

namespace CommandLanguage

namespace Registry

/-! ## Names that come for the first time -/

theorem unseenNames_sublist (seen ss : List String) : (unseenNames seen ss).Sublist ss := by
  induction ss generalizing seen with
  | nil => exact .slnil
  | cons s ss ih =>
    rw [unseenNames]
    split
    · exact (ih seen).cons s
    · exact (ih _).cons_cons s

/-- A text is kept if it is the first of those that agree with it in lower case, and none has come
before. -/
theorem mem_unseenNames_iff {seen ss : List String} {s : String} :
    s ∈ unseenNames seen ss ↔ Text.lowercase s ∉ seen ∧
      ss.find? (fun t => Text.lowercase t = Text.lowercase s) = some s := by
  induction ss generalizing seen with
  | nil => simp [unseenNames]
  | cons t ss ih =>
    rw [unseenNames]
    by_cases hsame : Text.lowercase t = Text.lowercase s
    · rw [List.find?_cons_of_pos (by simpa using hsame)]
      by_cases hseen : Text.lowercase t ∈ seen
      · rw [if_pos hseen, ih]
        rw [hsame] at hseen
        simp [hseen]
      · -- Only `t` itself can be kept, for from here on its key has come before.
        rw [if_neg hseen, List.mem_cons, ih]
        rw [hsame] at hseen ⊢
        simp [hseen, eq_comm]
    · have hne : s ≠ t := fun h => hsame (h ▸ rfl)
      rw [List.find?_cons_of_neg (by simpa using hsame)]
      by_cases hseen : Text.lowercase t ∈ seen
      · rw [if_pos hseen, ih]
      · rw [if_neg hseen, List.mem_cons, ih]
        simp [hne, Ne.symm hsame]

theorem nodup_unseenNames (seen ss : List String) :
    ((unseenNames seen ss).map Text.lowercase).Nodup := by
  induction ss generalizing seen with
  | nil => exact .nil
  | cons s ss ih =>
    rw [unseenNames]
    split
    · exact ih seen
    · rw [List.map_cons, List.nodup_cons]
      refine ⟨?_, ih _⟩
      intro hmem
      rcases List.mem_map.1 hmem with ⟨t, ht, hsame⟩
      apply (mem_unseenNames_iff.1 ht).1
      rw [hsame]
      exact List.mem_cons_self

/-- A text begins with another if its lower-case form does. -/
theorem beginsLike_iff {typed s : String} :
    beginsLike typed s = true ↔ (Text.lowercase typed).toList <+: (Text.lowercase s).toList :=
  List.isPrefixOf_iff_prefix

/-- Of the texts that begin with another, the first ones of their keys are the first ones of all. -/
theorem mem_unseenNames_filter_iff {typed s : String} {ss : List String} :
    s ∈ unseenNames [] (ss.filter (beginsLike typed)) ↔ beginsLike typed s = true ∧
      ss.find? (fun t => Text.lowercase t = Text.lowercase s) = some s := by
  rw [mem_unseenNames_iff, List.find?_filter]
  -- Texts with one key are kept or dropped together, so the first of them stays the first.
  have hlike : ∀ t, Text.lowercase t = Text.lowercase s → beginsLike typed t = beginsLike typed s := by
    intro t ht
    rw [beginsLike, beginsLike, ht]
  cases hs : beginsLike typed s with
  | false =>
    refine iff_of_false ?_ (by simp)
    rintro ⟨-, hfind⟩
    have hboth := List.find?_some hfind
    simp [hs] at hboth
  | true =>
    have hsame : (fun t => beginsLike typed t && decide (Text.lowercase t = Text.lowercase s)) =
        fun t => decide (Text.lowercase t = Text.lowercase s) := by
      funext t
      by_cases ht : Text.lowercase t = Text.lowercase s
      · simp [ht, hlike t ht, hs]
      · simp [ht]
    simp [hsame]

end Registry

variable {Source : Type} {caps : Capabilities Source} {source : Source}

/-- Among the names of commands that share none, the first one of a key is that of its command. -/
theorem Command.find?_names {cs : List (Command Source)} (hapart : cs.Pairwise Command.Apart)
    {c : Command Source} (hc : c ∈ cs) {key : String} (hkey : key ∈ c.keys) :
    (cs.flatMap (·.names)).find? (fun n => Text.lowercase n = key) =
      c.names.find? (fun n => Text.lowercase n = key) := by
  obtain ⟨before, behind, rfl⟩ := List.append_of_mem hc
  -- A command before `c` that had the key would share a name with it.
  have hbefore : (before.flatMap (·.names)).find? (fun n => Text.lowercase n = key) = none := by
    rw [List.find?_eq_none]
    intro n hn
    obtain ⟨c', hc', hn⟩ := List.mem_flatMap.1 hn
    have hne := ((List.pairwise_append.1 hapart).2.2 c' hc' c List.mem_cons_self).not_mem_keys hkey
    simpa using fun heq => hne (Command.mem_keys.2 ⟨n, hn, heq⟩)
  have hfound : (c.names.find? fun n => Text.lowercase n = key).isSome = true := by
    rw [List.find?_isSome]
    simpa using Command.mem_keys.1 hkey
  rw [List.flatMap_append, List.find?_append, hbefore, Option.none_or, List.flatMap_cons,
    List.find?_append, Option.or_of_isSome hfound]

namespace Registry

variable {r : Registry Source}

/-- The names that complete a word: of each command that the source may use those that begin with the
word, and of several that agree in lower case the first. -/
theorem mem_completeName_iff (hapart : r.commands.Pairwise Command.Apart) {typed n : String} :
    n ∈ r.completeName caps source typed ↔ ∃ c ∈ r.commands, c.permits caps source = true ∧
      (Text.lowercase (dropSlash typed)).toList <+: (Text.lowercase n).toList ∧
        c.names.find? (fun m => Text.lowercase m = Text.lowercase n) = some n := by
  have hpermitted : (r.commands.filter (·.permits caps source)).Pairwise Command.Apart :=
    hapart.sublist List.filter_sublist
  rw [completeName, mem_unseenNames_filter_iff, beginsLike_iff]
  constructor
  · rintro ⟨hbegins, hfind⟩
    obtain ⟨c, hc, hn⟩ := List.mem_flatMap.1 (List.mem_of_find?_eq_some hfind)
    rw [Command.find?_names hpermitted hc (Command.mem_keys.2 ⟨n, hn, rfl⟩)] at hfind
    obtain ⟨hc, hpermits⟩ := List.mem_filter.1 hc
    exact ⟨c, hc, hpermits, hbegins, hfind⟩
  · rintro ⟨c, hc, hpermits, hbegins, hfind⟩
    have hn := List.mem_of_find?_eq_some hfind
    refine ⟨hbegins, ?_⟩
    rw [Command.find?_names hpermitted (List.mem_filter.2 ⟨hc, hpermits⟩)
      (Command.mem_keys.2 ⟨n, hn, rfl⟩)]
    exact hfind

/-- Each name that begins with the word is there, up to case, if the source may use its command. -/
theorem exists_mem_completeName (hapart : r.commands.Pairwise Command.Apart) {c : Command Source}
    (hc : c ∈ r.commands) (hpermits : c.permits caps source = true) {typed n : String}
    (hn : n ∈ c.names)
    (hbegins : (Text.lowercase (dropSlash typed)).toList <+: (Text.lowercase n).toList) :
    ∃ m ∈ r.completeName caps source typed, m ∈ c.names ∧ Text.lowercase m = Text.lowercase n := by
  have hsome : (c.names.find? fun m => Text.lowercase m = Text.lowercase n).isSome = true :=
    List.find?_isSome.2 ⟨n, hn, by simp⟩
  obtain ⟨m, hm⟩ := Option.isSome_iff_exists.1 hsome
  have hsame : Text.lowercase m = Text.lowercase n := by simpa using List.find?_some hm
  rw [← hsame] at hm hbegins
  refine ⟨m, ?_, List.mem_of_find?_eq_some hm, hsame⟩
  exact (mem_completeName_iff hapart).2 ⟨c, hc, hpermits, hbegins, hm⟩

/-- A line whose first word is to be completed is completed to names of commands. -/
theorem complete_of_target_eq_zero [DecidableEq Source] {line : String}
    (h : (splitForCompletion line).target = 0) (now : Nat) :
    r.complete caps now source line =
      (r.completeName caps source (splitForCompletion line).typed, r) := by
  unfold complete
  dsimp only
  split
  · rename_i htarget _
    rw [h] at htarget
    cases htarget
  · rfl

end Registry

namespace Directory

/-! ## The order of commands -/

/-- Declaring a command adds nothing or a command with the names that it is declared with. -/
theorem names_afterOne (d : Directory Source) (declaration : CommandDeclaration) :
    (d.afterOne declaration).commands.map (·.names) = d.commands.map (·.names) ∨
      (d.afterOne declaration).commands.map (·.names) =
        d.commands.map (·.names) ++ [declaration.name :: declaration.aliases] := by
  unfold afterOne
  rcases declare_cases declaration d with ⟨c, hrun, hcommand, -⟩ | ⟨e, hrun⟩
  · rw [hrun]
    right
    rw [add, List.map_append, List.map_singleton, CommandDeclaration.names_of_command hcommand]
  · rw [hrun]
    left
    rfl

/-- Commands stand in the order in which they were declared. -/
theorem names_afterEach_sublist (d : Directory Source) (declarations : List CommandDeclaration) :
    ((d.afterEach declarations).commands.map (·.names)).Sublist
      (d.commands.map (·.names) ++ declarations.map fun x => x.name :: x.aliases) := by
  induction declarations generalizing d with
  | nil => simp [afterEach]
  | cons declaration declarations ih =>
    have hrest := ih (d.afterOne declaration)
    rw [afterEach, List.foldl_cons, ← afterEach, List.map_cons]
    rcases names_afterOne d declaration with hrefused | hadded
    · rw [hrefused] at hrest
      exact hrest.trans ((List.sublist_cons_self _ _).append_left _)
    · rwa [hadded, List.append_assoc, List.singleton_append] at hrest

/-! ## Names that lead to commands -/

variable {d : Directory Source}

theorem Indexed.get?_slash_eq_some (h : d.Indexed) {c : Command Source} (hc : c ∈ d.commands)
    {n : String} (hn : Text.lowercase n ∈ c.keys) : d.get? ("/" ++ n) = some c :=
  h.get?_eq_some hc (by rwa [dropSlash_slash_append])

/-- A name that is shown leads to a command that the source may use. -/
theorem Indexed.exists_get?_of_mem_completeName (h : d.Indexed) {typed n : String}
    (hn : n ∈ d.registry.completeName caps source typed) :
    ∃ c, d.get? ("/" ++ n) = some c ∧ c.permits caps source = true := by
  obtain ⟨c, hc, hpermits, -, hfind⟩ := (Registry.mem_completeName_iff h.apart).1 hn
  have hkey : Text.lowercase n ∈ c.keys :=
    Command.mem_keys.2 ⟨n, List.mem_of_find?_eq_some hfind, rfl⟩
  exact ⟨c, h.get?_slash_eq_some hc hkey, hpermits⟩

/-- No command that the source may not use has a name that is shown. -/
theorem Indexed.lowercase_ne_of_mem_completeName (h : d.Indexed) {typed m : String}
    (hm : m ∈ d.registry.completeName caps source typed) {c : Command Source} (hc : c ∈ d.commands)
    (hforbidden : c.permits caps source = false) {n : String} (hn : n ∈ c.names) :
    Text.lowercase m ≠ Text.lowercase n := by
  intro hsame
  obtain ⟨c', hget, hpermits⟩ := h.exists_get?_of_mem_completeName hm
  rw [h.get?_slash_eq_some hc (Command.mem_keys.2 ⟨n, hn, hsame.symm⟩)] at hget
  obtain rfl := Option.some.inj hget
  rw [hforbidden] at hpermits
  cases hpermits

/-- **Completing a first word.** After any declarations, each of which was registered or refused, the
first word of a line is completed to names of the commands that the source may use, command by command
in the order in which they were declared and each one's own name first. They are the names that
begin with the word in lower case, less one slash in front of it, and of names that agree in lower
case just the first; every name that begins so is there, up to case. No command that the source may
not use has any of them as a name, in any case, and behind a slash each leads to a command that the
source may use. -/
theorem complete_names_law [DecidableEq Source] (settings : TreeSettings)
    (declarations : List CommandDeclaration) (caps : Capabilities Source) (now : Nat)
    (source : Source) (line : String) (htarget : (splitForCompletion line).target = 0) :
    let d : Directory Source := (empty settings).afterEach declarations
    let typed := Text.lowercase (dropSlash (splitForCompletion line).typed)
    let found := (d.registry.complete caps now source line).1
    (d.commands.map (·.names)).Sublist (declarations.map fun x => x.name :: x.aliases) ∧
      found.Sublist ((d.commands.filter (·.permits caps source)).flatMap (·.names)) ∧
      (∀ n, n ∈ found ↔ ∃ c ∈ d.commands, c.permits caps source = true ∧
        typed.toList <+: (Text.lowercase n).toList ∧
          c.names.find? (fun m => Text.lowercase m = Text.lowercase n) = some n) ∧
      (∀ c ∈ d.commands, c.permits caps source = true → ∀ n ∈ c.names,
        typed.toList <+: (Text.lowercase n).toList →
          ∃ m ∈ found, m ∈ c.names ∧ Text.lowercase m = Text.lowercase n) ∧
      (found.map Text.lowercase).Nodup ∧
      (∀ c ∈ d.commands, c.permits caps source = false →
        ∀ n ∈ c.names, ∀ m ∈ found, Text.lowercase m ≠ Text.lowercase n) ∧
      ∀ n ∈ found, ∃ c, d.get? ("/" ++ n) = some c ∧ c.permits caps source = true := by
  intro d typed found
  have hindexed : d.Indexed := (indexed_empty settings).afterEach declarations
  have hfound : found = d.registry.completeName caps source (splitForCompletion line).typed :=
    congrArg Prod.fst (Registry.complete_of_target_eq_zero htarget now)
  rw [hfound]
  refine ⟨names_afterEach_sublist _ _, ?_, ?_, ?_, ?_, ?_, ?_⟩
  · exact (Registry.unseenNames_sublist _ _).trans List.filter_sublist
  · intro n
    exact Registry.mem_completeName_iff hindexed.apart
  · intro c hc hpermits n hn hbegins
    exact Registry.exists_mem_completeName hindexed.apart hc hpermits hn hbegins
  · exact Registry.nodup_unseenNames _ _
  · intro c hc hforbidden n hn m hm
    exact hindexed.lowercase_ne_of_mem_completeName hm hc hforbidden hn
  · intro n hn
    exact hindexed.exists_get?_of_mem_completeName hn

/-- A command that goes by its own name twice, one that asks for a permission, one that is refused, and
one more. -/
def kitAndOthers : List CommandDeclaration :=
  [⟨"kit", ["Kits", "KIT"], none, none, []⟩, ⟨"ban", ["kick"], some "server.ban", none, []⟩,
    ⟨"list", ["KITS"], none, none, []⟩, ⟨"Kill", [], none, none, []⟩]

/-- Every permission but one. -/
def noBans : Capabilities Unit :=
  { Capabilities.builtin with grants := fun _ permission => permission ≠ "server.ban" }

/-- A command's own name hides its alias in capitals, and no name leads to the command that asks for the
permission. -/
theorem complete_names_law_k :
    (splitForCompletion "/K").target = 0 ∧
      ∃ d : Directory Unit, (empty .default).afterEach kitAndOthers = d ∧
        (d.registry.complete noBans 0 () "/K").1 = ["kit", "Kits", "Kill"] ∧
        (∃ c, d.get? "/Kits" = some c ∧ c.permits noBans () = true) ∧
        ∃ c, d.get? "/kick" = some c ∧ c.permits noBans () = false := by
  have htarget : (splitForCompletion "/K").target = 0 := by decide +kernel
  have hfound : (((empty .default).afterEach kitAndOthers : Directory Unit).registry.complete noBans 0
      () "/K").1 = ["kit", "Kits", "Kill"] := by decide +kernel
  obtain ⟨-, -, -, -, -, -, hget⟩ := complete_names_law .default kitAndOthers noBans 0 () "/K" htarget
  refine ⟨htarget, _, rfl, hfound, hget "Kits" ?_, ?_⟩
  · rw [hfound]
    decide
  · exact ⟨_, rfl, by decide +kernel⟩

end Directory

end CommandLanguage

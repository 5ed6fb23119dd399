import CommandLanguage.Directory
import CommandLanguage.Proofs.Reachable

/-!
# The index of names

In every directory that declarations lead to, the index tells of each name in lower case which
command goes by it, and no two commands share one (`Directory.Indexed`). A declaration that is
refused leaves the directory as it was (`Directory.eq_of_declare_error`), and one that is not adds its
command (`Directory.of_declare_ok`). So the directory finds, adds and refuses just what a registry
without an index does (`Directory.Indexed.get?_eq`, `Directory.Indexed.registry_declare`), and under
each of its names a command is found that was declared with them (`Directory.afterEach_consistent`).
-/

namespace CommandLanguage

/-! ## Names -/

@[simp] theorem dropSlash_slash_append (s : String) : dropSlash ("/" ++ s) = s := by
  simp [dropSlash]

theorem dropSlash_of_head?_ne {s : String} (h : s.toList.head? ≠ some '/') : dropSlash s = s := by
  unfold dropSlash
  split
  · rename_i cs heq
    simp [heq] at h
  · rfl

namespace Command

variable {Source : Type}

/-- Whether two commands share no name, regardless of case. -/
def Apart (c c' : Command Source) : Prop :=
  ∀ n ∈ c.names, ∀ n' ∈ c'.names, Text.lowercase n ≠ Text.lowercase n'

theorem mem_keys {c : Command Source} {key : String} :
    key ∈ c.keys ↔ ∃ n ∈ c.names, Text.lowercase n = key :=
  List.mem_map

theorem Apart.not_mem_keys {c c' : Command Source} (h : c.Apart c') {key : String}
    (hkey : key ∈ c'.keys) : key ∉ c.keys := by
  intro hmem
  rcases mem_keys.1 hkey with ⟨n', hn', rfl⟩
  rcases mem_keys.1 hmem with ⟨n, hn, hsame⟩
  exact h n hn n' hn' hsame

end Command

/-- The names of a declared command are those that it is declared with. -/
theorem CommandDeclaration.names_of_command {Source : Type} {d : CommandDeclaration}
    {settings : TreeSettings} {c : Command Source} (h : d.command settings = .ok c) :
    c.names = d.name :: d.aliases := by
  rcases bind_eq_ok_iff.1 h with ⟨g, hgrammar, hrest⟩
  rcases bind_eq_ok_iff.1 hrest with ⟨t, hseal, hc⟩
  obtain rfl : Command.ofTree t = c := Except.ok.inj hc
  have hroot := ((Grammar.Reachable.ofDeclaration hgrammar).of_seal hseal).1.root_parameter
  dsimp only at hroot
  rw [Command.names, Command.ofTree, hroot]
  rfl

/-- To declare a command is to build it and to register it. -/
theorem Registry.declare_eq {Source : Type} (r : Registry Source) (d : CommandDeclaration) :
    r.declare d = d.command r.settings >>= r.register := by
  simp only [declare, CommandDeclaration.command, bind_assoc, pure_bind]

namespace Directory

variable {Source : Type} {d d' : Directory Source} {c : Command Source}
  {declaration : CommandDeclaration}

/-! ## Registrations -/

/-- An index in which names have been made to lead to a number, one after the other. -/
def linked (number : Nat) (keys : List String) (index : NameIndex) : NameIndex :=
  keys.foldl (fun index key => (key, number) :: index) index

/-- A directory with one more command, to which each of its names leads. -/
def add (d : Directory Source) (c : Command Source) : Directory Source :=
  { d with
    commands := d.commands ++ [c]
    index := linked d.commands.length c.keys d.index }

theorem run_forM_link (number : Nat) (keys : List String) (d : Directory Source) :
    (keys.forM (link number)).run d = .ok () { d with index := linked number keys d.index } := by
  induction keys generalizing d with
  | nil => rfl
  | cons key keys ih => exact ih { d with index := (key, number) :: d.index }

theorem lookup_linked (number : Nat) (keys : List String) (index : NameIndex) (key : String) :
    (linked number keys index).lookup key =
      if key ∈ keys then some number else index.lookup key := by
  induction keys generalizing index with
  | nil => rfl
  | cons k keys ih =>
    rw [linked, List.foldl_cons, ← linked, ih, List.lookup_cons]
    by_cases hk : key = k
    · simp [hk]
    · simp [hk, beq_false_of_ne hk]

theorem run_register (c : Command Source) (d : Directory Source) :
    (register c).run d =
      match c.keys.find? fun key => (d.index.lookup key).isSome with
      | some taken => .error (.nameTaken taken) d
      | none => .ok c (d.add c) := by
  rw [register, EStateM.run_bind, EStateM.run_get]
  dsimp only
  cases c.keys.find? fun key => (d.index.lookup key).isSome with
  | some taken => rfl
  | none =>
    dsimp only
    rw [EStateM.run_bind, run_forM_link]
    rfl

theorem run_declare (declaration : CommandDeclaration) (d : Directory Source) :
    (declare declaration).run d =
      match declaration.command d.settings with
      | .error e => .error e d
      | .ok c => (register c).run d := by
  rw [declare, EStateM.run_bind, EStateM.run_get]
  dsimp only
  cases (declaration.command d.settings : Except GrammarError (Command Source)) <;> rfl

/-- What becomes of a declaration: its command is added if it can be built and none of its names is
taken, else it is refused and nothing changes. -/
theorem declare_cases (declaration : CommandDeclaration) (d : Directory Source) :
    (∃ c, (declare declaration).run d = .ok c (d.add c) ∧
        declaration.command d.settings = .ok c ∧ ∀ key ∈ c.keys, d.index.lookup key = none) ∨
      ∃ e, (declare declaration).run d = .error e d := by
  rw [run_declare]
  cases (declaration.command d.settings : Except GrammarError (Command Source)) with
  | error e => exact .inr ⟨e, rfl⟩
  | ok c =>
    dsimp only
    rw [run_register]
    cases hfind : c.keys.find? fun key => (d.index.lookup key).isSome with
    | some taken => exact .inr ⟨_, rfl⟩
    | none =>
      refine .inl ⟨c, rfl, rfl, fun key hkey => ?_⟩
      exact Option.not_isSome_iff_eq_none.1 (List.find?_eq_none.1 hfind key hkey)

/-- A declaration that is refused, for whatever reason, leaves the directory as it was. -/
theorem eq_of_declare_error {e : GrammarError}
    (h : (declare declaration).run d = .error e d') : d' = d := by
  rcases declare_cases declaration d with ⟨c, hrun, -⟩ | ⟨e', hrun⟩
  · rw [hrun] at h
    cases h
  · rw [hrun] at h
    cases h
    rfl

/-- A declaration that is not refused adds its command, whose names were free. -/
theorem of_declare_ok (h : (declare declaration).run d = .ok c d') :
    d' = d.add c ∧ declaration.command d.settings = .ok c ∧
      ∀ key ∈ c.keys, d.index.lookup key = none := by
  rcases declare_cases declaration d with ⟨c', hrun, hcommand, hfree⟩ | ⟨e, hrun⟩
  · rw [hrun] at h
    cases h
    exact ⟨rfl, hcommand, hfree⟩
  · rw [hrun] at h
    cases h

/-! ## The invariant -/

/-- Whether the index tells of each name which command goes by it, and commands share no name. -/
structure Indexed (d : Directory Source) : Prop where
  lookup : ∀ key, d.index.lookup key = d.commands.findIdx? (·.keys.contains key)
  apart : d.commands.Pairwise Command.Apart

theorem indexed_empty (settings : TreeSettings) : (empty settings : Directory Source).Indexed where
  lookup := fun _ => rfl
  apart := .nil

/-- Adding a command whose names are free keeps the index right. -/
theorem Indexed.add (h : d.Indexed) (hfree : ∀ key ∈ c.keys, d.index.lookup key = none) :
    (d.add c).Indexed where
  lookup := by
    intro key
    have hlookup := h.lookup key
    rw [Directory.add, lookup_linked, List.findIdx?_append, ← hlookup]
    by_cases hkey : key ∈ c.keys
    · simp [hkey, hfree key hkey]
    · simp [hkey]
  apart := by
    refine List.pairwise_append.2 ⟨h.apart, List.pairwise_singleton _ _, ?_⟩
    intro c' hc' c₂ hc₂ n hn n₂ hn₂ hsame
    obtain rfl : c₂ = c := by simpa using hc₂
    -- The index would know of a name that `c'` has.
    have hkey : Text.lowercase n₂ ∈ c'.keys := Command.mem_keys.2 ⟨n, hn, hsame⟩
    have hnone := h.lookup (Text.lowercase n₂)
    rw [hfree _ (Command.mem_keys.2 ⟨n₂, hn₂, rfl⟩)] at hnone
    simpa [hkey] using List.findIdx?_eq_none_iff.1 hnone.symm c' hc'

theorem Indexed.afterOne (h : d.Indexed) (declaration : CommandDeclaration) :
    (d.afterOne declaration).Indexed := by
  unfold Directory.afterOne
  rcases declare_cases declaration d with ⟨c, hrun, -, hfree⟩ | ⟨e, hrun⟩
  · rw [hrun]
    exact h.add hfree
  · rw [hrun]
    exact h

theorem Indexed.afterEach (h : d.Indexed) (declarations : List CommandDeclaration) :
    (d.afterEach declarations).Indexed := by
  induction declarations generalizing d with
  | nil => exact h
  | cons declaration declarations ih => exact ih (h.afterOne declaration)

/-! ## Lookups -/

/-- The index finds what looking through the commands finds. -/
theorem Indexed.get?_eq (h : d.Indexed) (name : String) : d.get? name = d.registry.get? name := by
  unfold Directory.get? Registry.get? Registry.byKey?
  rw [h.lookup, List.find?_eq_bind_findIdx?_getElem?]
  rfl

/-- A command is found by each of its names. -/
theorem Indexed.get?_eq_some (h : d.Indexed) {c : Command Source} (hc : c ∈ d.commands)
    {name : String} (hname : Text.lowercase (dropSlash name) ∈ c.keys) : d.get? name = some c := by
  rw [h.get?_eq]
  obtain ⟨before, after, hcommands⟩ := List.append_of_mem hc
  refine List.find?_eq_some_iff_append.2 ⟨by simpa using hname, before, after, hcommands, ?_⟩
  intro c' hc'
  have hapart := h.apart
  rw [hcommands] at hapart
  have hbefore := (List.pairwise_append.1 hapart).2.2 c' hc' c List.mem_cons_self
  simpa using hbefore.not_mem_keys hname

theorem Indexed.mem_of_get? (h : d.Indexed) {name : String} (hget : d.get? name = some c) :
    c ∈ d.commands := by
  rw [h.get?_eq] at hget
  exact List.mem_of_find?_eq_some hget

/-- A directory adds and refuses the commands that a registry does, with the same errors. -/
theorem Indexed.registry_declare (h : d.Indexed) (declaration : CommandDeclaration) :
    d.registry.declare declaration =
      match (declare declaration).run d with
      | .ok _ after => .ok after.registry
      | .error e _ => .error e := by
  have htaken : (fun key => (d.registry.byKey? key).isSome) =
      fun key => (d.index.lookup key).isSome := by
    funext key
    rw [h.lookup, List.findIdx?_isSome, Registry.byKey?, Bool.eq_iff_iff, List.find?_isSome,
      List.any_eq_true]
    rfl
  have hregister : ∀ c : Command Source, d.registry.register c =
      match (register c).run d with
      | .ok _ after => .ok after.registry
      | .error e _ => .error e := by
    intro c
    rw [run_register, Registry.register, htaken]
    cases c.keys.find? fun key => (d.index.lookup key).isSome <;> rfl
  rw [Registry.declare_eq, run_declare, show d.registry.settings = d.settings from rfl]
  cases (declaration.command d.settings : Except GrammarError (Command Source)) with
  | error e => rfl
  | ok c => exact hregister c

/-- A directory comes to the commands of a registry that accepts all declarations. -/
theorem Indexed.registry_declareAll (h : d.Indexed) {declarations : List CommandDeclaration}
    {r : Registry Source} (hall : d.registry.declareAll declarations = .ok r) :
    (d.afterEach declarations).registry = r := by
  induction declarations generalizing d with
  | nil => exact Except.ok.inj hall
  | cons declaration declarations ih =>
    rw [Registry.declareAll, List.foldlM_cons, h.registry_declare] at hall
    have hafter := h.afterOne declaration
    rw [Directory.afterEach, List.foldl_cons]
    unfold Directory.afterOne at hafter ⊢
    cases hrun : (declare declaration).run d with
    | error e d' =>
      rw [hrun] at hall
      cases hall
    | ok c d' =>
      rw [hrun] at hall hafter
      exact ih hafter hall

/-! ## Whole runs -/

/-- What is registered after declarations was registered before them or is declared by one of them. -/
theorem mem_commands_afterEach_iff {declarations : List CommandDeclaration} :
    c ∈ (d.afterEach declarations).commands ↔
      c ∈ d.commands ∨ ∃ before declaration after, declarations = before ++ declaration :: after ∧
        ∃ d', (declare declaration).run (d.afterEach before) = .ok c d' := by
  induction declarations generalizing d with
  | nil => simp [Directory.afterEach]
  | cons first declarations ih =>
    have hfirst : c ∈ (d.afterOne first).commands ↔
        c ∈ d.commands ∨ ∃ d', (declare first).run d = .ok c d' := by
      unfold Directory.afterOne
      rcases declare_cases first d with ⟨c', hrun, -⟩ | ⟨e, hrun⟩
      · simp [hrun, Directory.add, eq_comm]
      · simp [hrun]
    rw [Directory.afterEach, List.foldl_cons, ← Directory.afterEach, ih, hfirst, or_assoc]
    refine or_congr_right ⟨?_, ?_⟩
    · rintro (hfirst | ⟨before, declaration, after, rfl, hrun⟩)
      · exact ⟨[], first, declarations, rfl, hfirst⟩
      · exact ⟨first :: before, declaration, after, rfl, hrun⟩
    · rintro ⟨before, declaration, after, heq, hrun⟩
      rcases List.cons_eq_append_iff.1 heq with ⟨rfl, hcons⟩ | ⟨before, rfl, rfl⟩
      · cases hcons
        exact .inl hrun
      · exact .inr ⟨before, declaration, after, rfl, hrun⟩

/-- **Commands and their names.** After any declarations, each of which was registered or refused,
a command that is registered is found by each of its names, with a leading slash and also without if
the name has none of its own; no two commands share a name, regardless of case; a command that is
found is one that was declared, under the names of its declaration; and a further declaration that is
refused changes neither how many commands there are, nor which, nor what is found. -/
theorem afterEach_consistent (settings : TreeSettings) (declarations : List CommandDeclaration) :
    let d : Directory Source := (empty settings).afterEach declarations
    (∀ c ∈ d.commands, ∀ n ∈ c.names,
        d.get? ("/" ++ n) = some c ∧ (n.toList.head? ≠ some '/' → d.get? n = some c)) ∧
      d.commands.Pairwise (fun c c' =>
        ∀ n ∈ c.names, ∀ n' ∈ c'.names, Text.lowercase n ≠ Text.lowercase n') ∧
      (∀ name c, d.get? name = some c →
        ∃ before declaration after, declarations = before ++ declaration :: after ∧
          c.names = declaration.name :: declaration.aliases ∧
          ∃ d', (declare declaration).run ((empty settings).afterEach before) = .ok c d') ∧
      ∀ declaration e d', (declare declaration).run d = .error e d' →
        d'.commands.length = d.commands.length ∧ d'.commands = d.commands ∧
          ∀ name, d'.get? name = d.get? name := by
  intro d
  have hindexed : d.Indexed := (indexed_empty settings).afterEach declarations
  refine ⟨?_, hindexed.apart, ?_, ?_⟩
  · intro c hc n hn
    have hkey : Text.lowercase n ∈ c.keys := Command.mem_keys.2 ⟨n, hn, rfl⟩
    constructor
    · exact hindexed.get?_eq_some hc (by rwa [dropSlash_slash_append])
    · intro hhead
      exact hindexed.get?_eq_some hc (by rwa [dropSlash_of_head?_ne hhead])
  · intro name c hget
    rcases mem_commands_afterEach_iff.1 (hindexed.mem_of_get? hget) with hc | hc
    · cases hc
    · obtain ⟨before, declaration, after, rfl, d', hrun⟩ := hc
      exact ⟨before, declaration, after, rfl,
        CommandDeclaration.names_of_command (of_declare_ok hrun).2.1, d', hrun⟩
  · intro declaration e d' hrun
    obtain rfl := eq_of_declare_error hrun
    exact ⟨rfl, rfl, fun _ => rfl⟩

/-- A command with an alias. -/
def kit : CommandDeclaration := ⟨"kit", ["Kits"], none, none, []⟩

/-- No other command can have the alias in capitals. -/
theorem afterEach_consistent_kit :
    ∃ (d d' : Directory Unit) (c : Command Unit),
      (empty .default).afterEach [kit] = d ∧ d.commands = [c] ∧ c.names = ["kit", "Kits"] ∧
        d.get? "/Kits" = some c ∧ d.get? "Kits" = some c ∧
        (declare ⟨"list", ["KITS"], none, none, []⟩).run d = .error (.nameTaken "kits") d' ∧
        d'.commands.length = 1 ∧ d'.get? "list" = none := by
  obtain ⟨c, d', hcommands, hnames, hrun⟩ : ∃ (c : Command Unit) (d' : Directory Unit),
      ((empty .default).afterEach [kit]).commands = [c] ∧ c.names = ["kit", "Kits"] ∧
        (declare ⟨"list", ["KITS"], none, none, []⟩).run ((empty .default).afterEach [kit]) =
          .error (.nameTaken "kits") d' := ⟨_, _, rfl, rfl, rfl⟩
  obtain ⟨hfound, -, -, hrefused⟩ := afterEach_consistent .default [kit]
  obtain ⟨hslash, hplain⟩ := hfound c (by simp [hcommands]) "Kits" (by simp [hnames])
  obtain ⟨hlength, -, hget⟩ := hrefused _ _ _ hrun
  refine ⟨_, d', c, rfl, hcommands, hnames, hslash, hplain (by decide), hrun, ?_, ?_⟩
  · rw [hlength, hcommands]
    rfl
  · rw [hget]
    rfl

end Directory

end CommandLanguage

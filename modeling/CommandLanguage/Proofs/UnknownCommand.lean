import CommandLanguage.Proofs.NameIndex

/-!
# Unknown commands

A line is read twice. The first word that a splitter finds in it is looked up, and if no command goes
by it, the first word between white space is reported to be unknown. Where the two words differ, or
where a name loses a second slash when it is looked up again, the name that is reported can be that of
a registered command.

* Whatever the splitter, the same key is looked up for both words exactly if no registry reports a
  registered command for the line.
* With the words of a shell, a line that begins with a plain word, which neither reading takes apart,
  is reported rightly exactly if the word does not begin with two slashes, and a blank or the end of the
  line comes next or the shell cannot read the line. Before other white space, such as a carriage
  return, it is not.

`Registry.truthful_iff` says all of this.
-/

namespace CommandLanguage

/-! ## Keys -/

/-- What a name is looked up as. -/
def lookupKey (name : String) : String :=
  Text.lowercase (dropSlash name)

theorem exists_toList_eq_cons {s : String} (h : s ≠ "") : ∃ c cs, s.toList = c :: cs := by
  apply List.exists_cons_of_ne_nil
  simpa using h

theorem dropSlash_append {s : String} (t : String) (h : s ≠ "") :
    dropSlash (s ++ t) = dropSlash s ++ t := by
  obtain ⟨c, cs, hs⟩ := exists_toList_eq_cons h
  by_cases hc : c = '/'
  · obtain rfl : s = "/" ++ String.ofList cs := by
      apply String.toList_injective
      simp [hs, hc]
    rw [String.append_assoc, dropSlash_slash_append, dropSlash_slash_append]
  · rw [dropSlash_of_head?_ne (by simp [hs, hc]), dropSlash_of_head?_ne (by simp [hs, hc])]

/-- A name is its own without a slash, or the slash stands in front of it. -/
theorem dropSlash_cases (s : String) : dropSlash s = s ∨ s = "/" ++ dropSlash s := by
  by_cases h : s.toList.head? = some '/'
  · obtain ⟨cs, hs⟩ := List.head?_eq_some_iff.1 h
    obtain rfl : s = "/" ++ String.ofList cs := by
      apply String.toList_injective
      simp [hs]
    exact .inr (by rw [dropSlash_slash_append])
  · exact .inl (dropSlash_of_head?_ne h)

namespace Text

theorem length_lowerChar_pos (c : Char) : 0 < (lowerChar c).length := by
  unfold lowerChar
  split
  · exact Nat.one_pos
  · split
    · exact Nat.two_pos
    · split <;> exact Nat.one_pos

/-- How long a text is in lower case does not depend on what comes before or after its characters. -/
theorem length_lowercaseFrom (before cs : List Char) :
    (lowercaseFrom before cs).length = (cs.flatMap lowerChar).length := by
  induction cs generalizing before with
  | nil => rfl
  | cons c cs ih =>
    rw [lowercaseFrom, List.length_append, ih, List.flatMap_cons, List.length_append]
    by_cases hc : c = 'Σ'
    · subst hc
      rfl
    · rw [if_neg hc]

theorem length_lowercase (s : String) :
    (lowercase s).length = (s.toList.flatMap lowerChar).length := by
  rw [lowercase, String.length_ofList, length_lowercaseFrom]

theorem length_lowercase_append (s t : String) :
    (lowercase (s ++ t)).length = (lowercase s).length + (lowercase t).length := by
  simp only [length_lowercase, String.toList_append, List.flatMap_append, List.length_append]

theorem length_lowercase_pos {s : String} (h : s ≠ "") : 0 < (lowercase s).length := by
  obtain ⟨c, cs, hs⟩ := exists_toList_eq_cons h
  have hc := length_lowerChar_pos c
  rw [length_lowercase, hs, List.flatMap_cons, List.length_append]
  omega

end Text

/-- A name with more behind it is never looked up as the name alone, with or without its slash. -/
theorem lookupKey_append_ne {s t : String} (hs : s ≠ "") (ht : t ≠ "") :
    lookupKey (dropSlash s) ≠ lookupKey (s ++ t) := by
  intro heq
  -- What stands behind `s` makes one key longer, and a slash that is dropped makes the other no longer.
  have hlength := congrArg String.length heq
  have ht := Text.length_lowercase_pos ht
  rw [lookupKey, lookupKey, dropSlash_append t hs, Text.length_lowercase_append] at hlength
  rcases dropSlash_cases (dropSlash s) with h | h
  · rw [h] at hlength
    omega
  · have hsum := congrArg (fun s => (Text.lowercase s).length) h
    rw [Text.length_lowercase_append] at hsum
    omega

/-- Without its slash a name is looked up as with it, unless another slash comes to light. -/
theorem lookupKey_dropSlash_iff (s : String) :
    lookupKey (dropSlash s) = lookupKey s ↔ ¬ ∃ t, s = "//" ++ t := by
  constructor
  · rintro heq ⟨t, rfl⟩
    have hslashes : "//" ++ t = "/" ++ ("/" ++ t) := by rw [← String.append_assoc]; rfl
    rw [lookupKey, lookupKey, hslashes, dropSlash_slash_append, dropSlash_slash_append] at heq
    have hlength := congrArg String.length heq
    rw [Text.length_lowercase_append] at hlength
    have hslash := Text.length_lowercase_pos (s := "/") (by decide)
    omega
  · intro hslashes
    rcases dropSlash_cases (dropSlash s) with h | h
    · rw [lookupKey, h, lookupKey]
    · rcases dropSlash_cases s with hs | hs
      · rw [hs]
      · refine absurd ⟨dropSlash (dropSlash s), ?_⟩ hslashes
        calc s = "/" ++ dropSlash s := hs
          _ = "/" ++ ("/" ++ dropSlash (dropSlash s)) := by rw [← h]
          _ = "//" ++ dropSlash (dropSlash s) := by rw [← String.append_assoc]; rfl

/-! ## First words -/

namespace Text

/-- Whether a reading of lines keeps a character as it is: it is no white space, and a shell neither
quotes nor escapes with it. -/
def isPlain (c : Char) : Bool :=
  !isWhiteSpace c && c != '"' && c != '\'' && c != '\\'

/-- Whether a word is kept as it is: its characters are, and it opens no comment. -/
structure PlainWord (w : List Char) : Prop where
  ne_nil : w ≠ []
  plain : ∀ c ∈ w, isPlain c = true
  noComment : w.head? ≠ some '#'

theorem isWhiteSpace_of_isShellBlank {c : Char} (h : isShellBlank c = true) :
    isWhiteSpace c = true := by
  obtain (rfl | rfl) | rfl : (c = ' ' ∨ c = '\t') ∨ c = '\n' := by simpa [isShellBlank] using h
  · decide
  · decide
  · decide

variable {c : Char} {w blanks rest : List Char}

theorem isWhiteSpace_of_isPlain (h : isPlain c = true) : isWhiteSpace c = false := by
  simp only [isPlain, Bool.and_eq_true, Bool.not_eq_true'] at h
  exact h.1.1.1

theorem isShellBlank_of_isPlain (h : isPlain c = true) : isShellBlank c = false := by
  have hwhite := isWhiteSpace_of_isPlain h
  cases hblank : isShellBlank c with
  | false => rfl
  | true =>
    rw [isWhiteSpace_of_isShellBlank hblank] at hwhite
    cases hwhite

/-! ### Between white space -/

/-- White space in front of a line adds no word. -/
theorem wordsFrom_white_append (h : ∀ c ∈ blanks, isWhiteSpace c = true) (cs : List Char) :
    wordsFrom [] (blanks ++ cs) = wordsFrom [] cs := by
  induction blanks with
  | nil => rfl
  | cons c blanks ih =>
    rcases List.forall_mem_cons.1 h with ⟨hc, hblanks⟩
    rw [List.cons_append, wordsFrom, if_pos hc]
    exact ih hblanks

theorem wordsFrom_plain_append (h : ∀ c ∈ w, isPlain c = true) (word cs : List Char) :
    wordsFrom word (w ++ cs) = wordsFrom (w.reverse ++ word) cs := by
  induction w generalizing word with
  | nil => rfl
  | cons c w ih =>
    rcases List.forall_mem_cons.1 h with ⟨hc, hw⟩
    rw [List.cons_append, wordsFrom, isWhiteSpace_of_isPlain hc, if_neg Bool.false_ne_true, ih hw]
    simp

/-- A plain word after white space, before the end or more of it, is the first word. -/
theorem head?_wordsFrom (hblanks : ∀ c ∈ blanks, isWhiteSpace c = true) (hw : PlainWord w)
    (hrest : ∀ c ∈ rest.head?, isWhiteSpace c = true) :
    (wordsFrom [] (blanks ++ w ++ rest)).head? = some w := by
  have hne : (w.reverse ++ []).isEmpty = false := by simp [hw.ne_nil]
  rw [List.append_assoc, wordsFrom_white_append hblanks, wordsFrom_plain_append hw.plain]
  cases rest with
  | nil => simp [wordsFrom, hw.ne_nil]
  | cons c rest => simp [wordsFrom, hrest c rfl, hw.ne_nil]

/-! ### In a shell -/

theorem enter_of_isPlain (h : isPlain c = true) (word : List Char) :
    ShellState.enter c word = (.plain, c :: word) := by
  simp only [isPlain, Bool.and_eq_true, bne_iff_ne] at h
  simp [ShellState.enter, h.1.1.2, h.1.2, h.2]

theorem enter_of_isWhiteSpace (h : isWhiteSpace c = true) (word : List Char) :
    ShellState.enter c word = (.plain, c :: word) := by
  have hne : ∀ mark, isWhiteSpace mark = false → c ≠ mark := by
    rintro mark hmark rfl
    rw [h] at hmark
    cases hmark
  rw [ShellState.enter, if_neg (hne '"' (by decide)), if_neg (hne '\'' (by decide)),
    if_neg (hne '\\' (by decide))]

theorem shellWordsFrom_blanks_append (h : ∀ c ∈ blanks, isShellBlank c = true)
    (word cs : List Char) :
    shellWordsFrom .between word (blanks ++ cs) = shellWordsFrom .between word cs := by
  induction blanks with
  | nil => rfl
  | cons c blanks ih =>
    rcases List.forall_mem_cons.1 h with ⟨hc, hblanks⟩
    rw [List.cons_append, shellWordsFrom, if_pos hc]
    exact ih hblanks

theorem shellWordsFrom_plain_append (h : ∀ c ∈ w, isPlain c = true) (word cs : List Char) :
    shellWordsFrom .plain word (w ++ cs) = shellWordsFrom .plain (w.reverse ++ word) cs := by
  induction w generalizing word with
  | nil => rfl
  | cons c w ih =>
    rcases List.forall_mem_cons.1 h with ⟨hc, hw⟩
    rw [List.cons_append, shellWordsFrom, isShellBlank_of_isPlain hc, if_neg Bool.false_ne_true,
      enter_of_isPlain hc]
    simp [ih hw]

theorem shellWordsFrom_between (hblanks : ∀ c ∈ blanks, isShellBlank c = true) (hw : PlainWord w)
    (word : List Char) :
    shellWordsFrom .between word (blanks ++ w ++ rest) = shellWordsFrom .plain w.reverse rest := by
  rw [List.append_assoc, shellWordsFrom_blanks_append hblanks]
  rcases hw with ⟨hne, hplain, hcomment⟩
  cases w with
  | nil => exact absurd rfl hne
  | cons c w =>
    rcases List.forall_mem_cons.1 hplain with ⟨hc, hw⟩
    have hmark : c ≠ '#' := by simpa using hcomment
    rw [List.cons_append, shellWordsFrom, isShellBlank_of_isPlain hc, if_neg Bool.false_ne_true,
      if_neg hmark, enter_of_isPlain hc]
    simp [shellWordsFrom_plain_append hw]

/-- Whether a word has been begun. -/
def ShellState.inWord : ShellState → Bool
  | .between | .comment => false
  | .plain | .escaped | .single | .double | .doubleEscaped => true

theorem enter_cases (c : Char) (word : List Char) :
    ∃ next extra, ShellState.enter c word = (next, extra ++ word) ∧ next.inWord = true := by
  unfold ShellState.enter
  split
  · exact ⟨.double, [], rfl, rfl⟩
  · split
    · exact ⟨.single, [], rfl, rfl⟩
    · split
      · exact ⟨.escaped, [], rfl, rfl⟩
      · exact ⟨.plain, [c], rfl, rfl⟩

/-- A character ends the word that has been begun, or leads on inside it. -/
theorem shellWordsFrom_cons_cases {state : ShellState} (h : state.inWord = true)
    (word : List Char) (c : Char) (cs : List Char) :
    shellWordsFrom state word (c :: cs) = (shellWordsFrom .between [] cs).map (word.reverse :: ·) ∨
      ∃ next extra, next.inWord = true ∧
        shellWordsFrom state word (c :: cs) = shellWordsFrom next (extra ++ word) cs := by
  cases state with
  | between => cases h
  | comment => cases h
  | plain =>
    rw [shellWordsFrom]
    split
    · exact .inl rfl
    · obtain ⟨next, extra, henter, hnext⟩ := enter_cases c word
      rw [henter]
      exact .inr ⟨next, extra, hnext, rfl⟩
  | escaped =>
    rw [shellWordsFrom]
    split
    · exact .inr ⟨.plain, [], rfl, rfl⟩
    · exact .inr ⟨.plain, [c], rfl, rfl⟩
  | single =>
    rw [shellWordsFrom]
    split
    · exact .inr ⟨.plain, [], rfl, rfl⟩
    · exact .inr ⟨.single, [c], rfl, rfl⟩
  | double =>
    rw [shellWordsFrom]
    split
    · exact .inr ⟨.plain, [], rfl, rfl⟩
    · split
      · exact .inr ⟨.doubleEscaped, [], rfl, rfl⟩
      · exact .inr ⟨.double, [c], rfl, rfl⟩
  | doubleEscaped =>
    rw [shellWordsFrom]
    split
    · exact .inr ⟨.double, [], rfl, rfl⟩
    · split
      · exact .inr ⟨.double, [c], rfl, rfl⟩
      · exact .inr ⟨.double, [c, '\\'], rfl, rfl⟩

/-- A word that has been begun is the first one, with what comes to it. -/
theorem exists_of_shellWordsFrom {state : ShellState} {word cs : List Char}
    {words : List (List Char)} (hstate : state.inWord = true)
    (h : shellWordsFrom state word cs = some words) :
    ∃ more others, words = (word.reverse ++ more) :: others := by
  induction cs generalizing state word with
  | nil =>
    cases state with
    | between => cases hstate
    | comment => cases hstate
    | plain =>
      cases h
      exact ⟨[], [], by simp⟩
    | escaped => cases h
    | single => cases h
    | double => cases h
    | doubleEscaped => cases h
  | cons c cs ih =>
    rcases shellWordsFrom_cons_cases hstate word c cs with hend | ⟨next, extra, hnext, hon⟩
    · rw [hend] at h
      rcases Option.map_eq_some_iff.1 h with ⟨others, -, rfl⟩
      exact ⟨[], others, by simp⟩
    · rw [hon] at h
      rcases ih hnext h with ⟨more, others, rfl⟩
      exact ⟨extra.reverse ++ more, others, by simp⟩

end Text

/-! ## Lines -/

/-- Whether a line begins, after blanks, with a plain word, and goes on, if it does, with white space. -/
def Opens (line w rest : String) : Prop :=
  ∃ blanks, line = blanks ++ w ++ rest ∧ (∀ c ∈ blanks.toList, Text.isShellBlank c = true) ∧
    Text.PlainWord w.toList ∧ ∀ c ∈ rest.toList.head?, Text.isWhiteSpace c = true

/-- Whether the name that a line is reported by is looked up as the first word of a splitter is. -/
def KeepsKey (split : String → Option (List String)) (line : String) : Prop :=
  ∀ first ∈ (tokenizeWith split line).head?, lookupKey (commandName line) = lookupKey first

variable {line w rest : String}

theorem head?_words_of_opens (h : Opens line w rest) : (Text.words line).head? = some w := by
  rcases h with ⟨blanks, rfl, hblanks, hw, hrest⟩
  have hwhite : ∀ c ∈ blanks.toList, Text.isWhiteSpace c = true :=
    fun c hc => Text.isWhiteSpace_of_isShellBlank (hblanks c hc)
  rw [Text.words, List.head?_map, String.toList_append, String.toList_append,
    Text.head?_wordsFrom hwhite hw hrest]
  simp

theorem commandName_of_opens (h : Opens line w rest) : commandName line = dropSlash w := by
  rw [commandName, List.headD_eq_head?_getD, head?_words_of_opens h, Option.getD_some]

theorem shellWords_of_opens (h : Opens line w rest) :
    Text.shellWords line =
      (Text.shellWordsFrom .plain w.toList.reverse rest.toList).map (·.map String.ofList) := by
  rcases h with ⟨blanks, rfl, hblanks, hw, -⟩
  rw [Text.shellWords, String.toList_append, String.toList_append,
    Text.shellWordsFrom_between hblanks hw]

/-- Both readings of a line find its plain word, if a blank or the end of the line comes next or there
is only one reading. -/
theorem head?_tokenize_of_opens (h : Opens line w rest)
    (hnext : rest.toList.head?.all Text.isShellBlank = true ∨ Text.shellWords line = none) :
    (tokenize line).head? = some w := by
  rw [tokenize, tokenizeWith]
  cases hshell : Text.shellWords line with
  | none => exact head?_words_of_opens h
  | some ws =>
    rw [hshell] at hnext
    have hblank : rest.toList.head?.all Text.isShellBlank = true := by simpa using hnext
    rw [shellWords_of_opens h] at hshell
    cases hrest : rest.toList with
    | nil =>
      rw [hrest, Text.shellWordsFrom] at hshell
      cases hshell
      simp
    | cons c cs =>
      -- The shell ends the word at `c`.
      have hc : Text.isShellBlank c = true := by simpa [hrest] using hblank
      rw [hrest, Text.shellWordsFrom, if_pos hc] at hshell
      rcases Option.map_eq_some_iff.1 hshell with ⟨ws', hws', rfl⟩
      rcases Option.map_eq_some_iff.1 hws' with ⟨others, -, rfl⟩
      simp

/-- Other white space becomes part of the first shell word. -/
theorem exists_head?_tokenize_of_opens (h : Opens line w rest) {ws : List String}
    (hnext : rest.toList.head?.all Text.isShellBlank = false)
    (hshell : Text.shellWords line = some ws) :
    ∃ more, more ≠ "" ∧ (tokenize line).head? = some (w ++ more) := by
  rw [tokenize, tokenizeWith, hshell]
  rw [shellWords_of_opens h] at hshell
  rcases h with ⟨-, -, -, hw, hwhite⟩
  cases hrest : rest.toList with
  | nil => simp [hrest] at hnext
  | cons c cs =>
    -- To the shell `c` is a character of the word like any other.
    have hc : Text.isShellBlank c = false := by simpa [hrest] using hnext
    rw [hrest, Text.shellWordsFrom, hc, if_neg Bool.false_ne_true,
      Text.enter_of_isWhiteSpace (hwhite c (by simp [hrest]))] at hshell
    rcases Option.map_eq_some_iff.1 hshell with ⟨words, hwords, rfl⟩
    rcases Text.exists_of_shellWordsFrom rfl hwords with ⟨more, others, rfl⟩
    refine ⟨String.ofList (c :: more), by simp, ?_⟩
    simp

/-- When a line that begins with a plain word keeps its key. -/
theorem keepsKey_iff_of_opens (h : Opens line w rest) :
    KeepsKey Text.shellWords line ↔ (¬ ∃ t, w = "//" ++ t) ∧
      (rest.toList.head?.all Text.isShellBlank = true ∨ Text.shellWords line = none) := by
  rw [KeepsKey, ← tokenize, commandName_of_opens h]
  by_cases hnext : rest.toList.head?.all Text.isShellBlank = true ∨ Text.shellWords line = none
  · rw [head?_tokenize_of_opens h hnext]
    simp [hnext, lookupKey_dropSlash_iff]
  · -- The shell's word goes on behind the one that is reported.
    simp only [not_or, Bool.not_eq_true] at hnext
    obtain ⟨ws, hws⟩ := Option.ne_none_iff_exists'.1 hnext.2
    rcases exists_head?_tokenize_of_opens h hnext.1 hws with ⟨more, hmore, hfirst⟩
    have hw : w ≠ "" := by
      rcases h with ⟨-, -, -, hw, -⟩
      simpa using hw.ne_nil
    rw [hfirst]
    simp [hnext, lookupKey_append_ne hw hmore]

/-! ## Registries -/

namespace Registry

variable {Source : Type} {split : String → Option (List String)} {r : Registry Source}
  {caps : Capabilities Source} {source : Source} {name : String}

theorem get?_eq_byKey? (r : Registry Source) (name : String) :
    r.get? name = r.byKey? (lookupKey name) := rfl

/-- What it takes for a command to be reported unknown. -/
theorem dispatchWith_eq_unknownCommand_iff :
    r.dispatchWith split caps source line = .unknownCommand name ↔
      ∃ first ∈ (tokenizeWith split line).head?, r.get? first = none ∧ name = commandName line := by
  unfold dispatchWith
  cases tokenizeWith split line with
  | nil => simp
  | cons first tokens =>
    cases hget : r.get? first with
    | none => simp [hget, eq_comm]
    | some command => simp [hget]

/-- Whether a name that is reported unknown for a line is that of no command. -/
def Truthful (split : String → Option (List String)) (r : Registry Source)
    (caps : Capabilities Source) (source : Source) (line : String) : Prop :=
  ∀ name, r.dispatchWith split caps source line = .unknownCommand name → r.get? name = none

theorem truthful_of_keepsKey (h : KeepsKey split line) : r.Truthful split caps source line := by
  intro name hname
  rcases dispatchWith_eq_unknownCommand_iff.1 hname with ⟨first, hfirst, hnone, rfl⟩
  rwa [get?_eq_byKey?, h first hfirst]

/-- A command without usages can be declared under any name. -/
theorem exists_declare (settings : TreeSettings) (name : String) :
    ∃ (r : Registry Source) (c : Command Source),
      (empty settings).declare ⟨name, [], none, none, []⟩ = .ok r ∧
        ∀ other, r.get? other = if lookupKey other = Text.lowercase name then some c else none := by
  obtain ⟨c, hc⟩ : ∃ c : Command Source,
      CommandDeclaration.command ⟨name, [], none, none, []⟩ settings = .ok c := ⟨_, rfl⟩
  have hkeys : c.keys = [Text.lowercase name] := by
    rw [Command.keys, CommandDeclaration.names_of_command hc]
    rfl
  have hfree : (c.keys.find? fun key => ((empty settings : Registry Source).byKey? key).isSome) =
      none := by
    rw [List.find?_eq_none]
    intro key _
    exact Bool.false_ne_true
  have hregister : (empty settings).register c = .ok ⟨[c], settings⟩ := by
    rw [register, hfree]
    rfl
  refine ⟨⟨[c], settings⟩, c, ?_, fun other => ?_⟩
  · rw [declare_eq, show (empty settings : Registry Source).settings = settings from rfl, hc]
    exact hregister
  · simp [get?_eq_byKey?, byKey?, hkeys]

/-- Where the keys differ, there is a registry with a command by the one and none by the other. -/
theorem exists_not_truthful (caps : Capabilities Source) (source : Source) (settings : TreeSettings)
    (h : ¬ KeepsKey split line) :
    ∃ (d : CommandDeclaration) (r : Registry Source), (empty settings).declare d = .ok r ∧
      ¬ r.Truthful split caps source line := by
  simp only [KeepsKey, Classical.not_forall] at h
  rcases h with ⟨first, hfirst, hne⟩
  rcases @exists_declare Source settings (dropSlash (commandName line)) with
    ⟨r, c, hdeclare, hfound⟩
  have hnone : r.get? first = none := by
    rw [hfound]
    exact if_neg (Ne.symm hne)
  have hsome : r.get? (commandName line) = some c := by
    rw [hfound]
    exact if_pos rfl
  refine ⟨_, r, hdeclare, fun htruthful => ?_⟩
  have hfree := htruthful _ (dispatchWith_eq_unknownCommand_iff.2 ⟨first, hfirst, hnone, rfl⟩)
  rw [hsome] at hfree
  cases hfree

/-- No registry reports a registered command for a line exactly if the line keeps its key. -/
theorem forall_truthful_iff (caps : Capabilities Source) (source : Source) :
    (∀ r : Registry Source, r.Truthful split caps source line) ↔ KeepsKey split line := by
  constructor
  · intro htruthful
    refine Classical.byContradiction fun hkey => ?_
    rcases exists_not_truthful caps source .default hkey with ⟨-, r, -, hr⟩
    exact hr (htruthful r)
  · intro hkey r
    exact truthful_of_keepsKey hkey

/-- **Unknown commands.** Whatever divides a line into words, the first word of a line that is reported
unknown is that of no command. The name that it is reported by is that of no command in any registry
exactly if it is looked up as the first word is; else a single declaration makes a registry where it is
that of one. With the words of a shell, a line that begins with a plain word is reported rightly exactly
if the word does not begin with two slashes, and a blank or the end of the line comes next or the shell
cannot read the line. -/
theorem truthful_iff (caps : Capabilities Source) (source : Source) (line : String) :
    (∀ split : String → Option (List String),
      (∀ (r : Registry Source) name, r.dispatchWith split caps source line = .unknownCommand name →
          ∃ first ∈ (tokenizeWith split line).head?, r.get? first = none ∧ name = commandName line) ∧
        ((∀ r : Registry Source, r.Truthful split caps source line) ↔ KeepsKey split line) ∧
        (¬ KeepsKey split line → ∀ settings, ∃ (d : CommandDeclaration) (r : Registry Source),
          (empty settings).declare d = .ok r ∧ ¬ r.Truthful split caps source line)) ∧
      ∀ w rest, Opens line w rest →
        ((∀ r : Registry Source, r.Truthful Text.shellWords caps source line) ↔
          (¬ ∃ t, w = "//" ++ t) ∧
            (rest.toList.head?.all Text.isShellBlank = true ∨ Text.shellWords line = none)) := by
  constructor
  · intro split
    refine ⟨fun r name => dispatchWith_eq_unknownCommand_iff.1, forall_truthful_iff caps source, ?_⟩
    intro hkey settings
    exact exists_not_truthful caps source settings hkey
  · intro w rest hopens
    rw [forall_truthful_iff, keepsKey_iff_of_opens hopens]

/-- A name that is typed with a slash is reported rightly, but not one before a line break of two
characters. -/
theorem truthful_iff_fly :
    Opens "/fly high" "/fly" " high" ∧
      (∀ r : Registry Unit, r.Truthful Text.shellWords .builtin () "/fly high") ∧
      Opens "fly\r\n" "fly" "\r\n" ∧ Text.shellWords "fly\r\n" = some ["fly\r"] ∧
      ¬ ∀ r : Registry Unit, r.Truthful Text.shellWords .builtin () "fly\r\n" := by
  have hopens : Opens "/fly high" "/fly" " high" := by
    refine ⟨"", rfl, by simp, ⟨by decide, List.all_eq_true.1 (by decide), by decide⟩, ?_⟩
    rintro c ⟨⟩
    decide
  have hbreak : Opens "fly\r\n" "fly" "\r\n" := by
    refine ⟨"", rfl, by simp, ⟨by decide, List.all_eq_true.1 (by decide), by decide⟩, ?_⟩
    rintro c ⟨⟩
    decide
  have hshell : Text.shellWords "fly\r\n" = some ["fly\r"] := by decide
  refine ⟨hopens, ?_, hbreak, hshell, ?_⟩
  · refine ((truthful_iff .builtin () _).2 _ _ hopens).2 ⟨?_, .inl (by decide)⟩
    rintro ⟨t, ht⟩
    have hchars := congrArg String.toList ht
    simp at hchars
  · intro htruthful
    rcases ((truthful_iff .builtin () _).2 _ _ hbreak).1 htruthful with ⟨-, hblank | hnone⟩
    · revert hblank
      decide
    · rw [hshell] at hnone
      cases hnone

/-- A line break of two characters makes a registered command unknown: the first of them is no blank
of the shell, but it is white space. -/
theorem kit_unknown :
    ∃ (r : Registry Unit) (c : Command Unit),
      (empty .default).declare ⟨"kit", [], none, none, []⟩ = .ok r ∧
        r.dispatch .builtin () "kit\r\n" = .unknownCommand "kit" ∧ r.get? "kit" = some c ∧
          r.get? "kit\r" = none :=
  ⟨_, _, rfl, rfl, rfl, rfl⟩

end Registry

end CommandLanguage

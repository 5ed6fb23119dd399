import CommandLanguage.Tree.Search

/-!
# Typed flags

A flag as it stands among the words of an input: the word that names it and, after a flag with a
value, the value. Taking flags from the front of the words splits off typed flags that the table knows,
as far as they go: such flags are all that it takes (`Judge.takeFlags_sound`), and it takes them
wherever they stand there (`Judge.takeFlags_complete`).
-/

namespace CommandLanguage

/-- A flag as it is typed: the word that names it, and what it is bound to. -/
structure TypedFlag where
  token : String
  bound : BoundFlag

namespace TypedFlag

/-- The words of a typed flag. -/
def words (f : TypedFlag) : List String :=
  f.token :: f.bound.value.toList

/-- The words of typed flags. -/
def allWords (fs : List TypedFlag) : List String :=
  fs.flatMap words

@[simp] theorem allWords_nil : allWords [] = [] := rfl

@[simp] theorem allWords_cons (f : TypedFlag) (fs : List TypedFlag) :
    allWords (f :: fs) = f.words ++ allWords fs := rfl

theorem allWords_append (fs gs : List TypedFlag) :
    allWords (fs ++ gs) = allWords fs ++ allWords gs := by
  simp [allWords]

/-- Typed flags have words unless there are none. -/
theorem allWords_eq_nil {fs : List TypedFlag} : allWords fs = [] ↔ fs = [] := by
  cases fs with
  | nil => simp
  | cons f fs => simp [words]

end TypedFlag

namespace Judge

/-- Whether a flag is bound to a value as its declaration asks: a switch to none, any other flag to
one that fits. -/
inductive Binds (j : Judge) : BoundFlag → Prop where
  | switch {flag : Parameter} : flag.input? = none → Binds j ⟨flag, none⟩
  | value {flag : Parameter} {type : ValueType} {value : String} :
      flag.input? = some type → j.fits value flag = true → Binds j ⟨flag, some value⟩

/-- Whether a typed flag is one of the table, well bound. -/
structure Knows (j : Judge) (f : TypedFlag) : Prop where
  lookup : j.flags.lookup f.token = some f.bound.flag
  binds : j.Binds f.bound

/-- Whether taking flags stops in front of words: none is left, the next one is no flag, or it is a
flag of no known name and such a word may be left. -/
def StopsAt (j : Judge) (stop : Bool) (words : List String) : Prop :=
  ∀ token ∈ words.head?, isFlagToken token = true → stop = true ∧ j.flags.lookup token = none

variable {j : Judge} {stop : Bool}

theorem stopsAt_nil : j.StopsAt stop [] := by
  simp [StopsAt]

theorem stopsAt_cons {token : String} {rest : List String} :
    j.StopsAt stop (token :: rest) ↔
      (isFlagToken token = true → stop = true ∧ j.flags.lookup token = none) := by
  simp [StopsAt]

/-- A word that names a flag of the table looks like a flag. -/
theorem isFlagToken_of_lookup {table : FlagTable} {token : String} {flag : Parameter}
    (h : table.lookup token = some flag) : isFlagToken token = true := by
  rcases Option.bind_eq_some_iff.1 h with ⟨name, hname, -⟩
  simp [isFlagToken, hname]

/-- A flag has one word if it is a switch, else two. -/
theorem Binds.length_words {f : TypedFlag} (h : j.Binds f.bound) :
    f.words.length = f.bound.flag.flagSpan := by
  rcases f with ⟨token, bound⟩
  cases h with
  | switch hinput => simp [TypedFlag.words, Parameter.flagSpan, hinput]
  | value hinput _ => simp [TypedFlag.words, Parameter.flagSpan, hinput]

/-- Taking flags splits off typed flags of the table, as far as they go. -/
theorem takeFlags_sound {tokens : List String} {flags : List BoundFlag} {left : List String}
    (h : j.takeFlags stop tokens = some (flags, left)) :
    ∃ typed : List TypedFlag, (∀ f ∈ typed, j.Knows f) ∧ j.StopsAt stop left ∧
      flags = typed.map (·.bound) ∧ tokens = TypedFlag.allWords typed ++ left := by
  fun_induction takeFlags j stop tokens generalizing flags left with
  | case1 =>
    -- No word is left.
    obtain ⟨rfl, rfl⟩ := by simpa using h
    exact ⟨[], by simp, stopsAt_nil, rfl, rfl⟩
  | case2 token rest _ hlookup hstop =>
    -- A flag of no known name is left to whatever comes next.
    obtain ⟨rfl, rfl⟩ := by simpa using h
    exact ⟨[], by simp, stopsAt_cons.2 fun _ => ⟨hstop, hlookup⟩, rfl, rfl⟩
  | case3 => cases h
  | case4 token _ flag hlookup rest hinput ih =>
    -- A switch.
    rcases Option.map_eq_some_iff.1 h with ⟨⟨more, rest'⟩, htake, heq⟩
    obtain ⟨rfl, rfl⟩ := by simpa using heq
    rcases ih htake with ⟨typed, hknown, hstops, rfl, rfl⟩
    refine ⟨⟨token, flag, none⟩ :: typed, ?_, hstops, rfl, rfl⟩
    exact List.forall_mem_cons.2 ⟨⟨hlookup, .switch hinput⟩, hknown⟩
  | case5 => cases h
  | case6 token _ flag hlookup type value rest hinput hfits ih =>
    -- A flag with a value that fits.
    rcases Option.map_eq_some_iff.1 h with ⟨⟨more, rest'⟩, htake, heq⟩
    obtain ⟨rfl, rfl⟩ := by simpa using heq
    rcases ih htake with ⟨typed, hknown, hstops, rfl, rfl⟩
    refine ⟨⟨token, flag, some value⟩ :: typed, ?_, hstops, rfl, rfl⟩
    exact List.forall_mem_cons.2 ⟨⟨hlookup, .value hinput hfits⟩, hknown⟩
  | case7 => cases h
  | case8 token rest hflag =>
    -- A word that is no flag.
    obtain ⟨rfl, rfl⟩ := by simpa using h
    exact ⟨[], by simp, stopsAt_cons.2 fun hf => absurd hf hflag, rfl, rfl⟩

/-- Nothing is taken from words in front of which taking stops. -/
theorem takeFlags_of_stopsAt {left : List String} (h : j.StopsAt stop left) :
    j.takeFlags stop left = some ([], left) := by
  cases left with
  | nil => rfl
  | cons token rest =>
    rw [takeFlags]
    by_cases hflag : isFlagToken token = true
    · rcases stopsAt_cons.1 h hflag with ⟨rfl, hlookup⟩
      simp [hflag, hlookup]
    · simp [hflag]

/-- Behind typed flags of the table, flags are taken as without them. -/
theorem takeFlags_allWords {typed : List TypedFlag} (hknown : ∀ f ∈ typed, j.Knows f)
    (tokens : List String) :
    j.takeFlags stop (TypedFlag.allWords typed ++ tokens) =
      (j.takeFlags stop tokens).map fun (flags, left) => (typed.map (·.bound) ++ flags, left) := by
  induction typed with
  | nil => simp
  | cons f typed ih =>
    rcases List.forall_mem_cons.1 hknown with ⟨hf, hrest⟩
    rcases f with ⟨token, bound⟩
    have hflag : isFlagToken token = true := isFlagToken_of_lookup hf.lookup
    have hlookup := hf.lookup
    cases hf.binds with
    | switch hinput =>
      simp [TypedFlag.words, takeFlags, hflag, hlookup, hinput, ih hrest, Function.comp_def]
    | value hinput hfits =>
      simp [TypedFlag.words, takeFlags, hflag, hlookup, hinput, hfits, ih hrest, Function.comp_def]

/-- Typed flags of the table are taken, as far as they go. -/
theorem takeFlags_complete {typed : List TypedFlag} {left : List String}
    (hknown : ∀ f ∈ typed, j.Knows f) (hstops : j.StopsAt stop left) :
    j.takeFlags stop (TypedFlag.allWords typed ++ left) = some (typed.map (·.bound), left) := by
  rw [takeFlags_allWords hknown, takeFlags_of_stopsAt hstops]
  simp

end Judge

end CommandLanguage

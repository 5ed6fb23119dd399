/-!
# Shell words

The division of a line into words by the quoting rules of a POSIX shell.

* Blanks, tabs and newlines separate words.
* Where a word could begin, `#` opens a comment that runs to the end of the line.
* Single quotes keep everything up to the next single quote.
* Between double quotes a backslash escapes only a dollar sign, a grave accent, a double quote
  and a backslash.
* Elsewhere a backslash keeps the next character as it is.
* A backslash before a newline vanishes with it.

Quoted and plain stretches that touch make one word, so two quotes alone make an empty one. A
line that ends inside quotes or after a backslash has no division.

These are the rules that `shlex` documents for POSIX word splitting; the definition here follows
them. Only the words of a line, or that it has none, are made use of.
-/

namespace CommandLanguage.Text

/-- Where in a line a reader of shell words stands. -/
inductive ShellState where
  /-- No word has begun. -/
  | between
  /-- Inside a comment. -/
  | comment
  /-- Inside a word, outside quotes. -/
  | plain
  /-- After a backslash outside quotes. -/
  | escaped
  /-- Between single quotes. -/
  | single
  /-- Between double quotes. -/
  | double
  /-- After a backslash between double quotes. -/
  | doubleEscaped
deriving DecidableEq, Repr

/-- The characters that separate words. -/
def isShellBlank (c : Char) : Bool :=
  c = ' ' || c = '\t' || c = '\n'

/-- The characters that a backslash escapes between double quotes. -/
def isDoubleEscapable (c : Char) : Bool :=
  c = '$' || c = '\x60' || c = '"' || c = '\\'

/-- What `c` opens inside a word and outside quotes, and the word (in reverse) with it. -/
def ShellState.enter (c : Char) (word : List Char) : ShellState × List Char :=
  if c = '"' then (.double, word)
  else if c = '\'' then (.single, word)
  else if c = '\\' then (.escaped, word)
  else (.plain, c :: word)

/-- The words of the rest of a line, read in a state with `word` (in reverse) begun. -/
def shellWordsFrom : ShellState → List Char → List Char → Option (List (List Char))
  | .between, _, [] | .comment, _, [] => some []
  | .plain, word, [] => some [word.reverse]
  | .escaped, _, [] | .single, _, [] | .double, _, [] | .doubleEscaped, _, [] => none
  | .between, word, c :: cs =>
    if isShellBlank c then shellWordsFrom .between word cs
    else if c = '#' then shellWordsFrom .comment word cs
    else
      let (state, word) := ShellState.enter c []
      shellWordsFrom state word cs
  | .comment, word, c :: cs =>
    if c = '\n' then shellWordsFrom .between word cs else shellWordsFrom .comment word cs
  | .plain, word, c :: cs =>
    if isShellBlank c then (shellWordsFrom .between [] cs).map (word.reverse :: ·)
    else
      let (state, word) := ShellState.enter c word
      shellWordsFrom state word cs
  | .escaped, word, c :: cs =>
    if c = '\n' then shellWordsFrom .plain word cs else shellWordsFrom .plain (c :: word) cs
  | .single, word, c :: cs =>
    if c = '\'' then shellWordsFrom .plain word cs else shellWordsFrom .single (c :: word) cs
  | .double, word, c :: cs =>
    if c = '"' then shellWordsFrom .plain word cs
    else if c = '\\' then shellWordsFrom .doubleEscaped word cs
    else shellWordsFrom .double (c :: word) cs
  | .doubleEscaped, word, c :: cs =>
    -- The backslash stays in front of a character that it does not escape.
    if c = '\n' then shellWordsFrom .double word cs
    else if isDoubleEscapable c then shellWordsFrom .double (c :: word) cs
    else shellWordsFrom .double (c :: '\\' :: word) cs

/-- The shell words of a line, or nothing if it ends inside quotes or after a backslash. -/
def shellWords (line : String) : Option (List String) :=
  (shellWordsFrom .between [] line.toList).map (·.map String.ofList)

example : shellWords "give 'a b'\"c\"\\ d '' # rest" = some ["give", "a bc d", ""] := by decide

example : shellWords "say 'never closed" = none := by decide

end CommandLanguage.Text

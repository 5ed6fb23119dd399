import CommandLanguage.Text.Alphabetic
import CommandLanguage.Text.ShellWords
import CommandLanguage.Text.WhiteSpace

/-!
# Input lines

How a typed line becomes words, and which words are flags.

A word is a flag when one or two dashes begin it and an alphabetic character follows them, so
`-5` and `--` are ordinary words.
-/

namespace CommandLanguage

/-- A text without one leading slash. -/
def dropSlash (s : String) : String :=
  match s.toList with
  | '/' :: cs => String.ofList cs
  | _ => s

/-- The words of a line as a splitter divides it, or what stands between white space if it has no
division. -/
def tokenizeWith (split : String → Option (List String)) (line : String) : List String :=
  (split line).getD (Text.words line)

/-- The words of a line: its shell words, or what stands between white space if its quotes do not
match. -/
def tokenize (line : String) : List String :=
  tokenizeWith Text.shellWords line

/-- The first word of a line without a leading slash, whatever its quotes. -/
def commandName (line : String) : String :=
  dropSlash ((Text.words line).headD "")

/-- What follows the dash or the two dashes of a flag. -/
def flagAlias? (token : String) : Option String :=
  let rest? :=
    match token.toList with
    | '-' :: '-' :: cs => some cs
    | '-' :: cs => some cs
    | _ => none
  (rest?.filter fun cs => cs.head?.any Text.isAlphabetic).map String.ofList

/-- Whether a word is a flag. -/
def isFlagToken (token : String) : Bool :=
  (flagAlias? token).isSome

/-- A line prepared for completion: its words, and the place of the one to complete. -/
structure PartialLine where
  tokens : List String
  target : Nat
deriving DecidableEq, Repr

/-- What has been typed of the word to complete. -/
def PartialLine.typed (line : PartialLine) : String :=
  line.tokens.getD line.target ""

/-- A line whose last word is to be completed. After white space, and on a line without words, an
empty word is begun. -/
def splitForCompletion (line : String) : PartialLine :=
  let tokens := tokenize line
  let opensWord := line.isEmpty || Text.endsInWhiteSpace line || tokens.isEmpty
  let tokens := if opensWord then tokens ++ [""] else tokens
  ⟨tokens, tokens.length - 1⟩

end CommandLanguage

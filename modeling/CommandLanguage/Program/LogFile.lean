import CommandLanguage.Text.AsciiCase
import CommandLanguage.Text.Alphabetic
import CommandLanguage.Text.Numeric
import CommandLanguage.Text.WhiteSpace

/-!
# The log

Where outcomes are logged, and what of it is shown.

The path of the log file may name environment variables, as `$NAME`, `${NAME}` or `${NAME:-other}`,
and may begin with `~` for the home directory. A variable that is not set and has no other value
leaves the program without a log file, and so does a blank path. Two dollar signs are one.

The file gets at least what a user would be told at level `info`, whatever level the settings name.
-/

namespace CommandLanguage

/-- The values of environment variables. -/
abbrev Environment := String → Option String

namespace LogFile

/-- The characters of the names of variables. -/
def isNameChar (c : Char) : Bool :=
  Text.isAlphabetic c || Text.isNumeric c || c = '_'

/-- What stands before the first `:-`, and what follows it. -/
def splitDefault : List Char → Option (List Char × List Char)
  | [] => none
  | ':' :: '-' :: cs => some ([], cs)
  | c :: cs => (splitDefault cs).map fun (name, value) => (c :: name, value)

/-- The value of what stands between braces: of a variable, or else what follows `:-`. -/
def bracedValue? (env : Environment) (inside : List Char) : Option (List Char) :=
  match splitDefault inside with
  | some (c :: name, value) =>
    some (((env (String.ofList (c :: name))).map (·.toList)).getD value)
  | _ => (env (String.ofList inside)).map (·.toList)

/-- A text with its variables replaced, each step using up one of `fuel`. Nothing if one is not set. -/
def expandVariables? (env : Environment) (fuel : Nat) (cs : List Char) : Option (List Char) :=
  match fuel, cs with
  | 0, _ | _, [] => some []
  | fuel + 1, '$' :: '{' :: cs =>
    if cs.contains '}' then do
      let value ← bracedValue? env (cs.takeWhile (· != '}'))
      let rest ← expandVariables? env fuel ((cs.dropWhile (· != '}')).drop 1)
      return value ++ rest
    else (expandVariables? env fuel cs).map ('$' :: '{' :: ·)
  | fuel + 1, '$' :: '$' :: cs => (expandVariables? env fuel cs).map ('$' :: ·)
  | fuel + 1, '$' :: cs =>
    let name := cs.takeWhile isNameChar
    if name.isEmpty then (expandVariables? env fuel cs).map ('$' :: ·)
    else do
      let value ← env (String.ofList name)
      let rest ← expandVariables? env fuel (cs.dropWhile isNameChar)
      return value.toList ++ rest
  | fuel + 1, c :: cs => (expandVariables? env fuel cs).map (c :: ·)

/-- A path with the home directory in place of `~` at its front. -/
def expandHome (env : Environment) (cs : List Char) : List Char :=
  match cs, env "HOME" with
  | ['~'], some home => home.toList
  | '~' :: '/' :: rest, some home => home.toList ++ '/' :: rest
  | cs, _ => cs

/-- The path of the log file that settings name, if they name one. -/
def path? (env : Environment) (raw : String) : Option String :=
  if Text.isBlank raw then none
  else
    (expandVariables? env raw.toList.length raw.toList).map fun cs =>
      String.ofList (if raw.toList.head? = some '~' then expandHome env cs else cs)

/-- The names of the variables that a path may ask for. -/
def variableNames : List Char → List String
  | [] => []
  | '$' :: '{' :: cs =>
    let inside := cs.takeWhile (· != '}')
    let name := (splitDefault inside).elim inside (·.1)
    String.ofList inside :: String.ofList name :: variableNames cs
  | '$' :: cs => String.ofList (cs.takeWhile isNameChar) :: variableNames cs
  | _ :: cs => variableNames cs

/-- The directory that a file lies in, as far as its path tells; the root lies in none. -/
def directory? (path : String) : Option String :=
  match path.toList.reverse.dropWhile (· = '/') with
  | [] => none
  | name =>
    let above := name.dropWhile (· != '/')
    some (String.ofList above.reverse)

end LogFile

/-- How important a message is. -/
inductive LogLevel where
  | off
  | error
  | warn
  | info
  | debug
  | trace
deriving DecidableEq, Repr

namespace LogLevel

/-- Every level with its name. -/
def named : List (String × LogLevel) :=
  [("off", off), ("error", error), ("warn", warn), ("info", info), ("debug", debug),
    ("trace", trace)]

/-- The level that settings name; warnings if they name none. -/
def ofName (name : String) : LogLevel :=
  (named.lookup (Text.foldCase name)).getD warn

/-- The place of a level among all. -/
def rank (l : LogLevel) : Nat :=
  named.findIdx (·.2 = l)

/-- Whether messages of a level are shown at another. -/
def shows (shown level : LogLevel) : Bool :=
  level.rank ≤ shown.rank

/-- The level at which the log file is written when messages are shown at `l`. -/
def forFile (l : LogLevel) : LogLevel :=
  if l.shows info then l else info

end LogLevel

/-- A message of the log. -/
structure LogMessage where
  level : LogLevel
  text : String
deriving DecidableEq, Repr

/-- A message as a line of the log, without its time. -/
def LogMessage.line (m : LogMessage) : String :=
  let name :=
    match m.level with
    | .off => "OFF"
    | .error => "ERROR"
    | .warn => "WARN"
    | .info => "INFO"
    | .debug => "DEBUG"
    | .trace => "TRACE"
  "[" ++ name ++ "] " ++ m.text

/-- The time of day after some seconds, as hours, minutes and seconds of two digits. -/
def timeOfDay (seconds : Nat) : String :=
  let two (n : Nat) : String := toString (n / 10) ++ toString (n % 10)
  let second := seconds % 86400
  two (second / 3600) ++ ":" ++ two (second / 60 % 60) ++ ":" ++ two (second % 60)

/-- The messages that are shown at a level, each a line that begins with the time. -/
def LogLevel.entries (level : LogLevel) (time : String) (messages : List LogMessage) : String :=
  "".intercalate <| (messages.filter (level.shows ·.level)).map fun m =>
    time ++ " " ++ m.line ++ "\n"

end CommandLanguage

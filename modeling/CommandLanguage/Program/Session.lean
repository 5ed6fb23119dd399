import CommandLanguage.Data.Config
import CommandLanguage.Data.Json
import CommandLanguage.Data.Toml.Reader
import CommandLanguage.DefaultConfig
import CommandLanguage.Program.LogFile
import CommandLanguage.Program.Request
import CommandLanguage.Registry

/-!
# Sessions

What the program answers to a request under a configuration, what it logs, and how it fails.
-/

namespace CommandLanguage

/-- Why the program gives no answer. -/
inductive Failure where
  /-- The input is no text. -/
  | unreadableInput
  /-- The input is no request. -/
  | malformedRequest
  /-- The grammar file is no overlay. -/
  | malformedGrammar
  /-- The grammar file cannot be read. -/
  | unreadableGrammar
  /-- A command is refused. -/
  | refused (error : GrammarError)
deriving DecidableEq, Repr

/-- The wording of a failure. -/
def Failure.message : Failure → String
  | .unreadableInput => "failed to read stdin"
  | .malformedRequest => "JSON parse error"
  | .malformedGrammar => "config parse error"
  | .unreadableGrammar => "IO error"
  | .refused error => error.message

/-- The request that an input writes. -/
def Request.parse (input : String) : Except Failure Request :=
  match (Json.read? input).bind Request.read? with
  | some request => .ok request
  | none => .error .malformedRequest

namespace Overlay

/-- The overlay that a file writes. -/
def parse? (text : String) : Option Overlay :=
  (Toml.read? text).bind (Overlay.read? .toml)

end Overlay

namespace Config

/-- The defaults under a grammar file, which has to be there and to be well written. -/
def ofGrammarFile (text : Option String) : Except Failure Config :=
  match text with
  | none => .error .unreadableGrammar
  | some text =>
    match Overlay.parse? text with
    | none => .error .malformedGrammar
    | some overlay => .ok (Config.default.overlaid overlay)

/-- The defaults under the user's file. A file that is missing or malformed changes nothing. -/
def ofUserFile (text : Option String) : Config :=
  match text.bind Overlay.parse? with
  | none => Config.default
  | some overlay => Config.default.overlaid overlay

end Config

/-! ## Answers -/

/-- Fields by name: of several of one name the last, in the order of names. -/
def Datum.ofEntries (entries : List (String × Datum)) : Datum :=
  let last := entries.reverse.foldl
    (fun kept entry => if kept.any (·.1 == entry.1) then kept else entry :: kept) []
  .table (last.mergeSort fun a b => a.1 ≤ b.1)

/-- The answer to a line that was resolved. -/
def Dispatch.report (d : Dispatch Caller) : Datum :=
  match d with
  | .matched command search =>
    let shown (u : Option NumberedUsage) : Datum :=
      .ofText? (u.map fun u => u.usage.format command.name)
    .table [
      ("bindings", .ofEntries (search.arguments.map fun (name, value) => (name, .text value))),
      ("closest", shown search.closest),
      ("command", .text command.name),
      ("flags", .ofEntries (search.flags.map fun b => (b.flag.name, .ofText? b.value))),
      ("handler", .ofText? (search.usage.map (·.usage.handler))),
      ("status", .text search.status.name),
      ("usage", shown search.usage)]
  | _ => .table [("status", .text d.status.name)]

/-- What the program does for a request: its answer, and the messages that it logs on the way. -/
structure Reply where
  messages : List LogMessage
  answer : Except Failure Datum

/-- The program's capabilities: a caller has the permissions that its grants give. -/
def Caller.capabilities : Capabilities Caller :=
  { Capabilities.builtin with grants := Caller.has }

/-- Answer a request under a configuration. -/
def Request.reply (request : Request) (config : Config) : Reply :=
  let caps := Caller.capabilities
  let fresh : Registry Caller := .empty config.settings.forTrees
  let notices := (fresh.notices config.commands).map fun n => ⟨.warn, n.message⟩
  match Registry.ofConfig config with
  | .error e => ⟨notices, .error (.refused e)⟩
  | .ok registry =>
    match request.mode with
    | .dispatch =>
      let found := registry.dispatch caps request.caller request.line
      ⟨notices ++ [⟨.info, found.logEntry request.line⟩], .ok found.report⟩
    | .complete =>
      let (found, _) := registry.complete caps 0 request.caller request.line
      ⟨notices, .ok (.table [("suggestions", .ofTexts found)])⟩

end CommandLanguage

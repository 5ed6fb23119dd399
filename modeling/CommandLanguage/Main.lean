import CommandLanguage.Program.Session
import Std.Time.DateTime.Timestamp

/-!
# The program

Reads a request from standard input and writes the answer to standard output. Failures and warnings go
to standard error, and a failure ends the program with exit code 1.
-/

namespace CommandLanguage

/-- The text of a file, if it can be read. -/
def readText? (path : String) : IO (Option String) := do
  match ← (IO.FS.readFile path).toBaseIO with
  | .ok text => return some text
  | .error _ => return none

/-- The configuration under the user's file, which lies in the home directory. -/
def loadUserConfig : IO Config := do
  let text ←
    match ← IO.getEnv "HOME" with
    | some home => readText? (home ++ "/.config/cmdgrammar/config.toml")
    | none => pure none
  if (text.map Overlay.parse?) = some none then
    IO.eprintln ("cmdgrammar: " ++ Failure.malformedGrammar.message)
  return Config.ofUserFile text

/-- The configuration that a request asks for. -/
def Request.loadConfig (request : Request) : IO (Except Failure Config) := do
  match request.grammar with
  | some path => return Config.ofGrammarFile (← readText? path)
  | none => return .ok (← loadUserConfig)

/-- The path of the log file that settings name, in the environment of the program. -/
def Settings.logPath? (settings : Settings) : IO (Option String) := do
  let names := "HOME" :: LogFile.variableNames settings.logFile.toList
  let values ← names.filterMapM fun name => do
    return (← IO.getEnv name).map (name, ·)
  return LogFile.path? (fun name => values.lookup name) settings.logFile

/-- Add text to a log file, after making the directory that it lies in. -/
def appendLog (path text : String) : IO Unit := do
  match LogFile.directory? path with
  | none => return
  | some directory =>
    if !directory.isEmpty then IO.FS.createDirAll directory
    IO.FS.withFile path .append fun file => file.putStr text

/-- Show messages, and write them to the log file if there is one. A log that cannot be written stops
nothing. -/
def Settings.log (settings : Settings) (messages : List LogMessage) : IO Unit := do
  let level := LogLevel.ofName settings.logLevel
  let now ← Std.Time.Timestamp.now
  let time := timeOfDay now.toSecondsSinceUnixEpoch.val.toNat
  IO.eprint (level.entries time messages)
  match ← settings.logPath? with
  | none => return
  | some path =>
    let _ ← (appendLog path (level.forFile.entries time messages)).toBaseIO

/-- The answer to an input. -/
def answerInput (bytes : ByteArray) : IO (Except Failure Datum) := do
  match String.fromUTF8? bytes with
  | none => return .error .unreadableInput
  | some input =>
    match Request.parse input with
    | .error f => return .error f
    | .ok request =>
      match ← request.loadConfig with
      | .error f => return .error f
      | .ok config =>
        let reply := request.reply config
        config.settings.log reply.messages
        return reply.answer

end CommandLanguage

/-- Answer the request on standard input. -/
def main : IO UInt32 := do
  match ← CommandLanguage.answerInput (← (← IO.getStdin).readBinToEnd) with
  | .ok answer =>
    IO.println (CommandLanguage.Json.write answer)
    return 0
  | .error f =>
    IO.eprintln ("cmdgrammar: " ++ f.message)
    return 1

import CommandLanguage.Settings

/-!
# The default configuration

The commands and settings that are there before any overlay: `ban`, `kit`, `msg` and `tp`.
-/

namespace CommandLanguage

namespace DefaultConfig

/-- A parameter with a name and a kind and nothing else declared. -/
def parameter (name : String) (kind : DeclaredKind) (valueType : Option String) :
    ParameterDeclaration where
  name := name
  kind := kind
  valueType := valueType
  greedy := false
  priority := none
  permission := none
  description := none
  aliases := []
  suggestions := []
  ignoreCompletionPermission := false

/-- A usage with a handler and parameters and nothing else declared. -/
def usage (handler : String) (parameters : List ParameterDeclaration) : UsageDeclaration where
  handler := handler
  permission := none
  description := none
  isDefault := false
  parameters := parameters

/-- A command with names and usages and nothing else declared. -/
def command (name : String) (aliases : List String) (usages : List UsageDeclaration) :
    CommandDeclaration where
  name := name
  aliases := aliases
  permission := none
  description := none
  usages := usages

/-- A text that has to be given. -/
def text (name : String) : ParameterDeclaration :=
  parameter name .required (some "string")

/-- A coordinate. -/
def coordinate (name : String) : ParameterDeclaration :=
  parameter name .required (some "double")

/-- The command that bans a player. -/
def ban : CommandDeclaration :=
  { command "ban" [] [usage "ban" [
      { text "target" with suggestions := ["steve", "alex"] },
      { parameter "silent" .switch none with aliases := ["s"] },
      parameter "ip" .switch none,
      { parameter "time" .flag (some "int") with
        aliases := ["t"]
        suggestions := ["60", "3600", "86400"] },
      { parameter "reason" .optional (some "string") with greedy := true }]] with
    permission := some "server.ban"
    description := some "Ban a player, optionally silently, by IP, or for a limited time" }

/-- The literal that hands out a kit. -/
def give : ParameterDeclaration :=
  { parameter "give" .literal none with aliases := ["g"] }

/-- The command that hands out kits. -/
def kit : CommandDeclaration :=
  { command "kit" ["kits"] [
      { usage "kit_help" [] with isDefault := true },
      usage "kit_list" [parameter "list" .literal none],
      { usage "kit_give_help" [give] with isDefault := true },
      usage "kit_give" [
        give,
        { text "kit" with suggestions := ["starter", "pvp", "builder"] },
        parameter "player" .optional (some "string")],
      { usage "kit_reload" [
          { parameter "reload" .literal none with
            permission := some "kit.admin"
            ignoreCompletionPermission := true }] with
        permission := some "kit.admin.reload" }] with
    description := some "Hand out item kits" }

/-- The command that sends a message. -/
def msg : CommandDeclaration :=
  command "msg" ["tell", "whisper"] [
    usage "msg" [text "player", { text "message" with greedy := true }]]

/-- The command that moves a player. -/
def tp : CommandDeclaration :=
  command "tp" ["teleport"] [
    usage "tp_player" [text "player"],
    usage "tp_coords" [coordinate "x", coordinate "y", coordinate "z"]]

end DefaultConfig

/-- The configuration before any overlay. -/
def Config.default : Config where
  settings := { Settings.default with logFile := "~/.local/share/cmdgrammar/dispatch.log" }
  commands := [DefaultConfig.ban, DefaultConfig.kit, DefaultConfig.msg, DefaultConfig.tp]

end CommandLanguage

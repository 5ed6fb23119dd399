import CommandLanguage.Data.Datum
import CommandLanguage.Settings

/-!
# Configurations as data

How settings, declarations and overlays are read from data, and how they are written.
-/

namespace CommandLanguage

namespace DeclaredKind

/-- The kinds of parameter that can be declared. -/
def all : List DeclaredKind := [.literal, .required, .optional, .flag, .switch]

/-- Read a kind. -/
def read? (format : Format) (d : Datum) : Option DeclaredKind :=
  (d.toChoice? format).bind fun name => all.find? (·.name == name)

end DeclaredKind

/-- Read a declared parameter. -/
def ParameterDeclaration.read? (format : Format) (d : Datum) : Option ParameterDeclaration := do
  let fs ← d.fields? format ["name", "kind", "type", "greedy", "priority", "permission",
    "description", "aliases", "suggestions", "ignore_completion_permission"]
  return {
    name := ← fs.required "name" (·.toText?)
    kind := ← fs.required "kind" (DeclaredKind.read? format)
    valueType := ← fs.optional "type" (·.toText?)
    greedy := ← fs.withDefault "greedy" false (·.toBool?)
    priority := ← fs.optional "priority" (·.toPriority?)
    permission := ← fs.optional "permission" (·.toText?)
    description := ← fs.optional "description" (·.toText?)
    aliases := ← fs.withDefault "aliases" [] (·.toTexts?)
    suggestions := ← fs.withDefault "suggestions" [] (·.toTexts?)
    ignoreCompletionPermission :=
      ← fs.withDefault "ignore_completion_permission" false (·.toBool?) }

/-- Read a declared usage. -/
def UsageDeclaration.read? (format : Format) (d : Datum) : Option UsageDeclaration := do
  let fs ← d.fields? format ["handler", "permission", "description", "default", "params"]
  return {
    handler := ← fs.required "handler" (·.toText?)
    permission := ← fs.optional "permission" (·.toText?)
    description := ← fs.optional "description" (·.toText?)
    isDefault := ← fs.withDefault "default" false (·.toBool?)
    parameters := ← fs.withDefault "params" [] (·.toList? (ParameterDeclaration.read? format)) }

/-- Read a declared command. -/
def CommandDeclaration.read? (format : Format) (d : Datum) : Option CommandDeclaration := do
  let fs ← d.fields? format ["name", "aliases", "permission", "description", "usages"]
  return {
    name := ← fs.required "name" (·.toText?)
    aliases := ← fs.withDefault "aliases" [] (·.toTexts?)
    permission := ← fs.optional "permission" (·.toText?)
    description := ← fs.optional "description" (·.toText?)
    usages := ← fs.withDefault "usages" [] (·.toList? (UsageDeclaration.read? format)) }

/-- The names of the settings, in order. -/
def Settings.names : List String :=
  ["strict", "overlapping_suggestions", "auto_permissions", "permission_delimiter",
    "suggestion_ttl_secs", "log_level", "log_file"]

/-- Read settings. -/
def Settings.read? (format : Format) (d : Datum) : Option Settings := do
  let fs ← d.fields? format names
  return {
    strict := ← fs.withDefault "strict" default.strict (·.toBool?)
    overlappingSuggestions :=
      ← fs.withDefault "overlapping_suggestions" default.overlappingSuggestions (·.toBool?)
    autoPermissions := ← fs.withDefault "auto_permissions" default.autoPermissions (·.toBool?)
    permissionDelimiter :=
      ← fs.withDefault "permission_delimiter" default.permissionDelimiter (·.toText?)
    suggestionTtl := ← fs.withDefault "suggestion_ttl_secs" default.suggestionTtl (·.toSeconds?)
    logLevel := ← fs.withDefault "log_level" default.logLevel (·.toText?)
    logFile := ← fs.withDefault "log_file" default.logFile (·.toText?) }

/-- Read the settings of an overlay. -/
def SettingsOverlay.read? (format : Format) (d : Datum) : Option SettingsOverlay := do
  let fs ← d.fields? format Settings.names
  return {
    strict := ← fs.optional "strict" (·.toBool?)
    overlappingSuggestions := ← fs.optional "overlapping_suggestions" (·.toBool?)
    autoPermissions := ← fs.optional "auto_permissions" (·.toBool?)
    permissionDelimiter := ← fs.optional "permission_delimiter" (·.toText?)
    suggestionTtl := ← fs.optional "suggestion_ttl_secs" (·.toSeconds?)
    logLevel := ← fs.optional "log_level" (·.toText?)
    logFile := ← fs.optional "log_file" (·.toText?) }

/-- Read a configuration. -/
def Config.read? (format : Format) (d : Datum) : Option Config := do
  let fs ← d.fields? format ["settings", "commands"]
  return {
    settings := ← fs.withDefault "settings" Settings.default (Settings.read? format)
    commands := ← fs.withDefault "commands" [] (·.toList? (CommandDeclaration.read? format)) }

/-- Read an overlay. -/
def Overlay.read? (format : Format) (d : Datum) : Option Overlay := do
  let fs ← d.fields? format ["replace", "remove_commands", "settings", "commands"]
  return {
    replace := ← fs.withDefault "replace" false (·.toBool?)
    removed := ← fs.withDefault "remove_commands" [] (·.toTexts?)
    settings := ← fs.withDefault "settings" .none (SettingsOverlay.read? format)
    commands := ← fs.withDefault "commands" [] (·.toList? (CommandDeclaration.read? format)) }

/-! ## Writing -/

/-- Write a declared parameter, every field present. -/
def ParameterDeclaration.toDatum (d : ParameterDeclaration) : Datum :=
  .table [
    ("name", .text d.name),
    ("kind", .text d.kind.name),
    ("type", .ofText? d.valueType),
    ("greedy", .bool d.greedy),
    ("priority", d.priority.elim .null fun p => .int p.level),
    ("permission", .ofText? d.permission),
    ("description", .ofText? d.description),
    ("aliases", .ofTexts d.aliases),
    ("suggestions", .ofTexts d.suggestions),
    ("ignore_completion_permission", .bool d.ignoreCompletionPermission)]

/-- Write a declared usage, every field present. -/
def UsageDeclaration.toDatum (d : UsageDeclaration) : Datum :=
  .table [
    ("handler", .text d.handler),
    ("permission", .ofText? d.permission),
    ("description", .ofText? d.description),
    ("default", .bool d.isDefault),
    ("params", .list (d.parameters.map (·.toDatum)))]

/-- Write a declared command, every field present. -/
def CommandDeclaration.toDatum (d : CommandDeclaration) : Datum :=
  .table [
    ("name", .text d.name),
    ("aliases", .ofTexts d.aliases),
    ("permission", .ofText? d.permission),
    ("description", .ofText? d.description),
    ("usages", .list (d.usages.map (·.toDatum)))]

/-- Write settings, every field present. -/
def Settings.toDatum (s : Settings) : Datum :=
  .table [
    ("strict", .bool s.strict),
    ("overlapping_suggestions", .bool s.overlappingSuggestions),
    ("auto_permissions", .bool s.autoPermissions),
    ("permission_delimiter", .text s.permissionDelimiter),
    ("suggestion_ttl_secs", .int s.suggestionTtl),
    ("log_level", .text s.logLevel),
    ("log_file", .text s.logFile)]

/-- Write a configuration, every field present. -/
def Config.toDatum (c : Config) : Datum :=
  .table [
    ("settings", c.settings.toDatum),
    ("commands", .list (c.commands.map (·.toDatum)))]

end CommandLanguage

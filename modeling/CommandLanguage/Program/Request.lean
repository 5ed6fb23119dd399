import CommandLanguage.Data.Datum
import CommandLanguage.Text.AsciiCase
import CommandLanguage.Text.Offset

/-!
# Requests

What the program is asked: to dispatch or complete a line for a caller, perhaps with a grammar file.

A caller has permissions by grants. The grant `*` gives every permission, any other the permission
of the same name, and one that ends in `.*` those below the name before it.
-/

namespace CommandLanguage

/-- What is wanted of a line. -/
inductive Mode where
  | dispatch
  | complete
deriving DecidableEq, Repr

/-- Whoever a line is dispatched for. -/
structure Caller where
  name : String
  grants : List String
deriving DecidableEq, Repr

/-- A request to the program. -/
structure Request where
  mode : Mode
  line : String
  caller : Caller
  /-- The path of a grammar to use in place of the user's. -/
  grammar : Option String
deriving DecidableEq, Repr

/-- What stands before a final `.*`. -/
def wildcardStem? (grant : String) : Option String :=
  match grant.toList.reverse with
  | '*' :: '.' :: stem => some (String.ofList stem.reverse)
  | _ => none

/-- Check whether a permission is below a name: whether it begins with the name, by the number of the
name's bytes, and a point follows there. -/
def checkBelow (stem permission : String) : Except Text.OffsetFault Bool :=
  match Text.before? permission stem.utf8ByteSize with
  | none => return false
  | some front =>
    if Text.sameIgnoringCase front stem then do
      let rest ← Text.behind permission stem.utf8ByteSize
      return rest.toList.head? == some '.'
    else return false

/-- Check whether a grant gives a permission. -/
def checkGrant (grant permission : String) : Except Text.OffsetFault Bool :=
  if grant == "*" || Text.sameIgnoringCase grant permission then return true
  else
    match wildcardStem? grant with
    | none => return false
    | some stem => checkBelow stem permission

/-- Check whether one of a caller's grants gives a permission. -/
def Caller.check (c : Caller) (permission : String) : Except Text.OffsetFault Bool :=
  c.grants.anyM (checkGrant · permission)

/-- Whether a caller has a permission. -/
def Caller.has (c : Caller) (permission : String) : Bool :=
  (c.check permission).toOption.getD false

/-- Read a mode. -/
def Mode.read? (d : Datum) : Option Mode :=
  (d.toChoice? .json).bind fun name =>
    if name = "dispatch" then some dispatch
    else if name = "complete" then some complete
    else none

/-- Read a caller. -/
def Caller.read? (d : Datum) : Option Caller := do
  let fs ← d.fields? .json ["name", "permissions"]
  return {
    name := ← fs.withDefault "name" "" (·.toText?)
    grants := ← fs.withDefault "permissions" [] (·.toTexts?) }

/-- Read a request. -/
def Request.read? (d : Datum) : Option Request := do
  let fs ← d.fields? .json ["mode", "line", "source", "grammar"]
  return {
    mode := ← fs.withDefault "mode" .dispatch Mode.read?
    line := ← fs.required "line" (·.toText?)
    caller := ← fs.withDefault "source" ⟨"", []⟩ Caller.read?
    grammar := ← fs.optional "grammar" (·.toText?) }

end CommandLanguage

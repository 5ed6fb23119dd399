import CommandLanguage.Error
import CommandLanguage.Line
import CommandLanguage.Usage

/-!
# Flag tables

The flags of a command by the names they answer to. A name belongs to the flag that asked for it
first; a later flag in another slot goes without it, with a notice.
-/

namespace CommandLanguage

/-- The flags of a command. -/
structure FlagTable where
  /-- Each name in small ASCII letters, with the flag it belongs to. -/
  owners : List (String × Parameter)
  /-- One flag for each slot, in the order they came. -/
  flags : List Parameter
deriving DecidableEq

namespace FlagTable

/-- The table without flags. -/
def empty : FlagTable := ⟨[], []⟩

/-- The flag that a name in small letters belongs to. -/
def owner? (t : FlagTable) (name : String) : Option Parameter :=
  t.owners.lookup name

/-- Give a name to a flag unless it has an owner. -/
def claim (t : FlagTable) (flag : Parameter) (name : String) : FlagTable :=
  let key := Text.foldCase name
  if (t.owner? key).isSome then t else { t with owners := t.owners ++ [(key, flag)] }

/-- Keep a flag unless its slot is taken. -/
def keep (t : FlagTable) (flag : Parameter) : FlagTable :=
  if t.flags.any (·.sameSlot flag) then t else { t with flags := t.flags ++ [flag] }

/-- A table with one more flag; a parameter of another kind changes nothing. -/
def register (t : FlagTable) (p : Parameter) : FlagTable :=
  if p.isFlag then p.names.foldl (·.claim p) (t.keep p) else t

/-- What is said when a flag is registered: which of its names belong to a flag in another slot. -/
def conflicts (t : FlagTable) (p : Parameter) : List Notice :=
  if p.isFlag then
    p.names.filterMap fun name =>
      let key := Text.foldCase name
      match t.owner? key with
      | some owner => if owner.sameSlot p then none else some (.aliasTaken key p.name owner.name)
      | none => none
  else []

/-- Register parameters in turn. -/
def registerAll (t : FlagTable) (ps : List Parameter) : FlagTable :=
  ps.foldl register t

/-- What is said when parameters are registered in turn. -/
def allConflicts (t : FlagTable) : List Parameter → List Notice
  | [] => []
  | p :: ps => t.conflicts p ++ (t.register p).allConflicts ps

/-- The parameters of usages, in order. -/
def declared (usages : List Usage) : List Parameter :=
  usages.flatMap (·.flags)

/-- The flags that usages declare. -/
def ofUsages (usages : List Usage) : FlagTable :=
  empty.registerAll (declared usages)

/-- The flag that a typed word such as `-s` or `--silent` stands for. -/
def lookup (t : FlagTable) (token : String) : Option Parameter :=
  (flagAlias? token).bind fun name => t.owner? (Text.foldCase name)

end FlagTable

end CommandLanguage

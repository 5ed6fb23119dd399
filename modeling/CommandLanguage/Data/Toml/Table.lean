import CommandLanguage.Data.Datum

/-!
# TOML tables

How statements build up a document.

A table comes about in one of three ways, and may be added to accordingly. Its own header defines it
once. A header of a table below it, or a key with parts, makes it in passing: the first may later be
followed by its own header, the second may be added to by further keys only. A header in double
brackets adds a table to a list, and such a list is always meant by its last table. What a key has
been given is complete.
-/

namespace CommandLanguage.Toml

/-- How a table came about. -/
inductive Origin where
  /-- By its own header. -/
  | header
  /-- In passing, by the header of a table below it. -/
  | passing
  /-- In passing, by a key with parts. -/
  | key
deriving DecidableEq, Repr

/-- What stands under a name of a table. -/
inductive Item where
  | value (d : Datum)
  | table (origin : Origin) (items : List (String × Item))
  | tables (elements : List (List (String × Item)))

/-- The contents of a table. -/
abbrev Items := List (String × Item)

/-- The contents of a table with one name given a new item. -/
def Items.set (items : Items) (name : String) (item : Item) : Items :=
  match items with
  | [] => [(name, item)]
  | (n, old) :: rest => if n == name then (n, item) :: rest else (n, old) :: Items.set rest name item

namespace Items

/-- A change to the contents of a table, which knows how the table came about. -/
abbrev Change := Origin → Items → Option Items

/-- Change the table under a path of names, making what is missing of it in passing. Headers may pass
through any table, keys only through those made in passing and the last of a list. -/
def along (origin : Origin) (change : Change) : List String → Change
  | [], at_, items => change at_ items
  | name :: path, _, items =>
    match items.lookup name with
    | none => do
      let inner ← along origin change path origin []
      return items.set name (.table origin inner)
    | some (.value _) => none
    | some (.table found inner) =>
      if origin = .key ∧ found = .header then none
      else do
        let inner ← along origin change path found inner
        return items.set name (.table found inner)
    | some (.tables elements) =>
      match elements.reverse with
      | [] => none
      | last :: before => do
        let inner ← along origin change path .header last
        return items.set name (.tables (before.reverse ++ [inner]))

/-- Give a name a value. The names of a table that a key made in passing can only be given by keys with
the same parts in front, those of any other only without. -/
def give (byParts : Bool) (name : String) (d : Datum) : Change := fun origin items =>
  if byParts != (origin = .key) then none
  else if (items.lookup name).isSome then none
  else some (items.set name (.value d))

/-- Define a table by its header. -/
def define (name : String) : Change := fun _ items =>
  match items.lookup name with
  | none => some (items.set name (.table .header []))
  | some (.table .passing inner) => some (items.set name (.table .header inner))
  | some _ => none

/-- Add a table to a list of tables. -/
def append (name : String) : Change := fun _ items =>
  match items.lookup name with
  | none => some (items.set name (.tables [[]]))
  | some (.tables elements) => some (items.set name (.tables (elements ++ [[]])))
  | some _ => none

end Items

/-- The last of the parts of a key, and those before it. -/
def splitKey : List String → Option (List String × String)
  | [] => none
  | [name] => some ([], name)
  | part :: parts => (splitKey parts).map fun (path, name) => (part :: path, name)

/-- The contents of a table with a value under a key. -/
def Items.assign (origin : Origin) (items : Items) (key : List String) (d : Datum) : Option Items := do
  let (path, name) ← splitKey key
  Items.along .key (Items.give (!path.isEmpty) name d) path origin items

mutual

/-- The value of an item. -/
def Item.toDatum : Item → Datum
  | .value d => d
  | .table _ items => .table (Items.toFields items)
  | .tables elements => .list (Items.toTables elements)

/-- The values in a table. -/
def Items.toFields : Items → List (String × Datum)
  | [] => []
  | (name, item) :: items => (name, item.toDatum) :: Items.toFields items

/-- The values of the tables of a list. -/
def Items.toTables : List Items → List Datum
  | [] => []
  | items :: elements => .table (Items.toFields items) :: Items.toTables elements

end

/-! ## Statements -/

/-- A statement of a document. -/
inductive Statement where
  /-- A value under a key of the current table. -/
  | assign (key : List String) (d : Datum)
  /-- The header of a table. -/
  | header (key : List String)
  /-- The header of one more table of a list. -/
  | element (key : List String)

/-- A document so far: its contents and the key of the current table. -/
structure Document where
  items : Items
  current : List String

/-- Carry out a statement. -/
def Document.run (doc : Document) : Statement → Option Document
  | .assign key d => do
    let items ← Items.along .passing (fun origin items => Items.assign origin items key d) doc.current
      .header doc.items
    return { doc with items := items }
  | .header key => do
    let (path, name) ← splitKey key
    let items ← Items.along .passing (Items.define name) path .header doc.items
    return ⟨items, key⟩
  | .element key => do
    let (path, name) ← splitKey key
    let items ← Items.along .passing (Items.append name) path .header doc.items
    return ⟨items, key⟩

/-- The value of a document: a table, or nothing if its statements contradict each other. -/
def Statement.carryOut (statements : List Statement) : Option Datum :=
  (statements.foldlM Document.run ⟨[], []⟩).map fun doc => .table doc.items.toFields

end CommandLanguage.Toml

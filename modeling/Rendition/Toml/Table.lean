import Rendition.Json.Basic

/-!
# Tables

The tables of a configuration text while it is read. A table may come into being in three ways, and
each may be defined only once: a header names it, the header of a table inside it implies it, or a
dotted key goes through it.

## Main definitions

* `Item`: What a key stands for.
* `insert?`: Put a value at a dotted key.
* `openTable?`, `openElement?`: Start the table that a header names.
* `Item.toJson`: The value that an item denotes.
-/

namespace Rendition.Toml

/-- How a table came into being. -/
inductive Origin where
  /-- A header names it. -/
  | header
  /-- The header of a table inside it implies it. -/
  | implied
  /-- A dotted key goes through it. -/
  | dotted
  deriving DecidableEq

/-- What a key stands for. -/
inductive Item where
  | value (value : Json)
  | table (origin : Origin) (members : List (String × Item))
  /-- An array of tables, the last one first. -/
  | tables (last : List (String × Item)) (earlier : List (List (String × Item)))

/-- The members of a table. -/
abbrev Members := List (String × Item)

/-- The members with another item at a key, which is added if it is new. -/
def Members.set (key : String) (item : Item) : Members → Members
  | [] => [(key, item)]
  | (k, old) :: rest => if k = key then (key, item) :: rest else (k, old) :: set key item rest

/-- Put an item at a dotted key. `admits` tells whether the table at
    hand may get keys this way. -/
def insert? (admits : Bool) : List String → Item → Members → Option Members
  | [], _, _ => none
  | [key], item, members =>
    if admits && (members.lookup key).isNone then some (members.set key item) else none
  | key :: path, item, members =>
    match members.lookup key with
    | none => (insert? true path item []).map fun inner => members.set key (.table .dotted inner)
    -- A table with a header of its own gets no keys from elsewhere.
    | some (.table .header _) => none
    | some (.table origin inner) =>
      (insert? (origin = .dotted) path item inner).map fun inner =>
        members.set key (.table origin inner)
    | some _ => none

/-- Change the table at a path. Tables on the way that do not exist are implied; of an array of
    tables the last one counts. -/
def update? (change : Members → Option Members) : List String → Members → Option Members
  | [], members => change members
  | key :: path, members =>
    match members.lookup key with
    | none =>
      (update? change path []).map fun inner => members.set key (.table .implied inner)
    | some (.table origin inner) =>
      (update? change path inner).map fun inner => members.set key (.table origin inner)
    | some (.tables last earlier) =>
      (update? change path last).map fun last => members.set key (.tables last earlier)
    | some (.value _) => none

/-- Change the table that contains the last key of a path. -/
def updateParent? (path : List String) (change : String → Members → Option Members)
    (members : Members) : Option Members :=
  match path.getLast? with
  | none => none
  | some key => update? (change key) path.dropLast members

/-- Start the table that a header names. It may only have been implied before. -/
def openTable? (path : List String) : Members → Option Members :=
  updateParent? path fun key members =>
    match members.lookup key with
    | none => some (members.set key (.table .header []))
    | some (.table .implied inner) => some (members.set key (.table .header inner))
    | some _ => none

/-- Start the next element of the array of tables that a header names. -/
def openElement? (path : List String) : Members → Option Members :=
  updateParent? path fun key members =>
    match members.lookup key with
    | none => some (members.set key (.tables [] []))
    | some (.tables last earlier) => some (members.set key (.tables [] (last :: earlier)))
    | some _ => none

mutual

/-- The value that an item denotes. -/
def Item.toJson : Item → Json
  | .value value => value
  | .table _ members => Json.ofMembers (membersToJson members)
  | .tables last earlier =>
    .array ((Json.ofMembers (membersToJson last) :: tablesToJson earlier).reverse)

/-- The values of the members of a table. -/
def membersToJson : List (String × Item) → List (String × Json)
  | [] => []
  | (key, item) :: rest => (key, item.toJson) :: membersToJson rest

/-- The values of tables. -/
def tablesToJson : List (List (String × Item)) → List Json
  | [] => []
  | members :: rest => Json.ofMembers (membersToJson members) :: tablesToJson rest

end

end Rendition.Toml

/-!
# The tables of a settings file

A settings file is a TOML document, which is a table: entries under keys, in the order in which
they come. An entry is a value, a table of its own, or a series of tables. A table may be opened by
its header, once; it may come about because a table inside it is opened; or it may be made by a key
with dots. What may still be added to it depends on that. `Table.openTable?` gives a header to a
table that has come about; `Table.add?` adds a value to a table that dots have made, which it may
reach through tables that have come about.
-/

namespace TypeFlow.Settings

inductive Value where
  | bool (value : Bool)
  | int (value : Int)
  deriving DecidableEq, Repr

/-- How a table has come to be. -/
inductive Origin where
  /-- By a header of its own. -/
  | header
  /-- By the header of a table inside it. -/
  | inner
  /-- By a key with dots. -/
  | dotted
  deriving DecidableEq, Repr

inductive Item where
  | value (value : Value)
  | table (origin : Origin) (entries : List (String × Item))
  /-- Tables under one header, the one opened last apart from the earlier ones. -/
  | series (last : List (String × Item)) (earlier : List (List (String × Item)))
  deriving Repr

abbrev Table := List (String × Item)

namespace Table

/-- Puts an item in the place of the one under a key, or after all others. -/
def put (table : Table) (key : String) (item : Item) : Table :=
  match table with
  | [] => [(key, item)]
  | entry :: rest => if entry.1 == key then (key, item) :: rest else entry :: put rest key item

/-- Changes the table that a path leads to, where `last` says what to do with the last key. Tables
on the way come about if there are none, and of a series the last one counts. -/
def update? (last : Table → String → Option Table) : List String → Table → Option Table
  | [], _ => none
  | [key], table => last table key
  | key :: next :: path, table =>
    match table.lookup key with
    | none => (update? last (next :: path) []).map fun t => table.put key (.table .inner t)
    | some (.table origin t) =>
      (update? last (next :: path) t).map fun t => table.put key (.table origin t)
    | some (.series t earlier) =>
      (update? last (next :: path) t).map fun t => table.put key (.series t earlier)
    | some (.value _) => none

/-- Opens a table by its header. -/
def openTable? : List String → Table → Option Table :=
  update? fun table key =>
    match table.lookup key with
    | none => some (table.put key (.table .header []))
    | some (.table .inner t) => some (table.put key (.table .header t))
    | some _ => none

/-- Opens a further table of a series. -/
def openNext? : List String → Table → Option Table :=
  update? fun table key =>
    match table.lookup key with
    | none => some (table.put key (.series [] []))
    | some (.series last earlier) => some (table.put key (.series [] (last :: earlier)))
    | some _ => none

/-- Adds a value under a key, which may have dots. A table on the way is made by the dots, or has
come about without a header; and the value's own table is made by the dots. -/
def add? (value : Value) : List String → Table → Option Table
  | [], _ => none
  | [key], table =>
    if (table.lookup key).isNone then some (table.put key (.value value)) else none
  | key :: next :: path, table =>
    match table.lookup key with
    | none => (add? value (next :: path) []).map fun t => table.put key (.table .dotted t)
    | some (.table .dotted t) =>
      (add? value (next :: path) t).map fun t => table.put key (.table .dotted t)
    | some (.table .inner t) =>
      if path.isEmpty then none
      else (add? value (next :: path) t).map fun t => table.put key (.table .inner t)
    | some (.series t earlier) =>
      if path.isEmpty then none
      else (add? value (next :: path) t).map fun t => table.put key (.series t earlier)
    | some (.table .header _) | some (.value _) => none

/-- Adds a value to the table that a path of headers leads to. -/
def addAt? (value : Value) (keys : List String) : List String → Table → Option Table
  | [], table => table.add? value keys
  | key :: path, table =>
    match table.lookup key with
    | some (.table origin t) =>
      (addAt? value keys path t).map fun t => table.put key (.table origin t)
    | some (.series t earlier) =>
      (addAt? value keys path t).map fun t => table.put key (.series t earlier)
    | some (.value _) | none => none

end Table

end TypeFlow.Settings

/-!
# TOML documents

A document is a table of values. A table is written with a header, in braces, or not at all when it
only stands on the path to something else, and this says who may still add to it: to a table in
braces nobody, to one on the path of a header its own header and further paths, and to one on the
path of a dotted key further dotted keys. A key is given a value once, and a header is written once,
unless it is one of an array of tables.
-/

namespace PhpGraft.Toml

/-- A sequence of keys. -/
abbrev Path := List String

/-- How a table came about. -/
inductive Origin where
  /-- It has a header. -/
  | header
  /-- It is on the path of a header. -/
  | implied
  /-- It is on the path of a dotted key. -/
  | dotted
  /-- It is written in braces. -/
  | inline
  deriving DecidableEq, Repr

/-- A value of a document. -/
inductive Value where
  | string (s : String)
  | bool (b : Bool)
  | int (n : Int)
  /-- A float as it is written. -/
  | float (text : String)
  /-- A date, a time or both, as they are written. -/
  | moment (text : String)
  /-- Values in order, or the tables that share a header. -/
  | array (ofTables : Bool) (items : List Value)
  | table (origin : Origin) (entries : List (String × Value))
  deriving Inhabited

/-- Keys and their values, in the order in which the keys came up. -/
abbrev Table := List (String × Value)

/-- The table that a path goes on in behind a value: its origin, its entries, and the value with
other entries in their place. In an array of tables it is the last one, which no dotted key may end
in. -/
def Value.inner? : Value → Option (Origin × Table × (Table → Value))
  | .table origin entries => some (origin, entries, .table origin)
  | .array true items =>
    match items.getLast? with
    | some (.table origin entries) =>
      some (.implied, entries, fun t => .array true (items.dropLast ++ [.table origin t]))
    | _ => none
  | _ => none

namespace Table

/-- The table with a value for a key, in the place of the value that it had. -/
def set (key : String) (v : Value) : Table → Table
  | [] => [(key, v)]
  | entry :: t => if entry.1 = key then (key, v) :: t else entry :: set key v t

/-- Changes the table at the end of a path. What is missing on the path becomes a table of the
origin `fresh`; `passes` says which tables the path may go through, the last one or another. -/
def along (fresh : Origin) (passes : Bool → Origin → Bool) (change : Table → Option Table) :
    Path → Table → Option Table
  | [], t => change t
  | key :: keys, t =>
    match t.lookup key with
    | none => (along fresh passes change keys []).map fun inner => t.set key (.table fresh inner)
    | some v => do
      let (origin, entries, put) ← v.inner?
      if passes keys.isEmpty origin then
        (along fresh passes change keys entries).map fun inner => t.set key (put inner)
      else none

/-- Changes the table at the end of the path of a header. -/
def alongHeader : (Table → Option Table) → Path → Table → Option Table :=
  along .implied fun _ origin => origin != .inline

/-- Changes the table at the end of the path of a dotted key. That table belongs to dotted keys
alone. -/
def alongKeys : (Table → Option Table) → Path → Table → Option Table :=
  along .dotted fun isLast origin => origin == .dotted || (origin == .implied && !isLast)

/-- Gives a key its value, unless it has one. -/
def define (key : String) (v : Value) (t : Table) : Option Table :=
  if (t.lookup key).isSome then none else some (t.set key v)

/-- Gives a table its header. -/
def openTable (key : String) (t : Table) : Option Table :=
  match t.lookup key with
  | none => some (t.set key (.table .header []))
  | some (.table .implied entries) => some (t.set key (.table .header entries))
  | some _ => none

/-- Adds an empty table to an array of tables. -/
def openItem (key : String) (t : Table) : Option Table :=
  match t.lookup key with
  | none => some (t.set key (.array true [.table .header []]))
  | some (.array true items) => some (t.set key (.array true (items ++ [.table .header []])))
  | some _ => none

/-- Splits off the last key of a path, and uses the keys ahead of it and the last key. -/
def withLast (path : Path) (f : Path → String → Option Table) : Option Table :=
  path.getLast?.bind fun key => f path.dropLast key

/-- The table with a value for a key, which can be dotted. -/
def addEntry (path : Path) (v : Value) (t : Table) : Option Table :=
  withLast path fun keys key => alongKeys (define key v) keys t

/-- The table with a table that has a header. -/
def addHeader (path : Path) (t : Table) : Option Table :=
  withLast path fun keys key => alongHeader (openTable key) keys t

/-- The table with one more table of an array. -/
def addItem (path : Path) (t : Table) : Option Table :=
  withLast path fun keys key => alongHeader (openItem key) keys t

end Table

end PhpGraft.Toml

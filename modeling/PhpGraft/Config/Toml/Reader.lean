import PhpGraft.Config.Toml.Document
import PhpGraft.Config.Toml.Moment
import PhpGraft.Config.Toml.Quoted

/-!
# Reading TOML

Values are strings, truth values, integers, floats, moments, arrays and tables in braces. Between
the parts of an array or of a table in braces there can be newlines and comments.
-/

namespace PhpGraft.Toml

open Text

/-! ## Keys -/

/-- Whether a character can stand in a key without quotes. -/
def isBareKeyChar (c : Char) : Bool := c.isAlphanum || c == '_' || c == '-'

/-- Reads a key without dots. -/
def readKey : Read String := fun cs =>
  match readString cs with
  | some found => some found
  | none =>
    let bare := cs.takeWhile isBareKeyChar
    if bare.isEmpty then none else some (String.ofList bare, cs.drop bare.length)

/-- Reads keys with dots between them, of which there are no more than `fuel`. -/
def readKeys : Nat → Read Path
  | 0, _ => none
  | fuel + 1, cs => do
    let (key, rest) ← readKey cs
    match skipGap rest with
    | '.' :: more =>
      let (keys, rest) ← readKeys fuel (skipGap more)
      return (key :: keys, rest)
    | _ => return ([key], rest)

/-- How many arrays and tables in braces can stand in each other, and how many parts a key can have.
-/
def nestingLimit : Nat := 80

/-- Reads a key, which can be dotted. -/
def readPath : Read Path := readKeys nestingLimit

/-! ## Values -/

/-- Reads one of some words and answers what stands for it. -/
def readWord (words : List (String × Value)) : Read Value := fun cs =>
  words.findSome? fun (word, v) => (stripPrefix? word.toList cs).map fun rest => (v, rest)

/-- Reads a text that `after?` goes behind, and keeps it as it is written. -/
def readVerbatim (after? : List Char → Option (List Char)) : Read String := fun cs =>
  (after? cs).map fun rest => (String.ofList (cs.take (cs.length - rest.length)), rest)

/-- Reads a value that is neither an array nor a table. An integer is the last try, for a moment or
a float can start with one. -/
def readScalar : Read Value := fun cs =>
  readWord [("true", .bool true), ("false", .bool false)] cs
  <|> (readLongString '"' cs <|> readLongString '\'' cs <|> readString cs).map
    (fun (s, rest) => (.string s, rest))
  <|> (readVerbatim afterMoment? cs).map (fun (text, rest) => (.moment text, rest))
  <|> (readVerbatim afterFloat? cs).map (fun (text, rest) => (.float text, rest))
  <|> (readInt cs).map fun (n, rest) => (.int n, rest)

mutual

/-- Reads a value in which at most `depth` arrays and tables stand in each other. Every two steps
take a character. -/
def readValue (depth : Nat) : Nat → Read Value
  | 0, _ => none
  | fuel + 1, cs =>
    match depth, cs with
    | inner + 1, '[' :: rest => readItems inner [] fuel rest
    | inner + 1, '\x7b' :: rest => readEntries inner [] fuel rest
    | _, cs => readScalar cs

/-- Reads the rest of an array, where `acc` was read, the last item first. A comma may follow the
last item. -/
def readItems (depth : Nat) (acc : List Value) : Nat → Read Value
  | 0, _ => none
  | fuel + 1, cs =>
    match skipBlank false cs with
    | ']' :: rest => some (.array false acc.reverse, rest)
    | cs => do
      let (v, rest) ← readValue depth fuel cs
      match skipBlank false rest with
      | ',' :: rest => readItems depth (v :: acc) fuel rest
      | ']' :: rest => some (.array false (v :: acc).reverse, rest)
      | _ => none

/-- Reads the rest of a table in braces with some entries. A comma may follow the last one. -/
def readEntries (depth : Nat) (t : Table) : Nat → Read Value
  | 0, _ => none
  | fuel + 1, cs =>
    match skipBlank false cs with
    | '\x7d' :: rest => some (.table .inline t, rest)
    | cs => do
      let (path, rest) ← readPath cs
      match skipBlank false rest with
      | '=' :: rest =>
        let (v, rest) ← readValue depth fuel (skipBlank false rest)
        let t ← t.addEntry path v
        match skipBlank false rest with
        | ',' :: rest => readEntries depth t fuel rest
        | '\x7d' :: rest => some (.table .inline t, rest)
        | _ => none
      | _ => none

end

/-! ## Documents -/

/-- A document as far as it is read. -/
structure Draft where
  /-- What the document holds. -/
  root : Table
  /-- The path of the table that entries belong to. -/
  current : Path

namespace Draft

/-- The draft behind the header of a table. -/
def atTable (d : Draft) (path : Path) : Option Draft :=
  (d.root.addHeader path).map fun root => ⟨root, path⟩

/-- The draft behind the header of a further table of an array. -/
def atItem (d : Draft) (path : Path) : Option Draft :=
  (d.root.addItem path).map fun root => ⟨root, path⟩

/-- The draft with a further entry. -/
def add (d : Draft) (path : Path) (v : Value) : Option Draft :=
  (Table.alongHeader (Table.addEntry path v) d.current d.root).map fun root => { d with root }

/-- Reads a header or an entry, but not the end of its line. -/
def readStatement (d : Draft) (fuel : Nat) : Read Draft
  | '[' :: '[' :: cs => do
    let (path, rest) ← readPath (skipGap cs)
    let rest ← stripPrefix? [']', ']'] (skipGap rest)
    return (← d.atItem path, rest)
  | '[' :: cs => do
    let (path, rest) ← readPath (skipGap cs)
    let rest ← stripPrefix? [']'] (skipGap rest)
    return (← d.atTable path, rest)
  | cs => do
    let (path, rest) ← readPath cs
    let rest ← stripPrefix? ['='] (skipGap rest)
    let (v, rest) ← readValue nestingLimit fuel (skipGap rest)
    return (← d.add path v, rest)

/-- Reads the rest of a document. Every two steps take a character. -/
def readRest (d : Draft) : Nat → List Char → Option Table
  | 0, _ => none
  | fuel + 1, cs =>
    match skipBlank false cs with
    | [] => some d.root
    | cs => do
      let (d, rest) ← d.readStatement fuel cs
      readRest d fuel (← lineEnd? rest)

end Draft

/-- Reads a document. A byte order mark at the front is skipped. -/
def readDocument (source : String) : Option Table :=
  let cs := source.toList
  let cs := if cs.head? == some '\ufeff' then cs.drop 1 else cs
  Draft.readRest ⟨[], []⟩ (2 * cs.length + 2) cs

end PhpGraft.Toml

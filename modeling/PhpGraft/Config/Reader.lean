import PhpGraft.Config.Error
import PhpGraft.Config.Settings
import PhpGraft.Config.Toml.Document
import PhpGraft.Text.Ascii
import PhpGraft.Text.Lines

/-!
# Reading settings

Settings are written as TOML. What reads the document in a source is a parameter: the settings are
those that the document holds, whatever reads it. A key that is no setting, or a value of another
form, spoils them. Then the width of indentation is checked, and after it each namespace prefix with
its directory, in the order of the prefixes.
-/

namespace PhpGraft

open Text Toml

/-! ## Settings of a document -/

namespace Toml

namespace Value

/-- The key of a moment where it is taken for a table. -/
def momentKey : String := "$__toml_private_datetime"

/-- The entries of a table. A moment is taken for a table with its text under one key. -/
def entries? : Value → Option Table
  | .table _ entries => some entries
  | .moment text => some [(momentKey, .string text)]
  | _ => none

/-- The values of some fields: a table gives them by name, and an array in the order of the fields,
where values without a field do not count. -/
def fields? (names : List String) : Value → Option Table
  | .array _ items => some (names.zip items)
  | v => v.entries?

/-- The strings of a table. -/
def strings? (v : Value) : Option (List (String × String)) := do
  (← v.entries?).mapM fun (key, v) =>
    match v with
    | .string s => some (key, s)
    | _ => none

end Value

end Toml

namespace GeneratorSettings

/-- The names of the settings, in order. -/
def names : List String := ["strict_types", "typed", "indent"]

/-- The greatest number that is read as a width of indentation. -/
def maxWidth : Nat := 255

/-- The settings with one more value, if it is one of theirs. -/
def set (s : GeneratorSettings) : String × Value → Option GeneratorSettings
  | ("strict_types", .bool b) => some { s with strictTypes := b }
  | ("typed", .bool b) => some { s with typed := b }
  | ("indent", .int n) =>
    if 0 ≤ n ∧ n ≤ maxWidth then some { s with indentWidth := n.toNat } else none
  | _ => none

/-- The settings that a value holds. -/
def ofValue (v : Value) : Option GeneratorSettings := do (← v.fields? names).foldlM set {}

end GeneratorSettings

namespace Settings

/-- The namespace prefixes that a value holds, in order. -/
def prefixesOf (v : Value) : Option (List (String × String)) := do
  match ← v.fields? ["psr-4"] with
  | [] => return []
  | [("psr-4", roots)] => return (← roots.strings?).mergeSort fun a b => a.1 ≤ b.1
  | _ => none

/-- The settings with one more value, if it is one of theirs. -/
def set (s : Settings) : String × Value → Option Settings
  | ("generator", v) => (GeneratorSettings.ofValue v).map fun generator => { s with generator }
  | ("autoload", v) => (prefixesOf v).map fun psr4 => { s with psr4 }
  | _ => none

/-- The settings that a document holds. -/
def ofDocument (d : Table) : Option Settings := d.foldlM set {}

end Settings

/-! ## Checks of values -/

namespace PrefixFault

/-- What is wrong with a name in a prefix. -/
def inName? : List Char → Option PrefixFault
  | [] => some emptyName
  | c :: cs =>
    if !isAsciiIdentStart c then some badStart
    else if cs.all isAsciiIdentChar then none
    else some badCharacter

/-- What is wrong with a prefix. A prefix is empty, or each of its names has a backslash behind it.
-/
def of? (namespacePrefix : String) : Option PrefixFault :=
  let cs := namespacePrefix.toList
  if cs.isEmpty then none
  else if cs.head? == some '\\' then some leadingBackslash
  else if cs.getLast? != some '\\' then some noBackslash
  else (splitOn '\\' cs.dropLast).findSome? inName?

end PrefixFault

namespace SettingsError

/-- The place of the key in a line that gives it a value. -/
def keyColumn? (key line : List Char) : Option Nat :=
  let trimmed := trimStart line
  match stripPrefix? key trimmed with
  | some rest =>
    if (trimStart rest).head? == some '=' then some (byteLength line - byteLength trimmed) else none
  | none => none

/-- The place of a key in the first of some lines that gives it a value. The first line has `offset`
bytes ahead of it, and each line one byte behind it. -/
def keySpanFrom? (key : List Char) (offset : Nat) : List (List Char) → Option (Nat × Nat)
  | [] => none
  | line :: lines =>
    match keyColumn? key line with
    | some column => some (offset + column, byteLength key)
    | none => keySpanFrom? key (offset + byteLength line + 1) lines

/-- The place of a key in a source. -/
def keySpan? (source key : String) : Option (Nat × Nat) :=
  keySpanFrom? key.toList 0 (lines source.toList)

/-- The first place of a text in a source. -/
def textSpan? (source : List Char) (text : List Char) : Option (Nat × Nat) :=
  (indexOf? text source).map fun i => (byteLength (source.take i), byteLength text)

/-- A text with every backslash twice. -/
def doubled (cs : List Char) : List Char := cs.flatMap fun c => if c = '\\' then [c, c] else [c]

/-- The place of a prefix in a source: in double quotes, or else in single quotes. -/
def prefixSpan? (source namespacePrefix : String) : Option (Nat × Nat) :=
  let cs := namespacePrefix.toList
  let basic := ['"'] ++ doubled cs ++ ['"']
  let raw := ['\''] ++ cs ++ ['\'']
  (textSpan? source.toList basic).or (textSpan? source.toList raw)

end SettingsError

namespace Settings

/-- The widths of indentation that are allowed. -/
def widths : List Nat := [0, 2, 4, 8]

/-- What is wrong with a prefix or its directory. -/
def rootFault? (root : String × String) : Option SettingsFault :=
  match PrefixFault.of? root.1 with
  | some fault => some (.invalidPrefix root.1 fault)
  | none => if root.2.isEmpty then some (.emptyDirectory root.1) else none

/-- The first fault in settings that were read from a source. -/
def fault? (source : String) (s : Settings) : Option SettingsError :=
  let width := s.generator.indentWidth
  if !widths.contains width then
    some ⟨.indentWidth width, SettingsError.keySpan? source "indent"⟩
  else
    s.psr4.findSome? fun root =>
      (rootFault? root).map fun fault => ⟨fault, SettingsError.prefixSpan? source root.1⟩

/-- Reads settings from their source, where `document?` reads the document. -/
def readWith (document? : String → Option Table) (source : String) :
    Except SettingsError Settings :=
  match (document? source).bind ofDocument with
  | none => .error ⟨.malformed, none⟩
  | some s =>
    match s.fault? source with
    | some e => .error e
    | none => .ok s

end Settings

end PhpGraft

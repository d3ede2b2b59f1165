import PhpGraft.Error
import PhpGraft.Model.Name
import PhpGraft.Syntax.TypeHint

/-!
# Types of members

A type is a built-in type or the name of a class, and may be nullable. It is declared with a
question mark and documented with `|null`. A declared type of any other form is kept as it stands.
-/

namespace PhpGraft

/-- A single type. -/
structure TypeSpec where
  /-- Whether null belongs to the type. -/
  nullable : Bool
  /-- The name without a backslash at the front; built-in types are in lower case. -/
  base : String
  /-- Whether the name is a built-in type. -/
  builtin : Bool
  /-- Whether a backslash stands at the front. -/
  rooted : Bool
  deriving DecidableEq, Repr, Inhabited

namespace TypeSpec

/-- The types that need no import, in lower case. -/
def builtins : List String :=
  ["array", "bool", "callable", "float", "int", "iterable", "mixed", "never", "null", "object",
    "self", "static", "parent", "string", "void", "false", "true"]

/-- The built-in types that contain null already or cannot contain it. -/
def neverNullable : List String := ["void", "mixed", "null", "never"]

/-- The name with its backslash. -/
def qualified (t : TypeSpec) : String := if t.rooted then "\\" ++ t.base else t.base

/-- The names of the type and of null, if the type contains it. -/
def alternatives (t : TypeSpec) : List String :=
  t.qualified :: if t.nullable then ["null"] else []

/-- The type as it is declared. -/
def hint (t : TypeSpec) : TypeHint := ⟨t.nullable, t.qualified⟩

/-- The type as it is written. -/
def text (t : TypeSpec) : String := t.hint.text

/-- The type as it is documented. -/
def docType (t : TypeSpec) : String := "|".intercalate t.alternatives

/-- Reads a type. -/
def parse (raw : String) : Except Error TypeSpec :=
  let text := Text.trim raw.toList
  let nullable := text.head? == some '?'
  let text := if nullable then text.drop 1 else text
  let rooted := text.head? == some '\\'
  let name := if rooted then text.drop 1 else text
  let lower := Text.lowerAscii (String.ofList name)
  let builtin := builtins.contains lower
  if !Name.isQualified name then .error (.invalidType raw .notAName)
  else if builtin && rooted then .error (.invalidType raw .rootedBuiltin)
  else if builtin && nullable && neverNullable.contains lower then
    .error (.invalidType raw (.notNullable lower))
  else .ok ⟨nullable, if builtin then lower else String.ofList name, builtin, rooted⟩

/-- The type that is declared. A union or an intersection is kept as it stands. -/
def ofHint (h : TypeHint) : TypeSpec :=
  match parse h.text with
  | .ok t => t
  | .error _ => ⟨h.nullable, h.name, false, false⟩

/-- The type that is documented, if it is a single type in its usual spelling. -/
def ofDocType? (doc : String) : Option TypeSpec :=
  let chars := doc.toList
  let suffix := "|null".toList
  let raw :=
    if suffix.isSuffixOf chars then
      String.ofList ('?' :: chars.take (chars.length - suffix.length))
    else doc
  match parse raw with
  | .ok t => if t.docType = doc then some t else none
  | .error _ => none

end TypeSpec

end PhpGraft

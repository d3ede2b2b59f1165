/-!
# Declared types

A type as it stands in a declaration: a name, or names joined by `|` or `&`, that may be nullable.
-/

namespace PhpGraft

/-- A declared type: `int`, `?Foo\Bar`, `int|string`. -/
structure TypeHint where
  /-- Whether a question mark stands ahead of the name. -/
  nullable : Bool
  /-- The name, or several names with their separators. -/
  name : String
  deriving DecidableEq, Repr, Inhabited

/-- A type as it is written. -/
def TypeHint.text (h : TypeHint) : String := (if h.nullable then "?" else "") ++ h.name

end PhpGraft

/-!
# Indentation

One level of indentation is a tab or a number of spaces. A width of zero stands for a tab, and no
level is wider than eight spaces.
-/

namespace PhpGraft

/-- One level of indentation. -/
inductive Indent where
  /-- A number of spaces; what exceeds eight is not written. -/
  | spaces (width : Nat)
  /-- A tab. -/
  | tab
  deriving DecidableEq, Repr, Inhabited

namespace Indent

/-- Four spaces. -/
def standard : Indent := .spaces 4

/-- The level of a given width, where zero stands for a tab. -/
def ofWidth (width : Nat) : Indent := if width = 0 then .tab else .spaces width

/-- The text of one level. -/
def unit : Indent → String
  | .spaces width => "".pushn ' ' (min width 8)
  | .tab => "\t"

end Indent

end PhpGraft

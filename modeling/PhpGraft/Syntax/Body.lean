import PhpGraft.Text.Ascii
import PhpGraft.Text.Lines

/-!
# Blocks of statements

The statements between two braces are kept as lines. The indentation that the lines have in common
is taken off, and so is what trails them; blank lines at either end are dropped. The text of a
heredoc or nowdoc, its closing line included, is raw: those lines keep every character.
-/

namespace PhpGraft

/-- A line of a body. -/
structure BodyLine where
  /-- The characters of the line. -/
  text : String
  /-- Whether the line is written without any indentation of its own. -/
  raw : Bool
  deriving DecidableEq, Repr, Inhabited

/-- Whether a line can be dropped at an end of a body. -/
def BodyLine.isDroppable (l : BodyLine) : Bool := !l.raw && l.text.isEmpty

/-- A block of statements, line by line. -/
structure Body where
  /-- The lines of the block. -/
  lines : List BodyLine
  deriving DecidableEq, Repr, Inhabited

namespace Body

open Text

/-- Whether a character is a quotation mark. -/
def isQuote (c : Char) : Bool := c == '\'' || c == '"'

/-- The label of a heredoc or nowdoc opened at the end of a line. -/
def heredocLabel? (line : List Char) : Option (List Char) :=
  (afterLast? ['<', '<', '<'] line).bind fun rest =>
    let label := trimWhile isQuote (trim rest)
    if isAsciiIdent label then some label else none

/-- Whether a line closes the heredoc with the given label. -/
def closesHeredoc (label line : List Char) : Bool :=
  match stripPrefix? label (trimStart line) with
  | some after => !(after.head?.any isAsciiIdentChar)
  | none => false

/-- For each line, whether it belongs to the text of a heredoc. An opener that no line closes marks
none. -/
def rawFlags : List (List Char) → List Bool
  | [] => []
  | line :: rest =>
    match (heredocLabel? line).bind fun label => rest.findIdx? (closesHeredoc label) with
    | some i => false :: (List.replicate (i + 1) true ++ rawFlags (rest.drop (i + 1)))
    | none => false :: rawFlags rest
termination_by lines => lines.length
decreasing_by all_goals simp; try omega

/-- The width of the white space that a line starts with. -/
def indentation (line : List Char) : Nat := (line.takeWhile isBlank).length

/-- The indentation that the lines which are neither raw nor blank have in common. -/
def commonIndentation (lines : List (List Char × Bool)) : Nat :=
  let widths := (lines.filter fun l => !l.2 && !l.1.all isBlank).map fun l => indentation l.1
  widths.min?.getD 0

/-- The lines of a fragment of source as a body. -/
def ofSource (fragment : List Char) : Body :=
  let source := Text.lines fragment
  let flagged := source.zip (rawFlags source)
  let width := commonIndentation flagged
  let lines := flagged.map fun l =>
    if l.2 then BodyLine.mk (String.ofList l.1) true
    else BodyLine.mk (String.ofList ((trimEnd l.1).drop width)) false
  ⟨(dropTailWhile BodyLine.isDroppable lines).dropWhile BodyLine.isDroppable⟩

/-- A body of lines none of which is raw. -/
def ofLines (lines : List String) : Body := ⟨lines.map (⟨·, false⟩)⟩

/-- Whether a body has no lines. -/
def isEmpty (b : Body) : Bool := b.lines.isEmpty

/-- The lines of a body with newlines between them. -/
def text (b : Body) : String := "\n".intercalate (b.lines.map BodyLine.text)

end Body

end PhpGraft

import PhpGraft.Syntax.Indent
import PhpGraft.Text.Lines

/-!
# Indented output

Source is written line by line at a depth of nesting. A buffer holds the lines written so far
together with the depth at which the next one stands.
-/

namespace PhpGraft

/-- Lines written so far, and the depth of what follows. -/
structure LineBuffer where
  /-- One level of indentation. -/
  indent : Indent
  /-- The number of levels ahead of the next line. -/
  depth : Nat
  /-- The lines written so far without the newlines that end them, the last one first. -/
  written : List String
  deriving Inhabited

namespace LineBuffer

/-- A buffer with nothing written. -/
def empty (indent : Indent) : LineBuffer := ⟨indent, 0, []⟩

/-- The text written so far. -/
def text (b : LineBuffer) : String := String.join (b.written.reverse.map (· ++ "\n"))

/-- The white space ahead of a line at the present depth. -/
def margin (b : LineBuffer) : String := String.join (List.replicate b.depth b.indent.unit)

/-- Writes a line without indentation. -/
def raw (b : LineBuffer) (s : String) : LineBuffer := { b with written := s :: b.written }

/-- Writes a line at the present depth. -/
def line (b : LineBuffer) (s : String) : LineBuffer := b.raw (b.margin ++ s)

/-- Writes an empty line. -/
def blank (b : LineBuffer) : LineBuffer := b.raw ""

/-- Writes a line at the present depth, or an empty line for an empty text. -/
def lineOrBlank (b : LineBuffer) (s : String) : LineBuffer :=
  if s.isEmpty then b.blank else b.line s

/-- Writes lines at the present depth; empty ones stay empty. -/
def lines (b : LineBuffer) (l : List String) : LineBuffer := l.foldl lineOrBlank b

/-- Writes source as it stands: only its first line is indented, and what trails a line is dropped.
-/
def verbatim (b : LineBuffer) (source : String) : LineBuffer :=
  match (Text.lines source.toList).map fun l => String.ofList (Text.trimEnd l) with
  | [] => b
  | first :: rest => rest.foldl raw (b.line first)

/-- Writes text behind the last line, or as a line of its own where there is none. -/
def trailing (b : LineBuffer) (s : String) : LineBuffer :=
  match b.written with
  | [] => b.raw s
  | last :: before => { b with written := (last ++ s) :: before }

/-- One level deeper. -/
def deeper (b : LineBuffer) : LineBuffer := { b with depth := b.depth + 1 }

/-- One level less deep, but never less than none. -/
def shallower (b : LineBuffer) : LineBuffer := { b with depth := b.depth - 1 }

/-- What `f` writes, one level deeper. -/
def nested (b : LineBuffer) (f : LineBuffer → LineBuffer) : LineBuffer := (f b.deeper).shallower

end LineBuffer

end PhpGraft

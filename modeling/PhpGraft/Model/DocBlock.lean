import PhpGraft.Text.Lines

/-!
# Doc blocks

A doc block is free text followed by tags, each with a name and a value. It is written as a comment
on one line if it has only one, and else with a star ahead of each line.
-/

namespace PhpGraft

open Text

/-- The text and the tags of a doc comment. -/
structure DocBlock where
  /-- The lines of free text. -/
  summary : List String := []
  /-- The names and values of the tags. -/
  tags : List (String × String) := []
  deriving DecidableEq, Repr, Inhabited

namespace DocBlock

/-- The block with further lines of free text. -/
def addSummary (b : DocBlock) (text : String) : DocBlock :=
  { b with summary := b.summary ++
      (lines text.toList).map fun l => String.ofList (trimEnd l) }

/-- The block with a further tag. -/
def addTag (b : DocBlock) (name value : String) : DocBlock :=
  { b with tags := b.tags ++ [(name, value)] }

/-- The free text, if there is any. -/
def summaryText? (b : DocBlock) : Option String :=
  if b.summary.isEmpty then none else some ("\n".intercalate b.summary)

/-- The value of the first tag of a name. -/
def findTag? (b : DocBlock) (name : String) : Option String := b.tags.lookup name

/-- Whether a block has neither text nor tags. -/
def isEmpty (b : DocBlock) : Bool := b.summary.isEmpty && b.tags.isEmpty

/-- A tag as it is written. -/
def tagLine (tag : String × String) : String :=
  if tag.2.isEmpty then "@" ++ tag.1 else "@" ++ tag.1 ++ " " ++ tag.2

/-- The lines that a block shows. Between text and tags there is an empty one. -/
def shown (b : DocBlock) : List String :=
  b.summary ++ (if b.summary.isEmpty || b.tags.isEmpty then [] else [""]) ++ b.tags.map tagLine

/-- A line inside a comment of several lines. -/
def starred (line : String) : String := if line.isEmpty then " *\n" else " * " ++ line ++ "\n"

/-- The block as a comment, or nothing for an empty block. -/
def render? (b : DocBlock) : Option String :=
  match b.shown with
  | [] => none
  | [line] => some ("/** " ++ line ++ " */")
  | lines => some ("/**\n" ++ String.join (lines.map starred) ++ " */")

/-- A line of a comment without the white space and the star ahead of its text. -/
def unstarred (line : List Char) : List Char :=
  let line := trim line
  if line.head? == some '*' then trim (line.drop 1) else line

/-- The text between the marks of a comment. -/
def inner (comment : List Char) : List Char :=
  let cs := trim comment
  let cs := (stripPrefix? ['/', '*', '*'] cs).getD cs
  if ['*', '/'].isSuffixOf cs then cs.take (cs.length - 2) else cs

/-- The name and the value of a tag, given behind its mark. -/
def splitTag (cs : List Char) : String × String :=
  let name := cs.takeWhile (!isBlank ·)
  (String.ofList name, String.ofList (trim (cs.drop name.length)))

/-- A block with one more line: a tag, a continuation of the last tag, or free text. The tags are in
reverse order. -/
def addLine (b : DocBlock) (line : List Char) : DocBlock :=
  match line, b.tags with
  | '@' :: tag, tags => { b with tags := splitTag tag :: tags }
  | [], _ :: _ => b
  | cs, (name, value) :: tags =>
    { b with tags := (name, value ++ " " ++ String.ofList cs) :: tags }
  | cs, [] => { b with summary := b.summary ++ [String.ofList cs] }

/-- Reads a comment. Empty lines at either end of the free text are dropped. -/
def parse (comment : String) : DocBlock :=
  let b := ((lines (inner comment.toList)).map unstarred).foldl addLine {}
  { summary := (dropTailWhile String.isEmpty b.summary).dropWhile String.isEmpty
    tags := b.tags.reverse }

end DocBlock

/-- A comment of free text only, if there is any. -/
def renderSummary? (comment? : Option String) : Option String :=
  comment?.bind fun comment => (DocBlock.addSummary {} comment).render?

/-- The free text of a comment, if there is any. -/
def summaryOf? (doc? : Option String) : Option String :=
  doc?.bind fun doc => (DocBlock.parse doc).summaryText?

end PhpGraft

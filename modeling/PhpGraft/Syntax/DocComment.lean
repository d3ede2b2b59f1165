import PhpGraft.Text.Lines

/-!
# Doc comments

A doc comment is stored with each line trimmed; a line after the first that starts with a star gets
one space ahead of it.
-/

namespace PhpGraft.DocComment

open Text

/-- A line of a doc comment other than its first one as it is stored. -/
def continuation (line : List Char) : List Char :=
  let line := trim line
  if line.head? = some '*' then ' ' :: line else line

/-- A doc comment as it is stored. -/
def normalize (comment : List Char) : List Char :=
  match lines comment with
  | [] => []
  | first :: rest => joinWith ['\n'] (trim first :: rest.map continuation)

/-- A doc comment, given as a string, as it is stored. -/
def normalized (comment : String) : String := String.ofList (normalize comment.toList)

end PhpGraft.DocComment

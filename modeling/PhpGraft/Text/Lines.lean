import PhpGraft.Text.Blank

/-!
# Lines of a text

A row is a line together with the newline that ends it; the rows of a text put together are the
text. A line is a row without its newline and without the one carriage return ahead of it.
-/

namespace PhpGraft.Text

/-- The rows of a text: each but the last ends with its newline. -/
def rows : List Char → List (List Char)
  | [] => []
  | c :: cs =>
    if c = '\n' then [c] :: rows cs
    else
      match rows cs with
      | [] => [[c]]
      | row :: rest => (c :: row) :: rest

/-- A row without the newline, or the carriage return and newline, that ends it. -/
def lineOfRow (row : List Char) : List Char :=
  if row.getLast? = some '\n' then
    let line := row.dropLast
    if line.getLast? = some '\r' then line.dropLast else line
  else row

/-- The lines of a text. A newline at the very end starts no further line. -/
def lines (cs : List Char) : List (List Char) := (rows cs).map lineOfRow

/-- The lines of a string. -/
def linesOf (s : String) : List String := (lines s.toList).map String.ofList

/-- The number of newlines in a text. -/
def newlineCount (cs : List Char) : Nat := cs.count '\n'

/-- The rows of a text put together are the text. -/
theorem flatten_rows (cs : List Char) : (rows cs).flatten = cs := by
  induction cs with
  | nil => rfl
  | cons c cs ih =>
    unfold rows
    split
    · simp [ih]
    · split
      · next h => simp [h] at ih; simp [← ih]
      · next row rest h => simp [h] at ih; simp [ih]

end PhpGraft.Text

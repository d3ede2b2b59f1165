import PhpGraft.Text.Blank

/-!
# File paths

A path is text with slashes between its parts. Paths are joined without being simplified: an
absolute path takes the place of what it is joined to. Two paths lead to the same place when they
have the same parts, where repeated and trailing slashes, and dots behind the first part, count for
nothing.
-/

namespace PhpGraft.FilePath

open Text

/-- Whether a path starts at the root. -/
def isAbsolute (path : String) : Bool := path.toList.head? == some '/'

/-- A path with another one behind it. -/
def join (path more : String) : String :=
  if isAbsolute more then more
  else
    match path.toList.getLast? with
    | none => more
    | some c => if c = '/' then path ++ more else path ++ "/" ++ more

/-- Whether a piece between slashes counts for nothing. -/
def isIdle (piece : List Char) : Bool := piece.isEmpty || piece == ['.']

/-- The parts of a path that count: a leading slash or dot, and the names. -/
def parts (path : String) : List (List Char) :=
  let pieces := splitOn '/' path.toList
  let names := pieces.filter fun piece => !isIdle piece
  if isAbsolute path then ['/'] :: names
  else if pieces.head? == some ['.'] then ['.'] :: names
  else names

/-- Whether two paths lead to the same place. -/
def same (a b : String) : Bool := parts a == parts b

/-- The directory that a path lies in. The root and the empty path lie in none. -/
def parent? (path : String) : Option String :=
  match splitOn '/' path.toList with
  | [] => none
  | first :: rest =>
    match dropTailWhile isIdle rest with
    | [] => if first.isEmpty then none else some ""
    | named =>
      let above := dropTailWhile isIdle named.dropLast
      if first.isEmpty && above.isEmpty then some "/"
      else some (String.ofList (joinWith ['/'] (first :: above)))

end PhpGraft.FilePath

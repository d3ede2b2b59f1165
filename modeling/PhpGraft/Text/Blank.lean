/-!
# White space and searches in text

Text is handled as a list of characters. White space is the Unicode property `White_Space`; trimming
removes it from either end. The searches find the first place where a given run of characters
stands.
-/

namespace PhpGraft.Text

/-- Whether a character has the Unicode property `White_Space`. -/
def isBlank (c : Char) : Bool :=
  let n := c.toNat
  (9 ≤ n && n ≤ 13) || n == 0x20 || n == 0x85 || n == 0xA0 || n == 0x1680 ||
    (0x2000 ≤ n && n ≤ 0x200A) || n == 0x2028 || n == 0x2029 || n == 0x202F || n == 0x205F ||
    n == 0x3000

/-- A text without its leading white space. -/
def trimStart (cs : List Char) : List Char := cs.dropWhile isBlank

/-- A list without the longest tail whose members all satisfy a test. -/
def dropTailWhile {α : Type} (p : α → Bool) (l : List α) : List α :=
  (l.reverse.dropWhile p).reverse

/-- A text without its trailing white space. -/
def trimEnd (cs : List Char) : List Char := dropTailWhile isBlank cs

/-- A text without white space at either end. -/
def trim (cs : List Char) : List Char := trimEnd (trimStart cs)

/-- A list without the members at either end that satisfy a test. -/
def trimWhile (p : Char → Bool) (cs : List Char) : List Char := dropTailWhile p (cs.dropWhile p)

/-- A string without white space at either end. -/
def trimmed (s : String) : String := String.ofList (trim s.toList)

/-- The number of characters ahead of the first occurrence of `pat`. -/
def indexOf? (pat : List Char) : List Char → Option Nat
  | [] => if pat.isEmpty then some 0 else none
  | c :: cs => if pat.isPrefixOf (c :: cs) then some 0 else (indexOf? pat cs).map (· + 1)

/-- What stands before and after the first occurrence of `pat`. -/
def splitOnce? (pat : List Char) (cs : List Char) : Option (List Char × List Char) :=
  (indexOf? pat cs).map fun i => (cs.take i, cs.drop (i + pat.length))

/-- What follows `pat`, if a text starts with it. -/
def stripPrefix? (pat cs : List Char) : Option (List Char) :=
  if pat.isPrefixOf cs then some (cs.drop pat.length) else none

/-- What follows the last occurrence of `pat`. -/
def afterLast? (pat : List Char) : List Char → Option (List Char)
  | [] => if pat.isEmpty then some [] else none
  | c :: cs =>
    match afterLast? pat cs with
    | some rest => some rest
    | none => stripPrefix? pat (c :: cs)

/-- The pieces between the occurrences of a separator. -/
def splitOn (sep : Char) : List Char → List (List Char)
  | [] => [[]]
  | c :: cs =>
    if c = sep then [] :: splitOn sep cs
    else
      match splitOn sep cs with
      | [] => [[c]]
      | piece :: pieces => (c :: piece) :: pieces

/-- Pieces put together with a separator between them. -/
def joinWith (sep : List Char) : List (List Char) → List Char
  | [] => []
  | [piece] => piece
  | piece :: pieces => piece ++ sep ++ joinWith sep pieces

/-- The number of bytes that a text takes in UTF-8. -/
def byteLength : List Char → Nat
  | [] => 0
  | c :: cs => c.utf8Size + byteLength cs

/-- Dropping members at the front does not make a list longer. -/
theorem length_dropWhile_le {α : Type} (p : α → Bool) (l : List α) :
    (l.dropWhile p).length ≤ l.length :=
  (List.dropWhile_sublist p).length_le

end PhpGraft.Text

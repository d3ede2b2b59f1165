import PhpGraft.Text.Ascii
import PhpGraft.Text.Blank

/-!
# Names of classes and namespaces

A qualified name is one or more ASCII identifiers joined by single backslashes. Two class names are
the same when they differ at most in backslashes at the front and in the case of ASCII letters.
-/

namespace PhpGraft.Name

open Text

/-- Whether a string is an identifier. -/
def isIdentifier (s : String) : Bool := isAsciiIdent s.toList

/-- Whether a text is one or more identifiers joined by single backslashes. -/
def isQualified (cs : List Char) : Bool := (splitOn '\\' cs).all isAsciiIdent

/-- A name without backslashes at the front. -/
def unrooted (name : String) : String := String.ofList (name.toList.dropWhile (· == '\\'))

/-- A name without backslashes at either end. -/
def bare (name : String) : String := String.ofList (trimWhile (· == '\\') name.toList)

/-- What all spellings of a class name have in common. -/
def key (name : String) : String := lowerAscii (unrooted name)

/-- Whether two names are spellings of one class name. -/
def same (a b : String) : Bool := key a == key b

/-- The wanted things whose names are not among the known ones, each name once and in order. -/
def missing {α : Type} (nameOf : α → String) (known : List String) : List α → List α
  | [] => []
  | x :: wanted =>
    if known.any (same · (nameOf x)) then missing nameOf known wanted
    else x :: missing nameOf (known ++ [nameOf x]) wanted

end PhpGraft.Name

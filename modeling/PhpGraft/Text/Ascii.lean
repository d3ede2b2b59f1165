/-!
# ASCII classes and case

Names compare without regard to the case of ASCII letters. A character outside ASCII counts as part
of an identifier, but has no case here.
-/

namespace PhpGraft.Text

/-- A string with its ASCII letters in lower case. -/
def lowerAscii (s : String) : String := String.ofList (s.toList.map Char.toLower)

/-- Whether two strings differ at most in the case of ASCII letters. -/
def eqIgnoreCase (a b : String) : Bool := lowerAscii a == lowerAscii b

/-- Whether a character can start an identifier: an ASCII letter, an underscore or any character
outside ASCII. -/
def isIdentStart (c : Char) : Bool := c.isAlpha || c == '_' || 128 ≤ c.toNat

/-- Whether a character can continue an identifier. -/
def isIdentChar (c : Char) : Bool := c.isAlphanum || c == '_' || 128 ≤ c.toNat

/-- Whether a character can start an identifier made of ASCII characters only. -/
def isAsciiIdentStart (c : Char) : Bool := c.isAlpha || c == '_'

/-- Whether a character can continue an identifier made of ASCII characters only. -/
def isAsciiIdentChar (c : Char) : Bool := c.isAlphanum || c == '_'

/-- Whether a text is an ASCII identifier. -/
def isAsciiIdent : List Char → Bool
  | [] => false
  | c :: cs => isAsciiIdentStart c && cs.all isAsciiIdentChar

end PhpGraft.Text

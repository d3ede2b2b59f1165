import PhpGraft.Text.Blank
import PhpGraft.Text.Case

/-!
# Naming styles

A name falls into words: at underscores, hyphens and white space, and before a capital that follows
a small letter or a digit. The styles differ in how they write the words and what they put between
them.
-/

namespace PhpGraft.Naming

/-- Whether a character stands between words and belongs to none. -/
def isSeparator (c : Char) : Bool := c == '_' || c == '-' || Text.isBlank c

/-- The words of a text that follows the word `current`, which `afterSmall` says to end with a small
letter or a digit. -/
def wordsAfter (current : List Char) (afterSmall : Bool) : List Char → List (List Char)
  | [] => if current.isEmpty then [] else [current]
  | c :: cs =>
    if isSeparator c then
      let rest := wordsAfter [] false cs
      if current.isEmpty then rest else current :: rest
    else
      let small := Text.isLowercase c || c.isDigit
      if Text.isUppercase c && afterSmall && !current.isEmpty then
        current :: wordsAfter [c] small cs
      else wordsAfter (current ++ [c]) small cs

/-- The words of a name. -/
def words (name : String) : List (List Char) := wordsAfter [] false name.toList

/-- A word with its first character in capitals. -/
def capitalize : List Char → List Char
  | [] => []
  | c :: cs => Text.upperChar c ++ cs

/-- The name in the style of `HelloWorld`. -/
def pascal (name : String) : String := String.ofList ((words name).flatMap capitalize)

/-- The name in the style of `helloWorld`. -/
def camel (name : String) : String :=
  match (pascal name).toList with
  | [] => ""
  | c :: cs => String.ofList (Text.lowerChar c ++ cs)

/-- The name in the style of `hello_world`. -/
def snake (name : String) : String :=
  String.ofList (Text.joinWith ['_'] ((words name).map Text.lower))

/-- The name in the style of `HELLO_WORLD`. -/
def screaming (name : String) : String := String.ofList (Text.upper (snake name).toList)

/-- The name of the method that reads a property. -/
def getter (property : String) : String := "get" ++ pascal property

end PhpGraft.Naming

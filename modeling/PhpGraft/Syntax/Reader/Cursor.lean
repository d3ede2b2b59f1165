import PhpGraft.Syntax.DocComment
import PhpGraft.Syntax.ParseError
import PhpGraft.Syntax.Token

/-!
# Reading from a list of tokens

A reader takes tokens from the front of a list and leaves the rest; it fails where the tokens do not
have the form that it reads, and the caller still holds the list that it started from. Doc comments
are passed over unless they are asked for. A list that has run out reads like the end of the source.
-/

namespace PhpGraft

/-- Takes tokens from the front of a list, or fails. -/
abbrev Reader (α : Type) := StateT (List Token) Option α

/-- An error about a token. -/
def Token.error (t : Token) (cause : ParseCause) : ParseError := ⟨cause, t.start, t.size⟩

namespace Reader

/-- Whether a token is a doc comment. -/
def isDoc (t : Token) : Bool := t.kind == .docComment

/-- The tokens from the first one that is no doc comment. -/
def skipDocs (ts : List Token) : List Token := ts.dropWhile isDoc

/-- What the next token is where there is none: the end of the source. -/
def ended : Token := ⟨.eof, [], [], 0⟩

/-- The next token that is no doc comment, or an end of source where there is none. -/
def peek (ts : List Token) : Token := (skipDocs ts).head?.getD ended

/-- The tokens behind the next one. -/
def advance (ts : List Token) : List Token := (skipDocs ts).tail

/-- The token behind the next one. -/
def peekSecond (ts : List Token) : Token := peek (advance ts)

/-- The next token, which is left in place. -/
def look : Reader Token := fun ts => some (peek ts, ts)

/-- Takes the next token if it satisfies a test, and says whether it did. -/
def eat (p : Token → Bool) : Reader Bool := fun ts =>
  if p (peek ts) then some (true, advance ts) else some (false, ts)

/-- Takes the next token, which has to satisfy a test. -/
def expect (p : Token → Bool) : Reader Token := fun ts =>
  if p (peek ts) then some (peek ts, advance ts) else none

/-- Takes the given character if it comes next. -/
def eatPunct (c : Char) : Reader Bool := eat (·.isPunct c)

/-- Takes the given keyword if it comes next. -/
def eatKeyword (keyword : String) : Reader Bool := eat (·.isKeyword keyword)

/-- Takes the given character, which has to come next. -/
def expectPunct (c : Char) : Reader Unit := do
  let _ ← expect (·.isPunct c)

/-- Takes an identifier or qualified name. -/
def name : Reader String := do return (← expect (·.kind == .name)).source

/-- Takes a variable and gives its name. -/
def variableName : Reader String := do return (← expect (·.kind == .var)).varName

/-- The doc comment that the next token has, the last one if there are several, as it is stored. -/
def leadingDoc (ts : List Token) : Option String :=
  (ts.takeWhile isDoc).getLast?.map fun t => String.ofList (DocComment.normalize t.text)

/-- Passing over doc comments does not make a list of tokens longer. -/
theorem length_skipDocs_le (ts : List Token) : (skipDocs ts).length ≤ ts.length :=
  Text.length_dropWhile_le isDoc ts

/-- What is behind a token is no longer than the list. -/
theorem length_advance_le (ts : List Token) : (advance ts).length ≤ ts.length := by
  have := length_skipDocs_le ts
  simp only [advance, List.length_tail]
  omega

end Reader

end PhpGraft

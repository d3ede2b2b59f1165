/-!
# Gaps between the parts of a document

Parts on one line have spaces and tabs between them. In brackets and braces, and between the lines
of a document, there can be newlines and comments too.
-/

namespace PhpGraft.Toml

/-- What is read and the text behind it, or none if the text does not start with it. -/
abbrev Read (α : Type) := List Char → Option (α × List Char)

/-- Whether a character is a space or a tab. -/
def isGap (c : Char) : Bool := c == ' ' || c == '\t'

/-- A text without spaces and tabs at its front. -/
def skipGap (cs : List Char) : List Char := cs.dropWhile isGap

/-- Whether a character can stand in a string or a comment: no control character but the tab. -/
def isPrintable (c : Char) : Bool := c == '\t' || (32 ≤ c.toNat && c.toNat != 127)

/-- A text behind the newline that it starts with. -/
def newline? : List Char → Option (List Char)
  | '\n' :: cs => some cs
  | '\r' :: '\n' :: cs => some cs
  | _ => none

/-- The text behind the end of a line, on which there is at most a comment left. -/
def lineEnd? (cs : List Char) : Option (List Char) :=
  let rest :=
    match skipGap cs with
    | '#' :: comment => comment.dropWhile isPrintable
    | rest => rest
  if rest.isEmpty then some [] else newline? rest

/-- A text without the spaces, tabs, newlines and comments at its front. It can start inside a
comment. -/
def skipBlank (inComment : Bool) : List Char → List Char
  | '\r' :: '\n' :: cs => skipBlank false cs
  | c :: cs =>
    if c = '\n' then skipBlank false cs
    else if inComment then if isPrintable c then skipBlank true cs else c :: cs
    else if isGap c then skipBlank false cs
    else if c = '#' then skipBlank true cs
    else c :: cs
  | [] => []

/-- A text behind a part, or all of it where the part is missing. -/
def skipOptional (after? : List Char → Option (List Char)) (cs : List Char) : List Char :=
  (after? cs).getD cs

end PhpGraft.Toml

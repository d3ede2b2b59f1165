import PhpGraft.Decimal.Binary64
import PhpGraft.Text.Ascii
import PhpGraft.Text.Blank

/-!
# Tokens

A token keeps its own text and the gap ahead of it: the white space and the plain comments since the
token before. The gaps and texts of all tokens put together are the source.
-/

namespace PhpGraft

open Decimal

/-- What a token is. -/
inductive TokenKind where
  | openTag
  | closeTag
  /-- An identifier or a qualified name, keywords included. -/
  | name
  /-- A variable. -/
  | var
  /-- An integer of at most 63 bits. -/
  | int (n : Nat)
  /-- A double, or an integer too large to be one. -/
  | float (x : Binary64)
  /-- A string, with its value if it has neither interpolation nor escape sequences. -/
  | string (value : Option String)
  | docComment
  /-- The opening of an attribute list. -/
  | attributeOpen
  | doubleArrow
  | doubleColon
  | ellipsis
  /-- Any other character. -/
  | punct (c : Char)
  /-- The end of the source. -/
  | eof
  deriving DecidableEq, Inhabited

/-- A token of the source. -/
structure Token where
  /-- What the token is. -/
  kind : TokenKind
  /-- The white space and comments ahead of the token. -/
  gap : List Char
  /-- The characters of the token. -/
  text : List Char
  /-- The byte at which the token starts. -/
  start : Nat
  deriving DecidableEq, Inhabited

namespace Token

/-- The number of bytes of a token. -/
def size (t : Token) : Nat := Text.byteLength t.text

/-- The text of a token as a string. -/
def source (t : Token) : String := String.ofList t.text

/-- The name of a variable, without its dollar sign. -/
def varName (t : Token) : String := String.ofList (t.text.drop 1)

/-- Whether a token is a given keyword, in any case of its letters. -/
def isKeyword (t : Token) (keyword : String) : Bool :=
  t.kind == .name && Text.eqIgnoreCase t.source keyword

/-- Whether a token is a given character. -/
def isPunct (t : Token) (c : Char) : Bool := t.kind == .punct c

/-- Whether a token is a character that satisfies a test. -/
def isPunctWhere (p : Char → Bool) (t : Token) : Bool :=
  match t.kind with
  | .punct c => p c
  | _ => false

/-- Whether a token opens a bracket: a parenthesis, a bracket, a brace or an attribute list. -/
def isOpener (t : Token) : Bool :=
  t.isPunct '(' || t.isPunct '[' || t.isPunct '{' || t.kind == .attributeOpen

/-- The closing delimiter that a token is. -/
def closer? (t : Token) : Option Char :=
  match t.kind with
  | .punct c => if c = ')' ∨ c = ']' ∨ c = '}' then some c else none
  | _ => none

/-- Whether a token ends the statements of a file. -/
def isEnd (t : Token) : Bool := t.kind == .eof || t.kind == .closeTag

/-- The gap and the text of each token in turn. -/
def spelled (ts : List Token) : List Char := ts.flatMap fun t => t.gap ++ t.text

/-- The source from the first to the last of some tokens, without the gap ahead of them. -/
def span : List Token → List Char
  | [] => []
  | t :: ts => t.text ++ spelled ts

end Token

end PhpGraft

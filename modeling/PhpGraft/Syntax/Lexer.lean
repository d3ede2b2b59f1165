import PhpGraft.Decimal.Numeral
import PhpGraft.Syntax.ParseError
import PhpGraft.Syntax.Token
import PhpGraft.Text.Lines

/-!
# Reading tokens

The source is cut into tokens from the left. Each scanner looks at the characters behind the first
one of a token and says what the token is and how many of them belong to it. Bodies are not read as
statements, but they are cut into tokens too, so that a brace in a string, a comment or a heredoc
counts for nothing.
-/

namespace PhpGraft.Lexer

open Decimal Text

/-- What a scanner finds: the kind of a token and the number of characters behind its first one. -/
abbrev Scan := Except ParseError (TokenKind × Nat)

/-- An error about the first `length` bytes of a token. -/
def fault {α : Type} (cause : ParseCause) (length : Nat) : Except ParseError α :=
  .error ⟨cause, 0, length⟩

/-- The length of a comment that ends with its line: up to a newline or a close tag. -/
def lineCommentLength : List Char → Nat
  | [] => 0
  | c :: cs =>
    if c = '\n' ∨ (c = '?' ∧ cs.head? = some '>') then 0 else lineCommentLength cs + 1

/-- The end of a comment or doc comment in a star and a slash. -/
def starSlash : List Char := ['*', '/']

/-- The number of characters behind the first one of a plain comment, or `none` where no plain
comment starts. A doc comment is no plain comment, and neither is an attribute list. -/
def plainComment? (c : Char) (cs : List Char) : Except ParseError (Option Nat) :=
  if c = '#' then
    pure (if cs.head? = some '[' then none else some (lineCommentLength cs))
  else if c = '/' ∧ cs.head? = some '/' then pure (some (lineCommentLength cs))
  else if c = '/' ∧ cs.head? = some '*' then
    if ['*', '*'].isPrefixOf cs && !(['*', '*', '/'].isPrefixOf cs) then pure none
    else
      match indexOf? starSlash (cs.drop 1) with
      | some n => pure (some (n + 3))
      | none => fault .unterminatedComment 2
  else pure none

/-- The number of characters of the white space and plain comments at the front of a text. -/
def gapLength (cs : List Char) : Except ParseError Nat :=
  let blanks := (cs.takeWhile isBlank).length
  match _h : cs.dropWhile isBlank with
  | [] => pure blanks
  | c :: rest =>
    let shift (e : ParseError) := e.shift (byteLength (cs.takeWhile isBlank))
    match plainComment? c rest with
    | .error e => .error (shift e)
    | .ok none => pure blanks
    | .ok (some n) =>
      match gapLength (rest.drop n) with
      | .error e => .error (shift (e.shift (byteLength (c :: rest.take n))))
      | .ok more => pure (blanks + (1 + n) + more)
termination_by cs.length
decreasing_by
  have := length_dropWhile_le isBlank cs
  rw [_h] at this
  simp only [List.length_cons, List.length_drop] at *
  omega

/-- A doc comment, of which the slash is read. -/
def scanDoc (cs : List Char) : Scan :=
  match indexOf? starSlash (cs.drop 2) with
  | some n => pure (.docComment, n + 4)
  | none => fault .unterminatedDoc 3

/-- A close tag, of which the question mark is read: nothing but white space may follow. -/
def scanCloseTag (cs : List Char) : Scan :=
  let behind := cs.drop 1
  if behind.all isBlank then pure (.closeTag, 1)
  else .error ⟨.textAfterCloseTag, 2, byteLength behind⟩

/-- The number of characters ahead of the end of the label in the first row that closes a heredoc.
-/
def closingLength? (label : List Char) : List (List Char) → Option Nat
  | [] => none
  | row :: rest =>
    match stripPrefix? label (trimStart row) with
    | some after =>
      if after.head?.any isIdentChar then (closingLength? label rest).map (row.length + ·)
      else some ((row.takeWhile isBlank).length + label.length)
    | none => (closingLength? label rest).map (row.length + ·)

/-- Whether a character is a quotation mark around the label of a heredoc. -/
def isLabelQuote (c : Char) : Bool := c == '\'' || c == '"'

/-- A heredoc or nowdoc, of which the first of three angle brackets is read. -/
def scanHeredoc (cs : List Char) : Scan :=
  match splitOnce? ['\n'] (cs.drop 2) with
  | none => fault .unterminatedHeredoc 3
  | some (header, body) =>
    let label := trimWhile isLabelQuote (trim header)
    if label.isEmpty then fault .missingHeredocLabel 3
    else
      match closingLength? label (rows body) with
      | some n => pure (.string none, 2 + header.length + 1 + n)
      | none => fault .unterminatedHeredoc 3

/-- The number of characters that continue a name: identifiers joined by single backslashes. -/
def nameLength : List Char → Nat
  | [] => 0
  | c :: cs =>
    if isIdentChar c || (c == '\\' && cs.head?.any isIdentStart) then nameLength cs + 1 else 0

/-- Whether a character is a digit or an underscore between digits. -/
def isDigitOrGap (c : Char) : Bool := c.isDigit || c == '_'

/-- The number of characters of an exponent, if one starts here. -/
def exponentLength (cs : List Char) : Nat :=
  match cs with
  | e :: rest =>
    if e = 'e' ∨ e = 'E' then
      let digits (l : List Char) := (l.takeWhile isDigitOrGap).length
      match rest with
      | s :: more =>
        if (s = '+' ∨ s = '-') ∧ more.head?.any Char.isDigit then 2 + digits more
        else if s.isDigit then 1 + digits rest
        else 0
      | [] => 0
    else 0
  | [] => 0

/-- The number of characters of a point and the digits behind it, if both are there. -/
def fractionLength (cs : List Char) : Nat :=
  match cs with
  | '.' :: rest =>
    if rest.head?.any Char.isDigit then 1 + (rest.takeWhile isDigitOrGap).length else 0
  | _ => 0

/-- The double that a decimal numeral with a point or an exponent denotes. -/
def floatValue (whole fraction exponent : List Char) : Binary64 :=
  let digits (cs : List Char) := cs.filter Char.isDigit
  let power := (readFrom 10 0 (digits exponent)).getD 0
  let scale : Int := if exponent.contains '-' then -(power : Int) else power
  let coefficient := (readFrom 10 0 (digits whole ++ digits fraction)).getD 0
  Binary64.ofDecimal false coefficient (scale - (digits fraction).length)

/-- What digits in a base denote: an integer, or a double if they take more than 63 bits. -/
def integerKind? (base : Nat) (digits : List Char) : Option TokenKind :=
  (read? base digits).bind fun n =>
    if n ≤ maxInt64 then some (.int n)
    else if n < pow2 128 then some (.float (Binary64.ofNat n))
    else none

/-- The base that the second character of a numeral announces behind a leading zero. -/
def baseOf? (c : Char) : Option Nat :=
  if c = 'x' ∨ c = 'X' then some 16
  else if c = 'b' ∨ c = 'B' then some 2
  else if c = 'o' ∨ c = 'O' then some 8
  else none

/-- An integer token of `length` characters behind the first one, or an error about all of it. -/
def integerScan (base : Nat) (digits : List Char) (length : Nat) : Scan :=
  match integerKind? base (digits.filter (· != '_')) with
  | some kind => pure (kind, length)
  | none => fault .invalidInteger (length + 1)

/-- A numeral, of which the first digit is read. -/
def scanNumber (c : Char) (cs : List Char) : Scan :=
  match (if c = '0' then cs.head?.bind baseOf? else none) with
  | some base =>
    let digits := (cs.drop 1).takeWhile fun d => isDigitOf base d || d == '_'
    integerScan base digits (1 + digits.length)
  | none =>
    let whole := cs.takeWhile isDigitOrGap
    let behind := cs.dropWhile isDigitOrGap
    let fraction := behind.take (fractionLength behind)
    let behind := behind.drop (fractionLength behind)
    let exponent := behind.take (exponentLength behind)
    let length := whole.length + fraction.length + exponent.length
    if fraction.isEmpty && exponent.isEmpty then
      let digits := whole.filter (· != '_')
      if c = '0' ∧ digits ≠ [] then integerScan 8 digits length
      else integerScan 10 (c :: digits) length
    else pure (.float (floatValue (c :: whole) fraction exponent), length)

/-- The value of a string in single quotes, and the number of characters up to and including the
closing quote. -/
def singleQuoted? : List Char → Option (List Char × Nat)
  | [] => none
  | '\'' :: _ => some ([], 1)
  | '\\' :: '\\' :: cs => (singleQuoted? cs).map fun (value, n) => ('\\' :: value, n + 2)
  | '\\' :: '\'' :: cs => (singleQuoted? cs).map fun (value, n) => ('\'' :: value, n + 2)
  | c :: cs => (singleQuoted? cs).map fun (value, n) => (c :: value, n + 1)

/-- Whether a string up to the quote `q` has neither escapes nor interpolation, and the number of
characters up to and including that quote. -/
def doubleQuoted? (q : Char) : List Char → Option (Bool × Nat)
  | [] => none
  | ['\\'] => none
  | '\\' :: _ :: cs => (doubleQuoted? q cs).map fun (_, n) => (false, n + 2)
  | c :: cs =>
    if c = q then some (true, 1)
    else (doubleQuoted? q cs).map fun (plain, n) => (plain && c != '$', n + 1)

/-- A string in single quotes, of which the opening quote is read. -/
def scanSingleQuoted (cs : List Char) : Scan :=
  match singleQuoted? cs with
  | some (value, n) => pure (.string (some (String.ofList value)), n)
  | none => fault .unterminatedString 1

/-- A string between double quotes or backticks, of which the opening quote is read. -/
def scanDoubleQuoted (q : Char) (cs : List Char) : Scan :=
  match doubleQuoted? q cs with
  | some (plain, n) =>
    let value := if plain && q == '"' then some (String.ofList (cs.take (n - 1))) else none
    pure (.string value, n)
  | none => fault .unterminatedString 1

/-- The token that starts with the character `c`. -/
def scan (c : Char) (cs : List Char) : Scan :=
  if c = '/' ∧ ['*', '*'].isPrefixOf cs then scanDoc cs
  else if c = '#' ∧ cs.head? = some '[' then pure (.attributeOpen, 1)
  else if c = '?' ∧ cs.head? = some '>' then scanCloseTag cs
  else if c = '<' ∧ ['<', '<'].isPrefixOf cs then scanHeredoc cs
  else if c = '=' ∧ cs.head? = some '>' then pure (.doubleArrow, 1)
  else if c = ':' ∧ cs.head? = some ':' then pure (.doubleColon, 1)
  else if c = '.' ∧ ['.', '.'].isPrefixOf cs then pure (.ellipsis, 2)
  else if c = '$' ∧ cs.head?.any isIdentStart then
    pure (.var, (cs.takeWhile isIdentChar).length)
  else if isIdentStart c || (c == '\\' && cs.head?.any isIdentStart) then
    pure (.name, nameLength cs)
  else if c.isDigit then scanNumber c cs
  else if c = '\'' then scanSingleQuoted cs
  else if c = '"' ∨ c = '`' then scanDoubleQuoted c cs
  else pure (.punct c, 0)

/-- The tokens of code that starts at the byte `start`. The last one is the end of the source. -/
def tokens (start : Nat) (cs : List Char) : Except ParseError (List Token) :=
  match gapLength cs with
  | .error e => .error (e.shift start)
  | .ok g =>
    let gap := cs.take g
    let begins := start + byteLength gap
    match _h : cs.drop g with
    | [] => pure [⟨.eof, gap, [], begins⟩]
    | c :: rest =>
      match scan c rest with
      | .error e => .error (e.shift begins)
      | .ok (kind, n) =>
        let text := c :: rest.take n
        match tokens (begins + byteLength text) (rest.drop n) with
        | .error e => .error e
        | .ok more => pure (⟨kind, gap, text, begins⟩ :: more)
termination_by cs.length
decreasing_by
  have : (cs.drop g).length ≤ cs.length := by simp
  rw [_h] at this
  simp only [List.length_cons, List.length_drop] at *
  omega

/-- The tokens of a fragment of code. -/
def fragment (source : String) : Except ParseError (List Token) := tokens 0 source.toList

/-- The tag that starts the code of a file. -/
def openTag : List Char := ['<', '?', 'p', 'h', 'p']

/-- The tokens of a file. Ahead of the open tag there may be white space; a file of nothing but
white space has only the token of its end. -/
def file (source : String) : Except ParseError (List Token) :=
  let cs := source.toList
  match splitOnce? openTag cs with
  | some (before, code) =>
    let start := byteLength before
    if before.all isBlank then
      (tokens (start + byteLength openTag) code).map (⟨.openTag, before, openTag, start⟩ :: ·)
    else fault .textBeforeOpenTag start
  | none =>
    if cs.all isBlank then pure [⟨.eof, cs, [], byteLength cs⟩] else fault .missingOpenTag 0

end PhpGraft.Lexer

import PhpGraft.Config.Toml.Number

/-!
# Strings

A string stands in one or in three quotes, and only in three it can have several lines. In double
quotes a backslash starts an escape; in single quotes all stands for itself.
-/

namespace PhpGraft.Toml

open Text

/-- The character of a number, unless it belongs to none. -/
def charOf? (n : Nat) : Option Char := if n.isValidChar then some (Char.ofNat n) else none

/-- Reads the character that a number of hexadecimal digits stands for. -/
def readUnicode (digits : Nat) : Read Char := fun cs => do
  let (n, rest) ← readFixed 16 digits cs
  return (← charOf? n, rest)

/-- Reads what follows a backslash. -/
def readEscape : Read Char
  | 'b' :: cs => some ('\x08', cs)
  | 't' :: cs => some ('\t', cs)
  | 'n' :: cs => some ('\n', cs)
  | 'f' :: cs => some ('\x0c', cs)
  | 'r' :: cs => some ('\r', cs)
  | 'e' :: cs => some ('\x1b', cs)
  | '"' :: cs => some ('"', cs)
  | '\\' :: cs => some ('\\', cs)
  | 'x' :: cs => readUnicode 2 cs
  | 'u' :: cs => readUnicode 4 cs
  | 'U' :: cs => readUnicode 8 cs
  | _ => none

/-- Reads one character of a string in double quotes. -/
def readChar : Read Char
  | '\\' :: cs => readEscape cs
  | c :: cs => if isPrintable c then some (c, cs) else none
  | [] => none

/-- Reads the rest of a string in double quotes, where `acc` was read, the last character first.
Each step takes a character, so that there are no more steps than characters. -/
def readBasic (acc : List Char) : Nat → Read String
  | 0, _ => none
  | fuel + 1, cs =>
    match cs with
    | '"' :: rest => some (String.ofList acc.reverse, rest)
    | cs => do
      let (c, rest) ← readChar cs
      readBasic (c :: acc) fuel rest

/-- Reads the rest of a string in single quotes. -/
def readRaw : Read String := fun cs =>
  let content := cs.takeWhile (· != '\'')
  match cs.drop content.length with
  | '\'' :: rest => if content.all isPrintable then some (String.ofList content, rest) else none
  | _ => none

/-- Reads a string on one line. -/
def readString : Read String
  | '"' :: cs => readBasic [] (cs.length + 1) cs
  | '\'' :: cs => readRaw cs
  | _ => none

/-- Reads one character of a string over several lines. In double quotes, a backslash at the end of
a line takes all white space behind it away, and nothing is read. -/
def readLongChar (quote : Char) : Read (List Char)
  | '\n' :: cs => some (['\n'], cs)
  | '\r' :: '\n' :: cs => some (['\r', '\n'], cs)
  | '\\' :: cs =>
    if quote = '"' then
      match newline? (skipGap cs) with
      | some rest => some ([], rest.dropWhile fun c => isGap c || c == '\n' || c == '\r')
      | none => (readEscape cs).map fun (c, rest) => ([c], rest)
    else some (['\\'], cs)
  | c :: cs => if isPrintable c then some ([c], cs) else none
  | [] => none

/-- Reads the rest of a string in three quotes, where `acc` was read, the last character first. Up
to two quotes ahead of the closing ones belong to the string. -/
def readLong (quote : Char) (acc : List Char) : Nat → Read String
  | 0, _ => none
  | fuel + 1, cs =>
    match stripPrefix? [quote, quote, quote] cs with
    | some rest =>
      let more := (rest.takeWhile (· == quote)).take 2
      some (String.ofList (acc.reverse ++ more), rest.drop more.length)
    | none => do
      let (read, rest) ← readLongChar quote cs
      readLong quote (read.reverse ++ acc) fuel rest

/-- Reads a string in three quotes. A newline right behind the opening ones is skipped. -/
def readLongString (quote : Char) : Read String := fun cs => do
  let rest ← stripPrefix? [quote, quote, quote] cs
  let rest := skipOptional newline? rest
  readLong quote [] (rest.length + 1) rest

end PhpGraft.Toml

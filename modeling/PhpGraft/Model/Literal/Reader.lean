import PhpGraft.Model.Distinct
import PhpGraft.Model.Literal

/-!
# Reading plain values

A plain value is read from its JSON text. A number is an integer if it has neither a fraction nor an
exponent and fits into 64 bits, and else the nearest double. Of several fields with the same key the
last value counts, at the place of the first.
-/

namespace PhpGraft.Literal

open Decimal

/-- Whether a character can stand between values. -/
def isGap (c : Char) : Bool := c == ' ' || c == '\t' || c == '\n' || c == '\r'

/-- A text without the characters between values at its front. -/
def skipGap (cs : List Char) : List Char := cs.dropWhile isGap

/-- Reads a unit of sixteen bits, written with four digits. -/
def readUnit : List Char → Option (Nat × List Char)
  | a :: b :: c :: d :: cs => (read? 16 [a, b, c, d]).map fun n => (n, cs)
  | _ => none

/-- Reads what follows the mark of a unit: one unit, or two of which each is half of a character. -/
def readUnits (cs : List Char) : Option (Char × List Char) := do
  let (high, rest) ← readUnit cs
  if 0xD800 ≤ high ∧ high < 0xDC00 then
    match rest with
    | '\\' :: 'u' :: more =>
      let (low, rest) ← readUnit more
      if 0xDC00 ≤ low ∧ low < 0xE000 then
        some (Char.ofNat (0x10000 + (high - 0xD800) * 0x400 + (low - 0xDC00)), rest)
      else none
    | _ => none
  else if 0xDC00 ≤ high ∧ high < 0xE000 then none
  else some (Char.ofNat high, rest)

/-- Reads one character of a string. -/
def readChar : List Char → Option (Char × List Char)
  | '\\' :: 'u' :: cs => readUnits cs
  | '\\' :: 'n' :: cs => some ('\n', cs)
  | '\\' :: 'r' :: cs => some ('\r', cs)
  | '\\' :: 't' :: cs => some ('\t', cs)
  | '\\' :: 'b' :: cs => some ('\x08', cs)
  | '\\' :: 'f' :: cs => some ('\x0c', cs)
  | '\\' :: c :: cs => if c = '"' ∨ c = '\\' ∨ c = '/' then some (c, cs) else none
  | c :: cs => if c.toNat < 32 then none else some (c, cs)
  | [] => none

/-- Reads the rest of a string, where `acc` was read, the last character first. Each step takes a
character, so that there are no more steps than characters. -/
def readString (acc : List Char) : Nat → List Char → Option (String × List Char)
  | 0, _ => none
  | fuel + 1, cs =>
    match cs with
    | '"' :: rest => some (String.ofList acc.reverse, rest)
    | cs => do
      let (c, rest) ← readChar cs
      readString (c :: acc) fuel rest

/-- The digits at the front of a text and what follows them. -/
def spanDigits (cs : List Char) : List Char × List Char := cs.span Char.isDigit

/-- Reads the digits behind the point of a number, if there is one. -/
def readPlaces : List Char → Option (List Char × List Char)
  | '.' :: cs =>
    let (digits, rest) := spanDigits cs
    if digits.isEmpty then none else some (digits, rest)
  | cs => some ([], cs)

/-- Reads the exponent of a number, if there is one. -/
def readExponent : List Char → Option (Option Int × List Char)
  | c :: cs =>
    if c = 'e' ∨ c = 'E' then
      let negative := cs.head? == some '-'
      let cs := if negative || cs.head? == some '+' then cs.drop 1 else cs
      let (digits, rest) := spanDigits cs
      (read? 10 digits).map fun n => (some (if negative then -(n : Int) else n), rest)
    else some (none, c :: cs)
  | [] => some (none, [])

/-- The value of a number: its sign, its digits, the number of them behind the point, and its
exponent. A whole number has neither a point nor an exponent. -/
def ofNumber (negative whole : Bool) (digits places : Nat) (exponent : Int) : Literal :=
  let n : Int := if negative then -(digits : Int) else digits
  if whole && !(negative && digits == 0) && -(pow2 63 : Int) ≤ n && n < pow2 64 then .int n
  else .float (.ofDecimal negative digits (exponent - places))

/-- Reads a number. -/
def readNumber (cs : List Char) : Option (Literal × List Char) := do
  let negative := cs.head? == some '-'
  let (whole, rest) := spanDigits (if negative then cs.drop 1 else cs)
  let (places, rest) ← readPlaces rest
  let (exponent?, rest) ← readExponent rest
  if whole.isEmpty then none
  let digits ← read? 10 (whole ++ places)
  let isWhole := places.isEmpty && exponent?.isNone
  return (ofNumber negative isWhole digits places.length (exponent?.getD 0), rest)

/-- Reads a value that is neither a string, a list nor an object. -/
def readAtom (cs : List Char) : Option (Literal × List Char) :=
  if "null".toList.isPrefixOf cs then some (.null, cs.drop 4)
  else if "true".toList.isPrefixOf cs then some (.bool true, cs.drop 4)
  else if "false".toList.isPrefixOf cs then some (.bool false, cs.drop 5)
  else readNumber cs

mutual

/-- Reads a value. Every two steps take a character. -/
def readValue : Nat → List Char → Option (Literal × List Char)
  | 0, _ => none
  | fuel + 1, cs =>
    match skipGap cs with
    | '"' :: rest => (readString [] (rest.length + 1) rest).map fun (s, rest) => (.string s, rest)
    | '[' :: rest =>
      match skipGap rest with
      | ']' :: rest => some (.list [], rest)
      | rest => readItems [] fuel rest
    | '\x7b' :: rest =>
      match skipGap rest with
      | '\x7d' :: rest => some (.object [], rest)
      | rest => readFields [] fuel rest
    | rest => readAtom rest

/-- Reads the rest of a list, where `acc` was read, the last item first. -/
def readItems (acc : List Literal) : Nat → List Char → Option (Literal × List Char)
  | 0, _ => none
  | fuel + 1, cs => do
    let (v, rest) ← readValue fuel cs
    match skipGap rest with
    | ',' :: rest => readItems (v :: acc) fuel rest
    | ']' :: rest => some (.list (v :: acc).reverse, rest)
    | _ => none

/-- Reads the rest of an object, where `acc` was read. -/
def readFields (acc : List LiteralField) : Nat → List Char → Option (Literal × List Char)
  | 0, _ => none
  | fuel + 1, cs =>
    match skipGap cs with
    | '"' :: rest => do
      let (key, rest) ← readString [] (rest.length + 1) rest
      match skipGap rest with
      | ':' :: rest =>
        let (v, rest) ← readValue fuel rest
        let acc := upsert (fun f => f.key == key) (.mk key v) acc
        match skipGap rest with
        | ',' :: rest => readFields acc fuel rest
        | '\x7d' :: rest => some (.object acc, rest)
        | _ => none
      | _ => none
    | _ => none

end

/-- Reads a value from its text, with nothing else around it. -/
def parse? (text : String) : Option Literal :=
  let cs := text.toList
  match readValue (2 * cs.length + 2) cs with
  | some (v, rest) => if rest.all isGap then some v else none
  | none => none

end PhpGraft.Literal

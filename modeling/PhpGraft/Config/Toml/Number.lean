import PhpGraft.Config.Toml.Gap
import PhpGraft.Decimal.Numeral
import PhpGraft.Text.Blank

/-!
# Numbers

An integer has a sign, or the mark of another base than ten. A float has a fraction, an exponent, or
both; infinity and what is no number are words. In base ten no zero stands ahead of the digits, but
in a fraction or an exponent it can.
-/

namespace PhpGraft.Toml

open Text

/-! ## Digits -/

/-- Reads a natural number of a base with just so many digits. -/
def readFixed (base count : Nat) : Read Nat := fun cs =>
  let digits := cs.take count
  if digits.length < count then none
  else (Decimal.read? base digits).map fun n => (n, cs.drop count)

/-- Reads digits of a base, with single underscores between them. -/
def readDigits (base : Nat) : List Char → List Char × List Char
  | '_' :: d :: cs =>
    if Decimal.isDigitOf base d then
      let (ds, rest) := readDigits base cs
      (d :: ds, rest)
    else ([], '_' :: d :: cs)
  | d :: cs =>
    if Decimal.isDigitOf base d then
      let (ds, rest) := readDigits base cs
      (d :: ds, rest)
    else ([], d :: cs)
  | [] => ([], [])

/-- Reads a natural number of a base, which can have zeros ahead of it. -/
def readNatural (base : Nat) : Read Int := fun cs =>
  if cs.head?.any (Decimal.isDigitOf base) then do
    let (digits, rest) := readDigits base cs
    return (((← Decimal.read? base digits) : Nat), rest)
  else none

/-- Reads a natural number in base ten, without zeros ahead of it. -/
def readDecimal : Read Int
  | '0' :: cs => some (0, cs)
  | cs => readNatural 10 cs

/-! ## Integers -/

/-- Reads an integer. -/
def readInt : Read Int
  | '0' :: 'x' :: cs => readNatural 16 cs
  | '0' :: 'o' :: cs => readNatural 8 cs
  | '0' :: 'b' :: cs => readNatural 2 cs
  | '+' :: cs => readDecimal cs
  | '-' :: cs => (readDecimal cs).map fun (n, rest) => (-n, rest)
  | cs => readDecimal cs

/-! ## Floats -/

/-- A text without the sign at its front. -/
def skipSign : List Char → List Char
  | '+' :: cs => cs
  | '-' :: cs => cs
  | cs => cs

/-- The text behind digits, of which there is at least one. -/
def afterDigits? (cs : List Char) : Option (List Char) := (readNatural 10 cs).map (·.2)

/-- The text behind an exponent. -/
def afterExponent? : List Char → Option (List Char)
  | 'e' :: cs => afterDigits? (skipSign cs)
  | 'E' :: cs => afterDigits? (skipSign cs)
  | _ => none

/-- The text behind what an integer lacks to be a float: a fraction, which an exponent can follow,
or an exponent. -/
def afterFraction? : List Char → Option (List Char)
  | '.' :: cs => (afterDigits? cs).map (skipOptional afterExponent?)
  | cs => afterExponent? cs

/-- The text behind a float. -/
def afterFloat? (cs : List Char) : Option (List Char) :=
  let cs := skipSign cs
  stripPrefix? "inf".toList cs <|> stripPrefix? "nan".toList cs
  <|> (readDecimal cs).bind fun (_, rest) => afterFraction? rest

end PhpGraft.Toml

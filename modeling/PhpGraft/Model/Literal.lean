import PhpGraft.Decimal.Layout

/-!
# Plain values

A plain value is null, a truth value, a number, a string, a list or an object. The fields of an
object keep their order, but two objects with the same fields in another order are equal. An integer
never equals a double.
-/

namespace PhpGraft

open Decimal

mutual

/-- A plain value. -/
inductive Literal where
  | null
  | bool (b : Bool)
  /-- An integer between the least signed and the largest unsigned one of 64 bits. -/
  | int (n : Int)
  | float (x : Binary64)
  | string (s : String)
  | list (items : List Literal)
  | object (fields : List LiteralField)

/-- A field of an object. -/
inductive LiteralField where
  | mk (key : String) (value : Literal)

end

instance : Inhabited Literal := ⟨.null⟩

namespace LiteralField

/-- The key of a field. -/
def key : LiteralField → String
  | mk k _ => k

/-- The value of a field. -/
def value : LiteralField → Literal
  | mk _ v => v

end LiteralField

namespace Literal

/-- The written form of doubles in a value's text: positional from `10 ^ -5` up to below `10 ^ 16`.
-/
def floatLayout : Layout := ⟨.even, some (-5), 16, true⟩

/-- A hexadecimal digit in lower case. -/
def hexDigit (n : Nat) : Char := if n < 10 then Char.ofNat (48 + n) else Char.ofNat (87 + n)

/-- A character as it is written in a string. -/
def escapeChar (c : Char) : List Char :=
  if c = '"' then ['\\', '"']
  else if c = '\\' then ['\\', '\\']
  else if c = '\n' then ['\\', 'n']
  else if c = '\r' then ['\\', 'r']
  else if c = '\t' then ['\\', 't']
  else if c = '\x08' then ['\\', 'b']
  else if c = '\x0c' then ['\\', 'f']
  else if c.toNat < 32 then ['\\', 'u', '0', '0', hexDigit (c.toNat / 16), hexDigit (c.toNat % 16)]
  else [c]

/-- A string in double quotes, ahead of further text. -/
def quotedThen (s : String) (rest : List Char) : List Char :=
  '"' :: (s.toList.flatMap escapeChar ++ '"' :: rest)

mutual

/-- The text of a value, ahead of further text. -/
def textThen : Literal → List Char → List Char
  | .null, rest => 'n' :: 'u' :: 'l' :: 'l' :: rest
  | .bool b, rest => (if b then ['t', 'r', 'u', 'e'] else ['f', 'a', 'l', 's', 'e']) ++ rest
  | .int n, rest => (intText n).toList ++ rest
  | .float x, rest => (floatLayout.render x).toList ++ rest
  | .string s, rest => quotedThen s rest
  | .list items, rest => '[' :: itemsThen items (']' :: rest)
  | .object fields, rest => '{' :: fieldsThen fields ('}' :: rest)

/-- The texts of values with commas between them, ahead of further text. -/
def itemsThen : List Literal → List Char → List Char
  | [], rest => rest
  | [v], rest => v.textThen rest
  | v :: vs, rest => v.textThen (',' :: itemsThen vs rest)

/-- The text of a field, ahead of further text. -/
def fieldThen : LiteralField → List Char → List Char
  | .mk key v, rest => quotedThen key (':' :: v.textThen rest)

/-- The texts of fields with commas between them, ahead of further text. -/
def fieldsThen : List LiteralField → List Char → List Char
  | [], rest => rest
  | [f], rest => fieldThen f rest
  | f :: fs, rest => fieldThen f (',' :: fieldsThen fs rest)

end

/-- The text of a value, without white space. -/
def text (l : Literal) : String := String.ofList (l.textThen [])

mutual

/-- Equality of values: doubles as numbers, objects without regard to the order of their fields. -/
def same : Literal → Literal → Bool
  | .null, .null => true
  | .bool a, .bool b => a == b
  | .int a, .int b => a == b
  | .float a, .float b => a.same b
  | .string a, .string b => a == b
  | .list as, .list bs => listSame as bs
  | .object as, .object bs => as.length == bs.length && fieldsIn as bs
  | _, _ => false

/-- Equality of lists of values. -/
def listSame : List Literal → List Literal → Bool
  | [], [] => true
  | a :: as, b :: bs => a.same b && listSame as bs
  | _, _ => false

/-- Whether an object has a field of the same key and an equal value. -/
def fieldIn : LiteralField → List LiteralField → Bool
  | .mk key v, fields =>
    match fields.find? fun f => f.key == key with
    | some f => v.same f.value
    | none => false

/-- Whether an object has all of some fields. -/
def fieldsIn : List LiteralField → List LiteralField → Bool
  | [], _ => true
  | f :: fs, fields => fieldIn f fields && fieldsIn fs fields

end

instance : BEq Literal := ⟨same⟩

/-- The value as a signed 64-bit integer, if it is one. -/
def int64? : Literal → Option Int
  | .int n => if n ≤ maxInt64 then some n else none
  | _ => none

/-- The value as a double, if it is a number. -/
def float? : Literal → Option Binary64
  | .int n => some (if n < 0 then (Binary64.ofNat n.natAbs).neg else Binary64.ofNat n.toNat)
  | .float x => some x
  | _ => none

end Literal

end PhpGraft

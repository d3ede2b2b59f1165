import PhpGraft.Decimal.Layout

/-!
# Expressions

The literal expressions that values and defaults need have a structure of their own; every other
expression is kept as source text. A string is written in single quotes with a backslash ahead of
each quote and backslash.
-/

namespace PhpGraft

open Decimal

mutual

/-- An expression attached to a declaration. -/
inductive Expr where
  /-- The null value. -/
  | null
  /-- A truth value. -/
  | bool (b : Bool)
  /-- A 64-bit integer. -/
  | int (n : Int)
  /-- A double. -/
  | float (x : Binary64)
  /-- A string without interpolation. -/
  | string (s : String)
  /-- An array literal. -/
  | array (items : List ArrayItem)
  /-- A constant: `PHP_EOL`, `\Foo\BAR`. -/
  | const (name : String)
  /-- A constant of a class: `self::FOO`, `Foo::class`. -/
  | classConst (className name : String)
  /-- Any other expression as it stands in the source. -/
  | raw (source : String)

/-- One entry of an array literal. -/
inductive ArrayItem where
  /-- An entry without a key. -/
  | value (v : Expr)
  /-- An entry with a key. -/
  | keyed (key v : Expr)

end

instance : Inhabited Expr := ⟨.null⟩

/-- The written form of doubles in source: positional below `10 ^ 15`, with an exponent above. -/
def floatLayout : Layout := ⟨.up, none, 15, false⟩

/-- The text of a string between single quotes, quotes and backslashes escaped. -/
def escapeQuotes : List Char → List Char
  | [] => []
  | c :: cs => if c = '\\' ∨ c = '\'' then '\\' :: c :: escapeQuotes cs else c :: escapeQuotes cs

/-- A string in single quotes. -/
def quoteString (s : String) : String :=
  String.ofList ('\'' :: (escapeQuotes s.toList ++ ['\'']))

mutual

/-- An expression as it is written. -/
def Expr.text : Expr → String
  | .null => "null"
  | .bool b => if b then "true" else "false"
  | .int n => intText n
  | .float x => floatLayout.render x
  | .string s => quoteString s
  | .array items => "[" ++ ArrayItem.listText items ++ "]"
  | .const name => name
  | .classConst className name => className ++ "::" ++ name
  | .raw source => source

/-- An array entry as it is written. -/
def ArrayItem.text : ArrayItem → String
  | .value v => v.text
  | .keyed key v => key.text ++ " => " ++ v.text

/-- Array entries as they are written, with commas between them. -/
def ArrayItem.listText : List ArrayItem → String
  | [] => ""
  | [item] => item.text
  | item :: items => item.text ++ ", " ++ ArrayItem.listText items

end

mutual

/-- Whether an expression is a literal through and through. -/
def Expr.isLiteral : Expr → Bool
  | .null | .bool _ | .int _ | .float _ | .string _ => true
  | .array items => ArrayItem.allLiteral items
  | .const _ | .classConst _ _ | .raw _ => false

/-- Whether the key and the value of an entry are literals. -/
def ArrayItem.isLiteral : ArrayItem → Bool
  | .value v => v.isLiteral
  | .keyed key v => key.isLiteral && v.isLiteral

/-- Whether all entries are literals. -/
def ArrayItem.allLiteral : List ArrayItem → Bool
  | [] => true
  | item :: items => item.isLiteral && ArrayItem.allLiteral items

end

mutual

/-- Equality of expressions, doubles compared as numbers. -/
def Expr.same : Expr → Expr → Bool
  | .null, .null => true
  | .bool a, .bool b => a == b
  | .int a, .int b => a == b
  | .float a, .float b => a.same b
  | .string a, .string b => a == b
  | .array a, .array b => ArrayItem.allSame a b
  | .const a, .const b => a == b
  | .classConst a n, .classConst b m => a == b && n == m
  | .raw a, .raw b => a == b
  | _, _ => false

/-- Equality of array entries, doubles compared as numbers. -/
def ArrayItem.same : ArrayItem → ArrayItem → Bool
  | .value a, .value b => a.same b
  | .keyed k a, .keyed l b => k.same l && a.same b
  | _, _ => false

/-- Equality of lists of array entries, doubles compared as numbers. -/
def ArrayItem.allSame : List ArrayItem → List ArrayItem → Bool
  | [], [] => true
  | a :: as, b :: bs => a.same b && ArrayItem.allSame as bs
  | _, _ => false

end

instance : BEq Expr := ⟨Expr.same⟩

end PhpGraft

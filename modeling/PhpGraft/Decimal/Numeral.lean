/-!
# Numerals in a base

Natural numbers are written in base ten without leading zeros, and read from digits in any base up
to sixteen. Reading what was written gives the number back.
-/

namespace PhpGraft.Decimal

/-- Two to the power `k`. -/
def pow2 (k : Nat) : Nat := Nat.pow 2 k

/-- Ten to the power `k`. -/
def pow10 (k : Nat) : Nat := Nat.pow 10 k

/-- The character of a digit below ten. -/
def digitChar (d : Nat) : Char := Char.ofNat (48 + d)

/-- The value of a digit in bases up to sixteen, letters in either case. -/
def digitValue? (c : Char) : Option Nat :=
  if c.isDigit then some (c.toNat - 48)
  else if 'a' ≤ c ∧ c ≤ 'f' then some (c.toNat - 87)
  else if 'A' ≤ c ∧ c ≤ 'F' then some (c.toNat - 55)
  else none

/-- Whether a character is a digit of the given base. -/
def isDigitOf (base : Nat) (c : Char) : Bool :=
  match digitValue? c with
  | some d => d < base
  | none => false

/-- The digits of a number in base ten, the most significant one first. -/
def ofNat (n : Nat) : List Char :=
  if n < 10 then [digitChar n] else ofNat (n / 10) ++ [digitChar (n % 10)]
termination_by n
decreasing_by omega

/-- A natural number in base ten. -/
def natText (n : Nat) : String := String.ofList (ofNat n)

/-- An integer in base ten, with a minus sign if it is negative. -/
def intText : Int → String
  | .ofNat n => natText n
  | .negSucc n => "-" ++ natText (n + 1)

/-- The value of a run of digits read after the number `acc`. -/
def readFrom (base : Nat) (acc : Nat) : List Char → Option Nat
  | [] => some acc
  | c :: cs =>
    match digitValue? c with
    | some d => if d < base then readFrom base (acc * base + d) cs else none
    | none => none

/-- The value of a run of one or more digits, or `none` if a character is not a digit. -/
def read? (base : Nat) (cs : List Char) : Option Nat :=
  if cs.isEmpty then none else readFrom base 0 cs

/-- The largest signed 64-bit integer. -/
def maxInt64 : Nat := pow2 63 - 1

/-- Reads a signed 64-bit integer: an optional sign and one or more digits in base ten. -/
def int64? (s : String) : Option Int :=
  match s.toList with
  | '-' :: ds => (read? 10 ds).bind fun n => if n ≤ maxInt64 + 1 then some (-(n : Int)) else none
  | '+' :: ds => (read? 10 ds).bind fun n => if n ≤ maxInt64 then some (n : Int) else none
  | ds => (read? 10 ds).bind fun n => if n ≤ maxInt64 then some (n : Int) else none

end PhpGraft.Decimal

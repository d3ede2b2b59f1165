import PhpGraft.Decimal.Numeral
import PhpGraft.Decimal.Shortest

/-!
# Written forms of a double

A form says between which powers of ten a double is written positionally, and how an exponent looks
outside them. The digits are the shortest ones that read back.
-/

namespace PhpGraft.Decimal

/-- The decisions of one written form of doubles. -/
structure Layout where
  /-- Which of two equally near shortest decimals is written. -/
  tie : Tie
  /-- The least power of ten written positionally, if there is one. -/
  lowest? : Option Int
  /-- The power of ten from which on an exponent is written. -/
  limit : Int
  /-- Whether a positive exponent has a plus sign. -/
  plus : Bool
  deriving DecidableEq

/-- Digits with a point after the first `point` of them, filled up with zeros on either side. A
whole number keeps one zero after the point. -/
def positional (digits : List Char) (point : Int) : List Char :=
  if point ≤ 0 then '0' :: '.' :: (List.replicate (-point).toNat '0' ++ digits)
  else
    let whole := digits.take point.toNat ++ List.replicate (point.toNat - digits.length) '0'
    match digits.drop point.toNat with
    | [] => whole ++ ['.', '0']
    | rest => whole ++ '.' :: rest

/-- Digits with a point after the first one and an exponent. -/
def scientific (plus : Bool) (digits : List Char) (exponent : Int) : List Char :=
  let mantissa :=
    match digits with
    | d :: rest => if rest.isEmpty then [d] else d :: '.' :: rest
    | [] => []
  let sign := if plus && 0 ≤ exponent then ['+'] else []
  mantissa ++ 'e' :: (sign ++ (intText exponent).toList)

/-- A double in a written form. -/
def Layout.render (form : Layout) (x : Binary64) : String :=
  if x.isNaN then "NaN"
  else
    let sign := if x.isNegative then "-" else ""
    if x.isInfinite then sign ++ "inf"
    else
      let d := x.shortest form.tie
      let digits := ofNat d.coefficient
      let point : Int := digits.length + d.exponent
      let high := form.limit < point
      let low := match form.lowest? with
        | some k => point ≤ k
        | none => false
      let body :=
        if x.isZero || !(high || low) then positional digits point
        else scientific form.plus digits (point - 1)
      sign ++ String.ofList body

end PhpGraft.Decimal

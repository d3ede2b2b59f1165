import PhpGraft.Decimal.Numeral

/-!
# Double-precision numbers

A double is held as its 64 bits: a sign, eleven bits of exponent and fifty-two bits of fraction. All
arithmetic on it is exact arithmetic on natural numbers. A ratio of naturals is rounded to the
nearest double, and a ratio halfway between two goes to the one whose last bit is zero.
-/

namespace PhpGraft.Decimal

/-- A double-precision number, given by its bits. -/
structure Binary64 where
  /-- The sign, the exponent and the fraction, from the highest bit down. -/
  bits : UInt64
  deriving DecidableEq, Inhabited

namespace Binary64

/-- The bits below the sign, as a natural number. -/
def magnitudeBits (x : Binary64) : Nat := x.bits.toNat % pow2 63

/-- Whether the sign bit is set. -/
def isNegative (x : Binary64) : Bool := pow2 63 ≤ x.bits.toNat

/-- The eleven bits of the exponent. -/
def exponentField (x : Binary64) : Nat := x.magnitudeBits / pow2 52

/-- The fifty-two bits of the fraction. -/
def fraction (x : Binary64) : Nat := x.magnitudeBits % pow2 52

/-- The magnitude bits of infinity. -/
def infinityBits : Nat := 2047 * pow2 52

/-- Whether this is no number. -/
def isNaN (x : Binary64) : Bool := infinityBits < x.magnitudeBits

/-- Whether this is an infinity of either sign. -/
def isInfinite (x : Binary64) : Bool := x.magnitudeBits == infinityBits

/-- Whether this is neither an infinity nor no number. -/
def isFinite (x : Binary64) : Bool := x.magnitudeBits < infinityBits

/-- Whether this is zero of either sign. -/
def isZero (x : Binary64) : Bool := x.magnitudeBits == 0

/-- The integer `m` of the value `m * 2 ^ e` of a finite number. -/
def significand (x : Binary64) : Nat :=
  if x.exponentField = 0 then x.fraction else pow2 52 + x.fraction

/-- The exponent `e` of the value `m * 2 ^ e` of a finite number. -/
def exponent (x : Binary64) : Int := (max x.exponentField 1 : Nat) - 1075

/-- The number with the given sign and magnitude bits. -/
def ofMagnitude (negative : Bool) (magnitude : Nat) : Binary64 :=
  ⟨UInt64.ofNat (magnitude + if negative then pow2 63 else 0)⟩

/-- The number with the other sign. -/
def neg (x : Binary64) : Binary64 := ofMagnitude (!x.isNegative) x.magnitudeBits

/-- Numeric equality: the two zeros are equal, and what is no number equals nothing. -/
def same (x y : Binary64) : Bool :=
  !x.isNaN && !y.isNaN && (x == y || (x.isZero && y.isZero))

/-- The quotient of two naturals rounded to the nearest natural, halves to the even one. -/
def roundDiv (num den : Nat) : Nat :=
  let floor := num / den
  let rest := num % den
  if 2 * rest < den then floor
  else if den < 2 * rest then floor + 1
  else floor + floor % 2

/-- The largest `k` with `2 ^ k ≤ num / den`, for positive naturals. -/
def floorLog2 (num den : Nat) : Int :=
  let k : Int := (Nat.log2 num : Int) - Nat.log2 den
  if num * pow2 (-k).toNat < den * pow2 k.toNat then k - 1 else k

/-- The double nearest to a ratio, halves to the even one; too large a ratio is an infinity. -/
def ofRatio (negative : Bool) (num den : Nat) : Binary64 :=
  if num = 0 then ofMagnitude negative 0
  else
    let e : Int := max (floorLog2 num den - 52) (-1074)
    let m := roundDiv (num * pow2 (-e).toNat) (den * pow2 e.toNat)
    ofMagnitude negative (min ((e + 1074).toNat * pow2 52 + m) infinityBits)

/-- The double nearest to a natural number. -/
def ofNat (n : Nat) : Binary64 := ofRatio false n 1

/-- The number of decimal digits of a positive natural, and zero for zero. -/
def digitCount (n : Nat) : Nat := if n = 0 then 0 else digitCount (n / 10) + 1
termination_by n
decreasing_by omega

/-- The double nearest to `m * 10 ^ e`. Outside the exponents between which doubles lie the answer
is an infinity or a zero, and no power is computed. -/
def ofDecimal (negative : Bool) (m : Nat) (e : Int) : Binary64 :=
  let top := digitCount m + e
  if m = 0 || top < -330 then ofMagnitude negative 0
  else if 330 < top then ofMagnitude negative infinityBits
  else ofRatio negative (m * pow10 e.toNat) (pow10 (-e).toNat)

end Binary64

end PhpGraft.Decimal

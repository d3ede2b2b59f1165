import PhpGraft.Decimal.Binary64

/-!
# Shortest decimals of a double

The decimals that read back as a given double are those in the interval around its value that rounds
to it; the ends belong to the interval if the last bit of the double is zero. The shortest decimal
is found on the coarsest grid of powers of ten with a point in the interval, and it is enough to try
the two neighbours of the value on each grid.
-/

namespace PhpGraft.Decimal

/-- Which of two equally near decimals is taken. -/
inductive Tie where
  /-- The larger one. -/
  | up
  /-- The one whose last digit is even. -/
  | even
  deriving DecidableEq

/-- A decimal number: `coefficient * 10 ^ exponent`. -/
structure Scaled where
  /-- The digits of the number, read as a natural. -/
  coefficient : Nat
  /-- The power of ten by which they are scaled. -/
  exponent : Int
  deriving DecidableEq

/-- The same number with no zero at the end of its digits. -/
def Scaled.reduce (coefficient : Nat) (exponent : Int) : Scaled :=
  if coefficient = 0 then ⟨0, 0⟩
  else if coefficient % 10 = 0 then Scaled.reduce (coefficient / 10) (exponent + 1)
  else ⟨coefficient, exponent⟩
termination_by coefficient
decreasing_by omega

/-- The least `p` with `num / den < 10 ^ p`, for positive naturals. -/
def decimalPoint (num den : Nat) : Int :=
  if den ≤ num then Binary64.digitCount (num / den)
  else
    let j := Binary64.digitCount (den / num) - 1
    if den = num * pow10 j then 1 - j else -j

namespace Binary64

/-- Four times the significand and the two ends of the interval that rounds to a finite positive
double, all in units of `2 ^ (exponent - 2)`: the value, the lower end and the upper end. -/
def quarters (x : Binary64) : Nat × Nat × Nat :=
  let m := x.significand
  let below := if x.fraction = 0 && 1 < x.exponentField then 1 else 2
  (4 * m, 4 * m - below, 4 * m + 2)

/-- The decimal on the grid `10 ^ k` next to a double and nearest to it, if one reads back. -/
def onGrid (tie : Tie) (x : Binary64) (k : Int) : Option Scaled :=
  let (value, low, high) := x.quarters
  let e := x.exponent - 2
  let unit := pow2 e.toNat * pow10 (-k).toNat
  let step := pow2 (-e).toNat * pow10 k.toNat
  let inside (c : Nat) : Bool :=
    if x.fraction % 2 = 0 then low * unit ≤ c * step && c * step ≤ high * unit
    else low * unit < c * step && c * step < high * unit
  let floor := value * unit / step
  let twice := 2 * (value * unit % step)
  let up := step < twice || (twice == step && (tie == .up || floor % 2 == 1))
  match inside floor, inside (floor + 1) with
  | true, true => some (Scaled.reduce (if up then floor + 1 else floor) k)
  | true, false => some (Scaled.reduce floor k)
  | false, true => some (Scaled.reduce (floor + 1) k)
  | false, false => none

/-- The first hit on the grids from `k` down, `steps` of them. -/
def firstOnGrids (tie : Tie) (x : Binary64) (k : Int) : Nat → Scaled
  | 0 => ⟨0, 0⟩
  | steps + 1 =>
    match x.onGrid tie k with
    | some d => d
    | none => firstOnGrids tie x (k - 1) steps

/-- The shortest decimal that reads back as the magnitude of a finite double, and of several the
nearest. Seventeen digits are always enough. -/
def shortest (tie : Tie) (x : Binary64) : Scaled :=
  if x.isZero then ⟨0, 0⟩
  else
    let p := decimalPoint (x.significand * pow2 x.exponent.toNat) (pow2 (-x.exponent).toNat)
    firstOnGrids tie x (p - 1) 18

end Binary64

end PhpGraft.Decimal

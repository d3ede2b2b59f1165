import PhpGraft.Proofs.Decimal.Rounding

/-!
# Shortest decimals are near their double

Every decimal that is found on a grid is near the double that it is looked for (`isNear_of_onGrid`), and
on a grid that is fine enough there is one (`exists_onGrid`). The grids that are tried go down to such a
one, so that the shortest decimal of a double is near it (`isNear_shortest`).
-/

namespace PhpGraft.Decimal

/-- The number that a scaled coefficient stands for. -/
def Scaled.value (d : Scaled) : ℚ := d.coefficient * 10 ^ d.exponent

/-- Without the zeros at the end of its digits a decimal stands for the same number. -/
theorem Scaled.value_reduce (c : ℕ) (k : ℤ) : (Scaled.reduce c k).value = c * 10 ^ k := by
  induction c, k using Scaled.reduce.induct with
  | case1 k => simp [Scaled.reduce, Scaled.value]
  | case2 c k hc hten ih =>
    have hsplit : c = c / 10 * 10 := by omega
    rw [Scaled.reduce, if_neg hc, if_pos hten, ih, zpow_add_one₀ (by norm_num)]
    conv => rhs; rw [hsplit]
    push_cast
    ring
  | case3 c k hc hten => rw [Scaled.reduce, if_neg hc, if_neg hten, Scaled.value]

/-- The position of the point is not too far to the left. -/
theorem pow_decimalPoint_le {num den : ℕ} (hnum : 0 < num) (hden : 0 < den) :
    (10 : ℚ) ^ (decimalPoint num den - 1) ≤ num / den := by
  have hn : (0 : ℚ) < num := by exact_mod_cast hnum
  have hd : (0 : ℚ) < den := by exact_mod_cast hden
  rw [decimalPoint, le_div_iff₀ hd]
  split
  · next h =>
    -- the point is behind the digits of the whole part
    have hpos : 0 < num / den := Nat.div_pos h hden
    have hcount : Binary64.digitCount (num / den) ≠ 0 := by
      rw [Binary64.digitCount, if_neg hpos.ne']
      omega
    have hexp : (Binary64.digitCount (num / den) : ℤ) - 1 =
        (Binary64.digitCount (num / den) - 1 : ℕ) := by omega
    have hle := Nat.mul_le_of_le_div _ _ _ (Binary64.pow_digitCount_le hpos)
    rw [hexp, zpow_natCast]
    exact_mod_cast hle
  · next h =>
    -- there is no whole part, and the digits of the inverse say how far to the left the point is
    have hpos : 0 < den / num := Nat.div_pos (by omega) hnum
    have hcount : Binary64.digitCount (den / num) ≠ 0 := by
      rw [Binary64.digitCount, if_neg hpos.ne']
      omega
    obtain ⟨j, hj⟩ : ∃ j, Binary64.digitCount (den / num) = j + 1 := ⟨_, (Nat.succ_pred hcount).symm⟩
    rw [hj]
    dsimp only
    rw [Nat.add_sub_cancel]
    split
    · next heq =>
      have hexp : 1 - (j : ℤ) - 1 = -j := by omega
      have hden : (den : ℚ) = 10 ^ j * num := by
        rw [mul_comm]
        exact_mod_cast heq
      rw [hexp, zpow_neg, zpow_natCast, inv_mul_le_iff₀ (by positivity), hden]
    · have hlt : den < num * 10 ^ (j + 1) := by
        have := (Nat.div_lt_iff_lt_mul hnum).1 (hj ▸ Binary64.lt_pow_digitCount (den / num))
        rwa [mul_comm]
      have hexp : -(j : ℤ) - 1 = -(j + 1 : ℕ) := by omega
      rw [hexp, zpow_neg, zpow_natCast, inv_mul_le_iff₀ (by positivity), mul_comm]
      exact_mod_cast hlt.le

namespace Binary64

variable {x : Binary64} {tie : Tie} {k : ℤ}

/-! ## One grid -/

/-- The step of a decimal grid and the unit of a binary one, in a common measure. -/
theorem grid_ratio (e k : ℤ) : ((pow2 e.toNat * pow10 (-k).toNat : ℕ) : ℚ) * 10 ^ k =
    (pow2 (-e).toNat * pow10 k.toNat : ℕ) * 2 ^ e := by
  have h₁ : (0 : ℚ) < pow2 (-e).toNat := by exact_mod_cast pow2_pos _
  have h₂ : (0 : ℚ) < pow10 (-k).toNat := by exact_mod_cast pow10_pos _
  rw [two_zpow, ten_zpow, Nat.cast_mul, Nat.cast_mul]
  field_simp

/-- A point of a decimal grid is compared with a number of units of a binary one in whole numbers. -/
theorem grid_le (e k : ℤ) (n c : ℕ) :
    (n * (pow2 e.toNat * pow10 (-k).toNat) ≤ c * (pow2 (-e).toNat * pow10 k.toNat) ↔
      (n : ℚ) * 2 ^ e ≤ c * 10 ^ k) ∧
    (c * (pow2 (-e).toNat * pow10 k.toNat) ≤ n * (pow2 e.toNat * pow10 (-k).toNat) ↔
      (c : ℚ) * 10 ^ k ≤ n * 2 ^ e) := by
  have hratio := grid_ratio e k
  have hstep : 0 < pow2 (-e).toNat * pow10 k.toNat :=
    Nat.mul_pos (pow2_pos _) (pow10_pos _)
  have hten : (0 : ℚ) < 10 ^ k := by positivity
  generalize pow2 e.toNat * pow10 (-k).toNat = unit at *
  generalize pow2 (-e).toNat * pow10 k.toNat = step at *
  have hstep' : (0 : ℚ) < step := by exact_mod_cast hstep
  -- both sides are multiplied by the step of the grid
  have hn : (n * unit : ℚ) * 10 ^ k = n * 2 ^ e * step := by rw [mul_assoc, hratio]; ring
  have hc : (c * step : ℚ) * 10 ^ k = c * 10 ^ k * step := by ring
  constructor
  · rw [← Nat.cast_le (α := ℚ), Nat.cast_mul, Nat.cast_mul, ← mul_le_mul_iff_left₀ hten, hn, hc,
      mul_le_mul_iff_left₀ hstep']
  · rw [← Nat.cast_le (α := ℚ), Nat.cast_mul, Nat.cast_mul, ← mul_le_mul_iff_left₀ hten, hn, hc,
      mul_le_mul_iff_left₀ hstep']

/-- Whether the point with a coefficient on a decimal grid reads back as a double. -/
def gridInside (x : Binary64) (k : ℤ) (c : ℕ) : Bool :=
  let e := x.exponent - 2
  let unit := pow2 e.toNat * pow10 (-k).toNat
  let step := pow2 (-e).toNat * pow10 k.toNat
  if x.fraction % 2 = 0 then x.quarters.2.1 * unit ≤ c * step && c * step ≤ x.quarters.2.2 * unit
  else x.quarters.2.1 * unit < c * step && c * step < x.quarters.2.2 * unit

/-- The coefficient of the point of a decimal grid next below a double. -/
def gridFloor (x : Binary64) (k : ℤ) : ℕ :=
  x.quarters.1 * (pow2 (x.exponent - 2).toNat * pow10 (-k).toNat) /
    (pow2 (-(x.exponent - 2)).toNat * pow10 k.toNat)

/-- On a grid the two points next to a double are tried. -/
theorem onGrid_eq (tie : Tie) (x : Binary64) (k : ℤ) : ∃ up, x.onGrid tie k =
    match x.gridInside k (x.gridFloor k), x.gridInside k (x.gridFloor k + 1) with
    | true, true => some (Scaled.reduce (if up = true then x.gridFloor k + 1 else x.gridFloor k) k)
    | true, false => some (Scaled.reduce (x.gridFloor k) k)
    | false, true => some (Scaled.reduce (x.gridFloor k + 1) k)
    | false, false => none := ⟨_, rfl⟩

/-- What is found on a grid is a point next to the double that reads back. -/
theorem onGrid_eq_some {d : Scaled} (h : x.onGrid tie k = some d) :
    ∃ c, x.gridInside k c = true ∧ d = Scaled.reduce c k := by
  obtain ⟨up, hcases⟩ := onGrid_eq tie x k
  rw [hcases] at h
  split at h
  · next h₁ h₂ =>
    obtain rfl := Option.some.inj h
    split
    · exact ⟨_, h₂, rfl⟩
    · exact ⟨_, h₁, rfl⟩
  · next h₁ _ => exact ⟨_, h₁, (Option.some.inj h).symm⟩
  · next _ h₂ => exact ⟨_, h₂, (Option.some.inj h).symm⟩
  · cases h

/-- A point of a grid reads back if it is near the double. -/
theorem gridInside_iff {c : ℕ} : x.gridInside k c = true ↔ x.IsNear (c * 10 ^ k) := by
  obtain ⟨hlow, hlow'⟩ := grid_le (x.exponent - 2) k x.quarters.2.1 c
  obtain ⟨hhigh', hhigh⟩ := grid_le (x.exponent - 2) k x.quarters.2.2 c
  rw [gridInside, IsNear]
  split
  · next heven =>
    rw [Bool.and_eq_true, decide_eq_true_eq, decide_eq_true_eq, hlow, hhigh]
    exact ⟨fun h => ⟨h.1, h.2, .inl heven⟩, fun h => ⟨h.1, h.2.1⟩⟩
  · next hodd =>
    rw [Bool.and_eq_true, decide_eq_true_eq, decide_eq_true_eq, ← not_le, ← not_le, hlow', hhigh', not_le,
      not_le]
    exact ⟨fun h => ⟨h.1.le, h.2.le, .inr h⟩, fun h => h.2.2.resolve_left hodd⟩

/-- What is found on a grid is near the double. -/
theorem isNear_of_onGrid {d : Scaled} (h : x.onGrid tie k = some d) : x.IsNear d.value := by
  obtain ⟨c, hc, rfl⟩ := onGrid_eq_some h
  rw [Scaled.value_reduce]
  exact gridInside_iff.1 hc

/-- The point of a fine grid next below a double is near the double: the grid has a point for each
quarter of a unit of the last place. -/
theorem isNear_gridFloor (hx : x.IsPositive) (hk : (10 : ℚ) ^ 17 * 10 ^ k ≤ x.significand * 2 ^ x.exponent) :
    x.IsNear (x.gridFloor k * 10 ^ k) := by
  have hstep : 0 < pow2 (-(x.exponent - 2)).toNat * pow10 k.toNat :=
    Nat.mul_pos (pow2_pos _) (pow10_pos _)
  have hbelow := ((grid_le (x.exponent - 2) k x.quarters.1 (x.gridFloor k)).2).1 (Nat.div_mul_le_self _ _)
  have habove : (x.quarters.1 : ℚ) * 2 ^ (x.exponent - 2) < (x.gridFloor k + 1 : ℕ) * 10 ^ k := by
    refine lt_of_not_ge (mt (grid_le (x.exponent - 2) k x.quarters.1 (x.gridFloor k + 1)).2.2 (not_le.2 ?_))
    exact (Nat.div_lt_iff_lt_mul hstep).1 (Nat.lt_succ_self _)
  have hvalue : (x.quarters.1 : ℚ) = 4 * x.significand := by simp [quarters]
  have hquarter : (0 : ℚ) < 2 ^ (x.exponent - 2) := by positivity
  have hm : (x.significand : ℚ) ≤ 2 ^ 53 := by exact_mod_cast hx.lt.le
  rw [unit_eq] at hk
  rw [hvalue] at hbelow habove
  push_cast at habove
  -- a step of the grid is less than a quarter of the unit, and both ends are at least a quarter away
  have hfine : (10 : ℚ) ^ k < 2 ^ (x.exponent - 2) := by nlinarith
  have hlow : (x.quarters.2.1 : ℚ) ≤ 4 * x.significand - 1 := by
    rw [quarters_low hx]
    split <;> linarith
  have hstrict : (x.quarters.2.1 : ℚ) * 2 ^ (x.exponent - 2) < x.gridFloor k * 10 ^ k := by nlinarith
  have hstrict' : (x.gridFloor k : ℚ) * 10 ^ k < x.quarters.2.2 * 2 ^ (x.exponent - 2) := by
    rw [quarters_high]
    nlinarith
  exact ⟨hstrict.le, hstrict'.le, .inr ⟨hstrict, hstrict'⟩⟩

/-- On a fine grid there is a point that reads back. -/
theorem exists_onGrid (hx : x.IsPositive) (tie : Tie)
    (hk : (10 : ℚ) ^ 17 * 10 ^ k ≤ x.significand * 2 ^ x.exponent) : ∃ d, x.onGrid tie k = some d := by
  have hinside := gridInside_iff.2 (isNear_gridFloor hx hk)
  obtain ⟨up, hcases⟩ := onGrid_eq tie x k
  rw [hcases, hinside]
  cases x.gridInside k (x.gridFloor k + 1) <;> exact ⟨_, rfl⟩

/-! ## The grids one after the other -/

/-- If there is a hit on one of the grids tried, then what is found is near the double. -/
theorem isNear_firstOnGrids {steps : ℕ} (h : ∃ j < steps, ∃ d, x.onGrid tie (k - j) = some d) :
    x.IsNear (x.firstOnGrids tie k steps).value := by
  induction steps generalizing k with
  | zero =>
    obtain ⟨j, hj, -⟩ := h
    omega
  | succ steps ih =>
    rw [firstOnGrids]
    split
    · next d hd => exact isNear_of_onGrid hd
    · next hnone =>
      obtain ⟨j, hj, d, hd⟩ := h
      cases j with
      | zero => simp [hnone] at hd
      | succ j =>
        refine ih ⟨j, by omega, d, ?_⟩
        rwa [Nat.cast_succ, add_comm, ← sub_sub] at hd

/-- The shortest decimal of a double is near the double. -/
theorem isNear_shortest (hx : x.IsPositive) (tie : Tie) : x.IsNear (x.shortest tie).value := by
  have hzero : x.isZero = false := by
    have hpos := hx.pos
    have hbits := x.magnitudeBits_eq
    have hne : x.magnitudeBits ≠ 0 := by omega
    simpa [isZero] using hne
  have hden : 0 < pow2 (-x.exponent).toNat := pow2_pos _
  have hnum : 0 < x.significand * pow2 x.exponent.toNat := Nat.mul_pos hx.pos (pow2_pos _)
  have hpoint := pow_decimalPoint_le hnum hden
  have hvalue : ((x.significand * pow2 x.exponent.toNat : ℕ) : ℚ) / (pow2 (-x.exponent).toNat : ℕ) =
      x.significand * 2 ^ x.exponent := by
    rw [two_zpow, Nat.cast_mul, mul_div_assoc]
  rw [hvalue] at hpoint
  rw [shortest, if_neg (by simp [hzero])]
  dsimp only
  generalize decimalPoint _ _ = p at hpoint ⊢
  -- of the grids tried, the one for eighteen digits is fine enough
  have hfine : (10 : ℚ) ^ 17 * 10 ^ (p - 1 - (17 : ℕ)) ≤ x.significand * 2 ^ x.exponent := by
    have hsplit : (10 : ℚ) ^ 17 * 10 ^ (p - 1 - (17 : ℕ)) = 10 ^ (p - 1) := by
      rw [← zpow_natCast, ← zpow_add₀ (by norm_num)]
      congr 1
      omega
    rwa [hsplit]
  exact isNear_firstOnGrids ⟨17, by decide, exists_onGrid hx tie hfine⟩

end Binary64

end PhpGraft.Decimal

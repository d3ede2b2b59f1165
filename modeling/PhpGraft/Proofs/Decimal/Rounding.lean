import Mathlib.Tactic.FieldSimp
import Mathlib.Tactic.Linarith
import Mathlib.Tactic.NormNum
import Mathlib.Tactic.Ring
import Mathlib.Algebra.Order.Field.Basic
import Mathlib.Algebra.Order.Field.Power
import Mathlib.Data.Rat.Lemmas
import PhpGraft.Decimal.Shortest

/-!
# Rounding to the nearest double

A finite double other than zero is the double of every number near it: those between the middles to
its two neighbours, and the middles themselves if its last bit is zero (`Binary64.IsNear`). So a ratio
is rounded to the double that it is near (`ofRatio_of_isNear`), and so is a decimal
(`ofDecimal_of_isNear`).
-/

namespace PhpGraft.Decimal

/-- A power of a base is a quotient of two powers, one of which has the exponent zero. -/
theorem zpow_eq_div {b : ℕ} (hb : 0 < b) (k : ℤ) :
    (b : ℚ) ^ k = (b ^ k.toNat : ℕ) / (b ^ (-k).toNat : ℕ) := by
  have hne : (b : ℚ) ≠ 0 := by exact_mod_cast hb.ne'
  rcases le_total 0 k with h | h
  · obtain ⟨n, rfl⟩ := Int.eq_ofNat_of_zero_le h
    simp
  · obtain ⟨n, hn⟩ := Int.eq_ofNat_of_zero_le (neg_nonneg.2 h)
    obtain rfl : k = -n := by omega
    simp

/-- A power of two as the quotient in which the powers of naturals give it. -/
theorem two_zpow (k : ℤ) : (2 : ℚ) ^ k = (pow2 k.toNat : ℕ) / (pow2 (-k).toNat : ℕ) := by
  have hdiv := zpow_eq_div (b := 2) (by decide) k
  rwa [Nat.cast_ofNat] at hdiv

/-- A power of ten as the quotient in which the powers of naturals give it. -/
theorem ten_zpow (k : ℤ) : (10 : ℚ) ^ k = (pow10 k.toNat : ℕ) / (pow10 (-k).toNat : ℕ) := by
  have hdiv := zpow_eq_div (b := 10) (by decide) k
  rwa [Nat.cast_ofNat] at hdiv

/-- Powers of two are positive. -/
theorem pow2_pos (k : ℕ) : 0 < pow2 k := Nat.pow_pos (by decide)

/-- Powers of ten are positive. -/
theorem pow10_pos (k : ℕ) : 0 < pow10 k := Nat.pow_pos (by decide)

namespace Binary64

variable {x : Binary64}

/-! ## The parts of a double -/

/-- The bits below the sign do not reach the sign. -/
theorem magnitudeBits_lt (x : Binary64) : x.magnitudeBits < 2 ^ 63 := Nat.mod_lt _ (by decide)

/-- The fraction has fifty-two bits. -/
theorem fraction_lt (x : Binary64) : x.fraction < 2 ^ 52 := Nat.mod_lt _ (by decide)

/-- The bits below the sign are the exponent and the fraction. -/
theorem magnitudeBits_eq_fields (x : Binary64) :
    x.magnitudeBits = x.exponentField * 2 ^ 52 + x.fraction :=
  (Nat.div_add_mod' x.magnitudeBits (2 ^ 52)).symm

/-- Each step of the exponent adds as much to the bits as a significand that becomes normal. -/
theorem magnitudeBits_eq (x : Binary64) :
    x.magnitudeBits = (x.exponent + 1074).toNat * 2 ^ 52 + x.significand := by
  have hpow : pow2 52 = 2 ^ 52 := rfl
  rw [magnitudeBits_eq_fields, exponent, significand, hpow]
  split
  · next h =>
    rw [h]
    simp
  · next h =>
    have hfield : ((max x.exponentField 1 : ℕ) - 1075 + 1074 : ℤ).toNat = x.exponentField - 1 := by
      omega
    rw [hfield]
    omega

/-- The bits that a double is put together from are its bits. -/
theorem toNat_ofMagnitude (negative : Bool) {m : ℕ} (h : m < 2 ^ 63) :
    (ofMagnitude negative m).bits.toNat = m + if negative then 2 ^ 63 else 0 := by
  have hpow : pow2 63 = 2 ^ 63 := rfl
  rw [ofMagnitude, UInt64.toNat_ofNat', hpow]
  split <;> omega

/-- The bits below the sign are those that a double is put together from. -/
theorem magnitudeBits_ofMagnitude (negative : Bool) {m : ℕ} (h : m < 2 ^ 63) :
    (ofMagnitude negative m).magnitudeBits = m := by
  have hpow : pow2 63 = 2 ^ 63 := rfl
  rw [magnitudeBits, toNat_ofMagnitude negative h, hpow]
  split <;> omega

/-- The sign is the one that a double is put together from. -/
theorem isNegative_ofMagnitude (negative : Bool) {m : ℕ} (h : m < 2 ^ 63) :
    (ofMagnitude negative m).isNegative = negative := by
  have hpow : pow2 63 = 2 ^ 63 := rfl
  rw [isNegative, toNat_ofMagnitude negative h, hpow]
  cases negative with
  | true => exact decide_eq_true (Nat.le_add_left _ _)
  | false => exact decide_eq_false (Nat.not_le.2 h)

/-- A double is put together from its sign and its other bits. -/
theorem ofMagnitude_eq_self (x : Binary64) : ofMagnitude x.isNegative x.magnitudeBits = x := by
  have hpow : pow2 63 = 2 ^ 63 := rfl
  have hlt : x.bits.toNat < 2 ^ 64 := x.bits.toNat_lt
  have hbits : (ofMagnitude x.isNegative x.magnitudeBits).bits.toNat = x.bits.toNat := by
    rw [toNat_ofMagnitude _ x.magnitudeBits_lt, isNegative, magnitudeBits, hpow]
    simp only [decide_eq_true_eq]
    split <;> omega
  exact congrArg Binary64.mk (UInt64.toNat_inj.1 hbits)

/-- What is rounded is a number. -/
theorem isNaN_ofRatio (negative : Bool) (num den : ℕ) : (ofRatio negative num den).isNaN = false := by
  have hlimit : infinityBits < 2 ^ 63 := by decide
  have hnumber {m : ℕ} (h : m ≤ infinityBits) : (ofMagnitude negative m).isNaN = false := by
    rw [isNaN, magnitudeBits_ofMagnitude negative (by omega), decide_eq_false_iff_not]
    omega
  rw [ofRatio]
  split
  · exact hnumber (Nat.zero_le _)
  · exact hnumber (Nat.min_le_right _ _)

/-- A decimal that is rounded is a number. -/
theorem isNaN_ofDecimal (negative : Bool) (m : ℕ) (e : ℤ) : (ofDecimal negative m e).isNaN = false := by
  rw [ofDecimal]
  split
  · cases negative <;> decide
  · split
    · cases negative <;> decide
    · exact isNaN_ofRatio ..

/-- What the significand and the exponent of a finite double other than zero are. -/
structure IsPositive (x : Binary64) : Prop where
  pos : 0 < x.significand
  lt : x.significand < 2 ^ 53
  le : -1074 ≤ x.exponent
  finite : x.magnitudeBits < infinityBits
  normal : x.exponent = -1074 ∨ 2 ^ 52 ≤ x.significand

/-- A finite double other than zero is positive, its sign apart. -/
theorem isPositive (hfinite : x.isFinite = true) (hzero : x.isZero = false) : x.IsPositive := by
  have hpow : pow2 52 = 2 ^ 52 := rfl
  have hfields := x.magnitudeBits_eq_fields
  have hfraction := x.fraction_lt
  have hne : x.magnitudeBits ≠ 0 := by simpa [isZero] using hzero
  refine ⟨?_, ?_, ?_, of_decide_eq_true hfinite, ?_⟩
  · rw [significand]
    split
    · next h =>
      rw [h] at hfields
      omega
    · rw [hpow]
      omega
  · rw [significand]
    split <;> omega
  · rw [exponent]
    omega
  · rw [exponent, significand]
    split <;> omega

/-- The number that a finite double stands for. -/
def value (x : Binary64) : ℚ := (if x.isNegative then -1 else 1) * (x.significand * 2 ^ x.exponent)

/-! ## Numbers near a double -/

/-- Whether a number is at most as far from a double as the middles to the two neighbours of the
double. The middles count if the last bit of the double is zero. -/
def IsNear (x : Binary64) (v : ℚ) : Prop :=
  let unit : ℚ := 2 ^ (x.exponent - 2)
  x.quarters.2.1 * unit ≤ v ∧ v ≤ x.quarters.2.2 * unit ∧
    (x.fraction % 2 = 0 ∨ (x.quarters.2.1 * unit < v ∧ v < x.quarters.2.2 * unit))

/-- The lower end of the numbers near a double, in quarters of a unit of its last place. -/
theorem quarters_low (hx : x.IsPositive) : (x.quarters.2.1 : ℚ) =
    4 * x.significand - if x.fraction = 0 ∧ 1 < x.exponentField then 1 else 2 := by
  have hpos := hx.pos
  simp only [quarters, Bool.and_eq_true, decide_eq_true_eq]
  split
  · rw [Nat.cast_sub (by omega)]
    push_cast
    ring
  · rw [Nat.cast_sub (by omega)]
    push_cast
    ring

/-- The upper end of the numbers near a double, in quarters of a unit of its last place. -/
theorem quarters_high (x : Binary64) : (x.quarters.2.2 : ℚ) = 4 * x.significand + 2 := by
  simp [quarters]

/-- A unit of the last place has four quarters. -/
theorem unit_eq (x : Binary64) : (2 : ℚ) ^ x.exponent = 4 * 2 ^ (x.exponent - 2) := by
  rw [zpow_sub₀ (by norm_num)]
  norm_num
  ring

/-- The fraction ends in the last bit of the significand. -/
theorem fraction_parity (x : Binary64) : x.fraction % 2 = x.significand % 2 := by
  have hpow : pow2 52 = 2 ^ 52 := rfl
  rw [significand]
  split <;> omega

/-- The least significand of a power of two that is not the least one has a finer grid below it. -/
theorem least_iff (hx : x.IsPositive) :
    (x.fraction = 0 ∧ 1 < x.exponentField) ↔ x.significand = 2 ^ 52 ∧ -1074 < x.exponent := by
  have hpow : pow2 52 = 2 ^ 52 := rfl
  have hpos := hx.pos
  have hfraction := x.fraction_lt
  rw [exponent]
  unfold significand at hpos ⊢
  split at hpos <;> split <;> omega

/-- What is near a positive double is so by at most half a unit of its last place. -/
theorem IsNear.bounds (hx : x.IsPositive) {v : ℚ} (h : x.IsNear v) :
    (x.significand - 1 / 2) * 2 ^ x.exponent ≤ v ∧ v ≤ (x.significand + 1 / 2) * 2 ^ x.exponent ∧
      (x.significand % 2 = 0 ∨ ((x.significand - 1 / 2) * 2 ^ x.exponent < v ∧
        v < (x.significand + 1 / 2) * 2 ^ x.exponent)) := by
  have hpos : (0 : ℚ) < 2 ^ (x.exponent - 2) := by positivity
  obtain ⟨hlow, hhigh, htie⟩ := h
  rw [fraction_parity] at htie
  rw [quarters_low hx] at hlow htie
  rw [quarters_high] at hhigh htie
  rw [unit_eq]
  split at hlow
  · next hleast =>
    rw [if_pos hleast] at htie
    exact ⟨by nlinarith, by nlinarith, htie.imp_right fun h => ⟨by nlinarith [h.1], by nlinarith [h.2]⟩⟩
  · next hleast =>
    rw [if_neg hleast] at htie
    exact ⟨by nlinarith, by nlinarith, htie.imp_right fun h => ⟨by nlinarith [h.1], by nlinarith [h.2]⟩⟩

/-- What is near a power of two is so from below by at most a quarter of a unit of its last place. -/
theorem IsNear.least (hx : x.IsPositive) (hm : x.significand = 2 ^ 52) (he : -1074 < x.exponent) {v : ℚ}
    (h : x.IsNear v) : (2 ^ 52 - 1 / 4) * 2 ^ x.exponent ≤ v := by
  have hlow := h.1
  rw [quarters_low hx, if_pos ((least_iff hx).2 ⟨hm, he⟩), hm] at hlow
  rw [unit_eq]
  push_cast at hlow
  linarith

/-- A number near a positive double is positive. -/
theorem IsNear.pos (hx : x.IsPositive) {v : ℚ} (h : x.IsNear v) : 0 < v := by
  have hm : (1 : ℚ) ≤ x.significand := by exact_mod_cast hx.pos
  have hunit : (0 : ℚ) < 2 ^ x.exponent := by positivity
  have hlow := (h.bounds hx).1
  nlinarith

/-! ## Quotients rounded -/

/-- A quotient that is nearest to a natural is rounded to it, and so is one in the middle if the natural
is even. -/
theorem roundDiv_eq {num den m : ℕ} (hden : 0 < den) (hlow : 2 * m * den ≤ 2 * num + den)
    (hhigh : 2 * num ≤ 2 * m * den + den)
    (htie : m % 2 = 0 ∨ (2 * m * den < 2 * num + den ∧ 2 * num < 2 * m * den + den)) :
    roundDiv num den = m := by
  have hsplit := Nat.div_add_mod' num den
  have hrest := Nat.mod_lt num hden
  unfold roundDiv
  dsimp only
  generalize num / den = q at *
  generalize num % den = r at *
  subst hsplit
  -- the natural is the whole part of the quotient or the next one
  have hm : m = q ∨ m = q + 1 := by
    rcases Nat.lt_or_ge m q with h | h
    · have := Nat.mul_le_mul_right den (Nat.succ_le_of_lt h)
      rw [Nat.succ_mul] at this
      nlinarith
    · rcases Nat.lt_or_ge (q + 1) m with h' | h'
      · have := Nat.mul_le_mul_right den (Nat.succ_le_of_lt h')
        rw [Nat.succ_mul, Nat.succ_mul] at this
        nlinarith
      · omega
  rcases hm with rfl | rfl
  · -- the rest is at most one half, and where it is one half the whole part is even
    have : 2 * r ≤ den := by nlinarith
    split
    · rfl
    · have : 2 * r = den := by omega
      rw [if_neg (by omega)]
      rcases htie with h | ⟨-, h⟩
      · omega
      · nlinarith
  · -- the rest is at least one half, and where it is one half the whole part is odd
    have : den ≤ 2 * r := by nlinarith
    rw [if_neg (by omega)]
    split
    · rfl
    · have : 2 * r = den := by omega
      rcases htie with h | ⟨h, -⟩
      · omega
      · nlinarith

/-- A ratio of which a natural is the nearest one is rounded to it. -/
theorem roundDiv_of_near {num den m : ℕ} (hden : 0 < den) {w : ℚ} (hw : w = num / den)
    (hlow : m - 1 / 2 ≤ w) (hhigh : w ≤ m + 1 / 2)
    (htie : m % 2 = 0 ∨ (m - 1 / 2 < w ∧ w < m + 1 / 2)) : roundDiv num den = m := by
  have hpos : (0 : ℚ) < den := by exact_mod_cast hden
  have hmul : w * den = num := by rw [hw]; field_simp
  refine roundDiv_eq hden ?_ ?_ (htie.imp_right fun h => ⟨?_, ?_⟩)
  · have : (2 * m * den : ℚ) ≤ 2 * num + den := by nlinarith
    exact_mod_cast this
  · have : (2 * num : ℚ) ≤ 2 * m * den + den := by nlinarith
    exact_mod_cast this
  · have : (2 * m * den : ℚ) < 2 * num + den := by nlinarith [h.1]
    exact_mod_cast this
  · have : (2 * num : ℚ) < 2 * m * den + den := by nlinarith [h.2]
    exact_mod_cast this

/-! ## Ratios rounded to doubles -/

/-- A ratio with both sides scaled by powers of two is the ratio scaled by a power of two. -/
theorem scaled_ratio (num : ℕ) {den : ℕ} (hden : 0 < den) (k : ℤ) :
    ((num * pow2 (-k).toNat : ℕ) : ℚ) / (den * pow2 k.toNat : ℕ) = num / den / 2 ^ k := by
  have hpos : (0 : ℚ) < den := by exact_mod_cast hden
  have hk : (0 : ℚ) < pow2 k.toNat := by exact_mod_cast pow2_pos _
  have hk' : (0 : ℚ) < pow2 (-k).toNat := by exact_mod_cast pow2_pos _
  rw [two_zpow, Nat.cast_mul, Nat.cast_mul]
  field_simp

/-- A ratio of positive naturals is between two powers of two next to each other. -/
theorem floorLog2_spec {num den : ℕ} (hnum : 0 < num) (hden : 0 < den) :
    (2 : ℚ) ^ floorLog2 num den ≤ num / den ∧ (num / den : ℚ) < 2 ^ (floorLog2 num den + 1) := by
  have hd : (0 : ℚ) < den := by exact_mod_cast hden
  have hlow : (2 : ℚ) ^ num.log2 ≤ num := by exact_mod_cast Nat.log2_self_le hnum.ne'
  have hhigh : (num : ℚ) < 2 ^ (num.log2 + 1) := by exact_mod_cast Nat.lt_log2_self
  have hlow' : (2 : ℚ) ^ den.log2 ≤ den := by exact_mod_cast Nat.log2_self_le hden.ne'
  have hhigh' : (den : ℚ) < 2 ^ (den.log2 + 1) := by exact_mod_cast Nat.lt_log2_self
  have hscale := scaled_ratio num hden ((num.log2 : ℤ) - den.log2)
  rw [floorLog2]
  -- the number of bits leaves two exponents, and the comparison decides between them
  generalize hk : (num.log2 : ℤ) - den.log2 = k at hscale ⊢
  have hpow : (2 : ℚ) ^ k * 2 ^ den.log2 = 2 ^ num.log2 := by
    rw [← hk, zpow_sub₀ (by norm_num), zpow_natCast, zpow_natCast]
    field_simp
  have hbelow : (num / den : ℚ) < 2 ^ (k + 1) := by
    rw [div_lt_iff₀ hd, zpow_add_one₀ (by norm_num)]
    have hunit : (0 : ℚ) < 2 ^ k := by positivity
    rw [pow_succ, ← hpow] at hhigh
    nlinarith
  have habove : (2 : ℚ) ^ (k - 1) ≤ num / den := by
    rw [le_div_iff₀ hd, zpow_sub_one₀ (by norm_num)]
    have hunit : (0 : ℚ) < 2 ^ k := by positivity
    rw [← hpow] at hlow
    rw [pow_succ] at hhigh'
    nlinarith
  have hden' : (0 : ℚ) < (den * pow2 k.toNat : ℕ) := by
    exact_mod_cast Nat.mul_pos hden (pow2_pos _)
  have hiff : num * pow2 (-k).toNat < den * pow2 k.toNat ↔ (num / den : ℚ) < 2 ^ k := by
    have hunit : (0 : ℚ) < 2 ^ k := by positivity
    rw [← Nat.cast_lt (α := ℚ), ← div_lt_one hden', hscale, div_lt_one hunit]
  split
  · next h => exact ⟨habove, by rw [sub_add_cancel]; exact hiff.1 h⟩
  · next h => exact ⟨not_lt.1 (mt hiff.2 h), hbelow⟩

/-- The exponent that a number near a double is rounded at: that of the double, or the one below where
the number is below a power of two. -/
theorem IsNear.exponent_cases (hx : x.IsPositive) {v : ℚ} (h : x.IsNear v) {k : ℤ}
    (hk : (2 : ℚ) ^ k ≤ v) (hk' : v < 2 ^ (k + 1)) :
    max (k - 52) (-1074) = x.exponent ∨
      (max (k - 52) (-1074) = x.exponent - 1 ∧ -1074 < x.exponent ∧ x.significand = 2 ^ 52 ∧
        v < 2 ^ 52 * 2 ^ x.exponent) := by
  obtain ⟨hlow, hhigh, -⟩ := h.bounds hx
  have hle := hx.le
  have hunit : (0 : ℚ) < 2 ^ x.exponent := by positivity
  have hpow (n : ℕ) : (2 : ℚ) ^ (x.exponent + n) = 2 ^ n * 2 ^ x.exponent := by
    rw [zpow_add₀ (by norm_num), zpow_natCast, mul_comm]
  have hlt {i j : ℤ} (h : (2 : ℚ) ^ i < 2 ^ j) : i < j := (zpow_lt_zpow_iff_right₀ (by norm_num)).1 h
  have hm : (x.significand : ℚ) + 1 ≤ 2 ^ 53 := by exact_mod_cast hx.lt
  -- the number has at most as many bits as the double, so its exponent is not above that of the double
  have hupper : k < x.exponent + 53 := hlt (by
    have := hpow 53
    push_cast at this
    rw [this]
    nlinarith)
  by_cases hnormal : x.exponent = -1074 ∨ x.exponent + 52 ≤ k
  · exact .inl (by omega)
  · -- the number has fewer bits than the double only if the double is a power of two just above it
    have hbelow : v < 2 ^ 52 * 2 ^ x.exponent := by
      have hmono : (2 : ℚ) ^ (k + 1) ≤ 2 ^ (x.exponent + 52) :=
        zpow_le_zpow_right₀ (by norm_num) (by omega)
      have := hpow 52
      push_cast at this
      linarith
    have hleast : x.significand = 2 ^ 52 := by
      have hfloor := hx.normal.resolve_left (by omega)
      have : (x.significand : ℚ) < 2 ^ 52 + 1 := by nlinarith
      have : x.significand < 2 ^ 52 + 1 := by exact_mod_cast this
      omega
    have hquarter := h.least hx hleast (by omega)
    have hlower : x.exponent + 51 < k + 1 := hlt (by
      have := hpow 51
      push_cast at this
      rw [this]
      nlinarith)
    exact .inr ⟨by omega, by omega, hleast, hbelow⟩

/-- A ratio near a double is rounded to the double. -/
theorem ofRatio_of_isNear (hx : x.IsPositive) (negative : Bool) {num den : ℕ} (hden : 0 < den)
    (h : x.IsNear (num / den)) : ofRatio negative num den = ofMagnitude negative x.magnitudeBits := by
  have hnum : 0 < num := by
    refine Nat.pos_of_ne_zero fun h0 => ?_
    have hpos := h.pos hx
    simp [h0] at hpos
  have hfinite := hx.finite
  have hle := hx.le
  have hbits := x.magnitudeBits_eq
  have hpow : pow2 52 = 2 ^ 52 := rfl
  have hscale := scaled_ratio num hden
  obtain ⟨hk, hk'⟩ := floorLog2_spec hnum hden
  have hunit : (0 : ℚ) < 2 ^ x.exponent := by positivity
  have hden' (e : ℤ) : 0 < den * pow2 e.toNat := Nat.mul_pos hden (pow2_pos _)
  rw [ofRatio, if_neg hnum.ne']
  dsimp only
  generalize floorLog2 num den = k at hk hk' ⊢
  generalize (num / den : ℚ) = v at h hk hk' hscale
  rcases h.exponent_cases hx hk hk' with he | ⟨he, hnormal, hleast, hbelow⟩
  · -- the number is rounded on the grid of the double
    obtain ⟨hlow, hhigh, htie⟩ := h.bounds hx
    have hround : roundDiv (num * pow2 (-x.exponent).toNat) (den * pow2 x.exponent.toNat) =
        x.significand := by
      refine roundDiv_of_near (hden' _) (hscale x.exponent).symm ?_ ?_ (htie.imp_right fun h => ⟨?_, ?_⟩)
      · rwa [le_div_iff₀ hunit]
      · rwa [div_le_iff₀ hunit]
      · rw [lt_div_iff₀ hunit]
        exact h.1
      · rw [div_lt_iff₀ hunit]
        exact h.2
    rw [he, hround, hpow, ← hbits, Nat.min_eq_left hfinite.le]
  · -- the grid is finer here, and the next power of two on it is the double
    have hquarter := h.least hx hleast hnormal
    have hhalf : (2 : ℚ) ^ (x.exponent - 1) = 2 ^ x.exponent / 2 := zpow_sub_one₀ (by norm_num) _
    have hround : roundDiv (num * pow2 (-(x.exponent - 1)).toNat)
        (den * pow2 (x.exponent - 1).toNat) = 2 ^ 53 := by
      refine roundDiv_of_near (hden' _) (hscale (x.exponent - 1)).symm ?_ ?_ (.inl (by norm_num))
      · rw [le_div_iff₀ (by positivity), hhalf]
        push_cast
        linarith
      · rw [div_le_iff₀ (by positivity), hhalf]
        push_cast
        linarith
    have hsum : (x.exponent - 1 + 1074).toNat * 2 ^ 52 + 2 ^ 53 = x.magnitudeBits := by
      rw [hbits, hleast]
      omega
    rw [he, hround, hpow, hsum, Nat.min_eq_left hfinite.le]

/-! ## Decimals rounded to doubles -/

/-- A number has as many digits as the first power of ten above it says. -/
theorem lt_pow_digitCount (n : ℕ) : n < 10 ^ digitCount n := by
  induction n using digitCount.induct with
  | case1 => simp [digitCount]
  | case2 n hn ih =>
    rw [digitCount, if_neg hn, pow_succ]
    omega

/-- A number is at least the power of ten with its number of digits. -/
theorem pow_digitCount_le {n : ℕ} (hn : 0 < n) : 10 ^ (digitCount n - 1) ≤ n := by
  induction n using digitCount.induct with
  | case1 => omega
  | case2 n _ ih =>
    rw [digitCount, if_neg hn.ne', Nat.add_sub_cancel]
    rcases Nat.eq_zero_or_pos (n / 10) with h | h
    · rw [h]
      simpa [digitCount] using Nat.succ_le_of_lt hn
    · have hpos : digitCount (n / 10) ≠ 0 := by
        rw [digitCount, if_neg h.ne']
        omega
      have := ih h
      have hsucc : digitCount (n / 10) = (digitCount (n / 10) - 1) + 1 := by omega
      rw [hsucc, pow_succ]
      omega

/-- The exponent of a finite double is at most that of the largest one. -/
theorem IsPositive.exponent_le (hx : x.IsPositive) : x.exponent ≤ 971 := by
  have hfinite := hx.finite
  rw [magnitudeBits_eq, show infinityBits = 2047 * 2 ^ 52 from rfl] at hfinite
  have hnormal := hx.normal
  omega

/-- No double but zero is as small as a decimal with its point far to the left. -/
theorem pow10_lt_least : (10 : ℚ) ^ (-331 : ℤ) < 1 / 2 * 2 ^ (-1074 : ℤ) := by
  have hpow : (2 : ℚ) ^ 1075 < 10 ^ 331 := calc
    (2 : ℚ) ^ 1075 = (2 ^ 43) ^ 25 := by rw [← pow_mul]
    _ < (10 ^ 13) ^ 25 := by gcongr; norm_num
    _ = 10 ^ 325 := by rw [← pow_mul]
    _ < 10 ^ 331 := pow_lt_pow_right₀ (by norm_num) (by norm_num)
  have hhalf : 1 / 2 * (2 : ℚ) ^ (-1074 : ℤ) = (2 ^ 1075)⁻¹ := by
    rw [zpow_neg, zpow_ofNat, one_div, ← mul_inv, ← pow_succ']
  rw [hhalf, zpow_neg, zpow_ofNat]
  exact inv_strictAnti₀ (by positivity) hpow

/-- No double is as large as a decimal with its point far to the right. -/
theorem most_lt_pow10 : (2 : ℚ) ^ 53 * 2 ^ (971 : ℤ) < 10 ^ (330 : ℤ) := by
  rw [zpow_ofNat, zpow_ofNat, ← pow_add]
  calc (2 : ℚ) ^ 1024 = (2 ^ 16) ^ 64 := by rw [← pow_mul]
    _ < (10 ^ 5) ^ 64 := by gcongr; norm_num
    _ = 10 ^ 320 := by rw [← pow_mul]
    _ < 10 ^ 330 := pow_lt_pow_right₀ (by norm_num) (by norm_num)

/-- A decimal near a double has neither too many digits nor too few of them. -/
theorem IsNear.digits (hx : x.IsPositive) {m : ℕ} {e : ℤ} (h : x.IsNear (m * 10 ^ e)) :
    0 < m ∧ -330 ≤ digitCount m + e ∧ digitCount m + e ≤ 330 := by
  have hm : 0 < m := by
    refine Nat.pos_of_ne_zero fun h0 => ?_
    have hpos := h.pos hx
    simp [h0] at hpos
  obtain ⟨hlow, hhigh, -⟩ := h.bounds hx
  have hten : (0 : ℚ) < 10 ^ e := by positivity
  have hunit : (0 : ℚ) < 2 ^ x.exponent := by positivity
  have hlt {i j : ℤ} (h : (10 : ℚ) ^ i < 10 ^ j) : i < j := (zpow_lt_zpow_iff_right₀ (by norm_num)).1 h
  refine ⟨hm, ?_, ?_⟩
  · have hfew : (10 : ℚ) ^ (-331 : ℤ) < 10 ^ (digitCount m + e) := calc
      (10 : ℚ) ^ (-331 : ℤ) < 1 / 2 * 2 ^ (-1074 : ℤ) := pow10_lt_least
      _ ≤ 1 / 2 * 2 ^ x.exponent := by gcongr; exacts [by norm_num, hx.le]
      _ ≤ (x.significand - 1 / 2) * 2 ^ x.exponent := by
        have : (1 : ℚ) ≤ x.significand := by exact_mod_cast hx.pos
        gcongr
        linarith
      _ ≤ m * 10 ^ e := hlow
      _ ≤ 10 ^ digitCount m * 10 ^ e := by
        gcongr
        exact_mod_cast (lt_pow_digitCount m).le
      _ = 10 ^ (digitCount m + e) := by rw [zpow_add₀ (by norm_num), zpow_natCast]
    have := hlt hfew
    omega
  · have hmany : (10 : ℚ) ^ (((digitCount m - 1 : ℕ) : ℤ) + e) < 10 ^ (330 : ℤ) := calc
      (10 : ℚ) ^ (((digitCount m - 1 : ℕ) : ℤ) + e) = 10 ^ (digitCount m - 1) * 10 ^ e := by
        rw [zpow_add₀ (by norm_num), zpow_natCast]
      _ ≤ m * 10 ^ e := by
        gcongr
        exact_mod_cast pow_digitCount_le hm
      _ ≤ (x.significand + 1 / 2) * 2 ^ x.exponent := hhigh
      _ ≤ 2 ^ 53 * 2 ^ (971 : ℤ) := by
        have : (x.significand : ℚ) + 1 ≤ 2 ^ 53 := by exact_mod_cast hx.lt
        gcongr
        · linarith
        · norm_num
        · exact hx.exponent_le
      _ < 10 ^ (330 : ℤ) := most_lt_pow10
    have := hlt hmany
    omega

/-- A decimal near a double is rounded to the double. -/
theorem ofDecimal_of_isNear (hx : x.IsPositive) (negative : Bool) {m : ℕ} {e : ℤ}
    (h : x.IsNear (m * 10 ^ e)) : ofDecimal negative m e = ofMagnitude negative x.magnitudeBits := by
  obtain ⟨hm, hlow, hhigh⟩ := h.digits hx
  have hratio : (m * 10 ^ e : ℚ) = (m * pow10 e.toNat : ℕ) / (pow10 (-e).toNat : ℕ) := by
    rw [ten_zpow, Nat.cast_mul, mul_div_assoc]
  rw [hratio] at h
  rw [ofDecimal, if_neg (by simp only [Bool.or_eq_true, decide_eq_true_eq]; omega), if_neg (by omega)]
  exact ofRatio_of_isNear hx negative (pow10_pos _) h

end Binary64

end PhpGraft.Decimal

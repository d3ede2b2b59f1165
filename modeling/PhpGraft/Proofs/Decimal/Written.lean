import PhpGraft.Decimal.Layout
import PhpGraft.Proofs.Decimal.Numeral
import PhpGraft.Proofs.Decimal.Shortest

/-!
# Written doubles

A double is written in digits with a point or an exponent (`Written`), and these denote the shortest
decimal of the double: where the point is put among its digits (`exists_positional`), and where an
exponent is written behind them (`exists_scientific`). So what is written is near the double, and the
double of what is written is the double itself (`exists_written`).
-/

namespace PhpGraft.Decimal

/-! ## Digits with a point or an exponent -/

/-- A decimal numeral with a point or an exponent, given by its digits. -/
structure Written where
  /-- The digits ahead of the point, the first one apart. -/
  first : Char
  whole : List Char
  /-- The digits behind the point, if there is one. -/
  fraction : List Char
  /-- The digits of the exponent, if there is one. -/
  exponent : List Char
  digits : ∀ c ∈ first :: (whole ++ (fraction ++ exponent)), c.isDigit = true
  proper : fraction ≠ [] ∨ exponent ≠ []

/-- Digits behind a mark, and nothing where there are none. -/
def marked (mark : Char) (digits : List Char) : List Char :=
  if digits.isEmpty then [] else mark :: digits

/-- Nothing is marked where there are no digits, and only then. -/
theorem isEmpty_marked (mark : Char) (digits : List Char) :
    (marked mark digits).isEmpty = digits.isEmpty := by
  cases digits <;> rfl

namespace Written

variable (w : Written)

/-- The numeral behind its first digit. -/
def rest : List Char := w.whole ++ (marked '.' w.fraction ++ marked 'e' w.exponent)

/-- All digits but those of the exponent, read as a natural. -/
def coefficient : ℕ := (readFrom 10 0 (w.first :: (w.whole ++ w.fraction))).getD 0

/-- The power of ten by which they are scaled. -/
def scale : ℤ := ((readFrom 10 0 w.exponent).getD 0 : ℕ) - w.fraction.length

/-- The number that a numeral denotes. -/
def value : ℚ := w.coefficient * 10 ^ w.scale

variable {w}

/-- What a numeral denotes by what its digits are read as. -/
theorem value_eq {c n : ℕ} (hdigits : readFrom 10 0 (w.first :: (w.whole ++ w.fraction)) = some c)
    (hexponent : readFrom 10 0 w.exponent = some n) :
    w.value = c * 10 ^ ((n : ℤ) - w.fraction.length) := by
  rw [value, coefficient, scale, hdigits, hexponent, Option.getD_some, Option.getD_some]

end Written

/-- Zeros behind a number shift it. -/
theorem readFrom_zeros (acc n : ℕ) : readFrom 10 acc (List.replicate n '0') = some (acc * 10 ^ n) := by
  induction n generalizing acc with
  | zero => simp [readFrom]
  | succ n ih =>
    have hzero : digitValue? '0' = some 0 := by decide
    rw [List.replicate_succ, readFrom, hzero]
    simp only [Nat.add_zero, Nat.zero_lt_succ, if_true]
    rw [ih, pow_succ, mul_assoc, mul_comm 10]

/-- Zeros are digits. -/
theorem isDigit_of_mem_zeros {n : ℕ} {c : Char} (h : c ∈ List.replicate n '0') : c.isDigit = true := by
  rw [(List.mem_replicate.1 h).2]
  rfl

section Points

variable {ds : List Char} {d : Char} {c : ℕ}

/-- Digits with zeros ahead of them, and the point ahead of all of these but one. -/
theorem exists_zeros_ahead (hdigits : ∀ d ∈ ds, d.isDigit = true) (hread : readFrom 10 0 ds = some c)
    (hne : ds ≠ []) (n : ℕ) : ∃ w : Written,
    w.first :: w.rest = '0' :: '.' :: (List.replicate n '0' ++ ds) ∧
      w.value = c * 10 ^ (-(n + ds.length : ℤ)) := by
  refine ⟨⟨'0', [], List.replicate n '0' ++ ds, [], ?_, .inl (by simp [hne])⟩, ?_, ?_⟩
  · intro d hd
    simp only [List.nil_append, List.append_nil, List.mem_cons, List.mem_append] at hd
    rcases hd with rfl | hd | hd
    exacts [rfl, isDigit_of_mem_zeros hd, hdigits d hd]
  · simp [Written.rest, marked, hne]
  · have hcoefficient : readFrom 10 0 ('0' :: ([] ++ (List.replicate n '0' ++ ds))) = some c := by
      rw [List.nil_append, ← List.cons_append, ← List.replicate_succ, readFrom_append, readFrom_zeros,
        Option.bind_some, zero_mul, hread]
    have hscale : ((0 : ℕ) : ℤ) - (List.replicate n '0' ++ ds).length = -(n + ds.length) := by
      rw [List.length_append, List.length_replicate]
      omega
    refine (Written.value_eq hcoefficient rfl).trans ?_
    dsimp only
    rw [hscale]

/-- Digits with zeros behind them, and one more zero behind the point. -/
theorem exists_zeros_behind (hdigits : ∀ e ∈ d :: ds, e.isDigit = true)
    (hread : readFrom 10 0 (d :: ds) = some c) (n : ℕ) : ∃ w : Written,
    w.first :: w.rest = d :: ds ++ List.replicate n '0' ++ ['.', '0'] ∧ w.value = c * 10 ^ (n : ℤ) := by
  refine ⟨⟨d, ds ++ List.replicate n '0', ['0'], [], ?_, .inl nofun⟩, ?_, ?_⟩
  · intro e he
    simp only [List.append_nil, List.mem_cons, List.mem_append, List.not_mem_nil, or_false] at he
    rcases he with rfl | (he | he) | rfl
    exacts [hdigits _ (List.mem_cons_self ..), hdigits _ (List.mem_cons_of_mem _ he),
      isDigit_of_mem_zeros he, rfl]
  · simp [Written.rest, marked]
  · have hcoefficient : readFrom 10 0 (d :: (ds ++ List.replicate n '0' ++ ['0'])) =
        some (c * 10 ^ n * 10 ^ 1) := by
      rw [← List.cons_append, ← List.cons_append, readFrom_append, readFrom_append, hread,
        Option.bind_some, readFrom_zeros, Option.bind_some]
      exact readFrom_zeros _ 1
    have hpower : (10 : ℚ) ^ (((0 : ℕ) : ℤ) - ['0'].length) = (10 ^ 1)⁻¹ := by norm_num
    refine (Written.value_eq hcoefficient rfl).trans ?_
    dsimp only
    rw [hpower, zpow_natCast, Nat.cast_mul, Nat.cast_mul, Nat.cast_pow, Nat.cast_pow, Nat.cast_ofNat]
    exact mul_inv_cancel_right₀ (by norm_num) _

/-- Digits with the point among them. -/
theorem exists_point_among (hdigits : ∀ e ∈ d :: ds, e.isDigit = true)
    (hread : readFrom 10 0 (d :: ds) = some c) {n : ℕ} (hn : n < ds.length) : ∃ w : Written,
    w.first :: w.rest = d :: ds.take n ++ '.' :: ds.drop n ∧
      w.value = c * 10 ^ ((n : ℤ) - ds.length) := by
  have hdrop : ds.drop n ≠ [] := fun hnil => absurd (List.drop_eq_nil_iff.1 hnil) (not_le.2 hn)
  refine ⟨⟨d, ds.take n, ds.drop n, [], ?_, .inl hdrop⟩, ?_, ?_⟩
  · rw [List.append_nil, List.take_append_drop]
    exact hdigits
  · simp [Written.rest, marked, hn]
  · have hscale : ((0 : ℕ) : ℤ) - (ds.drop n).length = n - ds.length := by
      rw [List.length_drop]
      omega
    have hcoefficient : readFrom 10 0 (d :: (ds.take n ++ ds.drop n)) = some c := by
      rw [List.take_append_drop, hread]
    refine (Written.value_eq hcoefficient rfl).trans ?_
    dsimp only
    rw [hscale]

end Points

/-- A number is written in digits with a point among or around them. -/
theorem exists_positional (c : ℕ) (k : ℤ) : ∃ w : Written,
    w.first :: w.rest = positional (ofNat c) ((ofNat c).length + k) ∧ w.value = c * 10 ^ k := by
  have hread := readFrom_ofNat c
  have hdigits (d : Char) (hd : d ∈ ofNat c) : d.isDigit = true := isDigit_of_mem_ofNat hd
  have hne := ofNat_ne_nil c
  generalize ofNat c = ds at *
  rw [positional]
  split
  · next hpoint =>
    obtain ⟨w, hw, hvalue⟩ := exists_zeros_ahead hdigits hread hne (-(ds.length + k)).toNat
    have hk : -(((-(ds.length + k)).toNat : ℤ) + ds.length) = k := by omega
    exact ⟨w, hw, hk ▸ hvalue⟩
  · next hpoint =>
    obtain ⟨d, ds, rfl⟩ := List.exists_cons_of_ne_nil hne
    obtain ⟨n, hn⟩ : ∃ n : ℕ, ((d :: ds).length + k).toNat = n + 1 := ⟨_, (Nat.succ_pred (by omega)).symm⟩
    dsimp only
    rw [hn]
    split
    · next hdrop =>
      have hlength : (d :: ds).length ≤ n + 1 := List.drop_eq_nil_iff.1 hdrop
      obtain ⟨w, hw, hvalue⟩ := exists_zeros_behind hdigits hread (n + 1 - (d :: ds).length)
      have hk : ((n + 1 - (d :: ds).length : ℕ) : ℤ) = k := by omega
      rw [List.take_of_length_le hlength]
      exact ⟨w, hw, hk ▸ hvalue⟩
    · next hdrop =>
      have hlength : n < ds.length := by
        by_contra h
        exact hdrop (List.drop_eq_nil_iff.2 (by simpa using h))
      obtain ⟨w, hw, hvalue⟩ := exists_point_among hdigits hread hlength
      have hk : (n : ℤ) - ds.length = k := by
        simp only [List.length_cons] at hn hpoint
        omega
      have hnone : n + 1 - (d :: ds).length = 0 := Nat.sub_eq_zero_of_le (Nat.succ_le_succ hlength.le)
      rw [hnone, List.replicate_zero, List.append_nil]
      exact ⟨w, hw, hk ▸ hvalue⟩

/-- A number is written in digits with a point behind the first one and an exponent. -/
theorem exists_scientific (c : ℕ) {k : ℤ} (hk : 0 < (ofNat c).length + k) : ∃ w : Written,
    w.first :: w.rest = scientific false (ofNat c) ((ofNat c).length + k - 1) ∧ w.value = c * 10 ^ k := by
  have hread := readFrom_ofNat c
  have hdigits (d : Char) (hd : d ∈ ofNat c) : d.isDigit = true := isDigit_of_mem_ofNat hd
  have hne := ofNat_ne_nil c
  generalize ofNat c = ds at *
  obtain ⟨d, ds, rfl⟩ := List.exists_cons_of_ne_nil hne
  obtain ⟨n, hn⟩ : ∃ n : ℕ, ((d :: ds).length : ℤ) + k - 1 = n := Int.eq_ofNat_of_zero_le (by omega)
  refine ⟨⟨d, [], ds, ofNat n, ?_, .inr (ofNat_ne_nil n)⟩, ?_, ?_⟩
  · intro e he
    rw [List.nil_append, ← List.cons_append, List.mem_append] at he
    rcases he with he | he
    exacts [hdigits e he, isDigit_of_mem_ofNat he]
  · rw [hn]
    cases ds <;> simp [Written.rest, marked, scientific, intText, natText, ofNat_ne_nil]
  · have hscale : (n : ℤ) - ds.length = k := by
      rw [List.length_cons] at hn
      omega
    refine (Written.value_eq hread (readFrom_ofNat n)).trans ?_
    dsimp only
    rw [hscale]

/-! ## Doubles -/

namespace Binary64

variable {x : Binary64}

/-- What is written of a finite double is its shortest decimal, behind a minus sign if the double is
negative. -/
theorem exists_rendered (hx : x.isFinite = true) {form : Layout} (hplus : form.plus = false)
    (hlowest : form.lowest? = none) (hlimit : 0 ≤ form.limit) : ∃ w : Written,
    form.render x = (if x.isNegative then "-" else "") ++ String.ofList (w.first :: w.rest) ∧
      w.value = (x.shortest form.tie).value := by
  have hlt : x.magnitudeBits < infinityBits := of_decide_eq_true hx
  have hnan : x.isNaN = false := decide_eq_false (by omega)
  have hinfinite : x.isInfinite = false := beq_false_of_ne (by omega)
  have hrender : form.render x =
      let digits := Decimal.ofNat (x.shortest form.tie).coefficient
      let point := digits.length + (x.shortest form.tie).exponent
      (if x.isNegative then "-" else "") ++ String.ofList
        (if x.isZero || !decide (form.limit < point) then positional digits point
          else scientific false digits (point - 1)) := by
    rw [Layout.render, hnan, hinfinite, hlowest, hplus]
    simp only [Bool.false_eq_true, if_false, Bool.or_false]
  generalize x.shortest form.tie = d at hrender ⊢
  generalize (if x.isNegative then "-" else "") = sign at hrender ⊢
  dsimp only at hrender
  split at hrender
  · obtain ⟨w, hw, hvalue⟩ := exists_positional d.coefficient d.exponent
    exact ⟨w, by rw [hrender, hw], hvalue⟩
  · next hform =>
    simp only [Bool.or_eq_true, Bool.not_eq_true', decide_eq_false_iff_not, not_or, not_not] at hform
    obtain ⟨w, hw, hvalue⟩ := @exists_scientific d.coefficient d.exponent (by omega)
    exact ⟨w, by rw [hrender, hw], hvalue⟩

/-- What is written of a finite double is a numeral, behind a minus sign if the double is negative. The
double of the numeral has all bits but the sign of the double written. -/
theorem exists_written (hx : x.isFinite = true) {form : Layout} (hplus : form.plus = false)
    (hlowest : form.lowest? = none) (hlimit : 0 ≤ form.limit) : ∃ w : Written,
    form.render x = (if x.isNegative then "-" else "") ++ String.ofList (w.first :: w.rest) ∧
      ofDecimal false w.coefficient w.scale = ofMagnitude false x.magnitudeBits := by
  obtain ⟨w, hw, hvalue⟩ := exists_rendered hx hplus hlowest hlimit
  refine ⟨w, hw, ?_⟩
  cases hzero : x.isZero with
  | true =>
    -- no number is near zero, but zero is written as zero
    have hbits : x.magnitudeBits = 0 := by simpa [isZero] using hzero
    have hcoefficient : w.coefficient = 0 := by
      simpa [Written.value, shortest, hzero, Scaled.value, zpow_ne_zero] using hvalue
    rw [ofDecimal, hcoefficient, hbits]
    rfl
  | false =>
    have hpositive := isPositive hx hzero
    refine ofDecimal_of_isNear hpositive false ?_
    have hnear := isNear_shortest hpositive form.tie
    rwa [← hvalue] at hnear

end Binary64

end PhpGraft.Decimal

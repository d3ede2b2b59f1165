import PhpGraft.Decimal.Numeral

/-!
# Numerals read back

The digits of a number are digits, the first of them is zero only for zero, and reading them gives
the number back.
-/

namespace PhpGraft.Decimal

/-- The digit of a number below ten is a digit with that value, and it is zero only for zero. -/
theorem digitChar_spec {d : Nat} (h : d < 10) :
    (digitChar d).isDigit = true ∧ digitValue? (digitChar d) = some d ∧
      (digitChar d = '0' → d = 0) := by
  revert d
  decide

/-- A number in base ten has digits. -/
theorem ofNat_ne_nil (n : Nat) : ofNat n ≠ [] := by
  unfold ofNat
  split <;> simp

/-- A number in base ten is written in digits. -/
theorem isDigit_of_mem_ofNat {n : Nat} {c : Char} (h : c ∈ ofNat n) : c.isDigit = true := by
  induction n using ofNat.induct with
  | case1 n hn =>
    rw [ofNat, if_pos hn, List.mem_singleton] at h
    rw [h]
    exact (digitChar_spec hn).1
  | case2 n hn ih =>
    rw [ofNat, if_neg hn, List.mem_append, List.mem_singleton] at h
    rcases h with h | rfl
    · exact ih h
    · exact (digitChar_spec (Nat.mod_lt n (by decide))).1

/-- Only zero starts with the digit zero. -/
theorem eq_zero_of_ofNat_eq {n : Nat} {cs : List Char} (h : ofNat n = '0' :: cs) : n = 0 := by
  induction n using ofNat.induct generalizing cs with
  | case1 n hn =>
    rw [ofNat, if_pos hn] at h
    exact (digitChar_spec hn).2.2 (List.cons.inj h).1
  | case2 n hn ih =>
    rw [ofNat, if_neg hn] at h
    -- The first digit is that of the quotient, which is not zero.
    rcases hq : ofNat (n / 10) with _ | ⟨c, rest⟩
    · exact absurd hq (ofNat_ne_nil _)
    · rw [hq, List.cons_append] at h
      rw [(List.cons.inj h).1] at hq
      have := ih hq
      omega

/-- Reading goes on where it stopped. -/
theorem readFrom_append (base acc : Nat) (as bs : List Char) :
    readFrom base acc (as ++ bs) = (readFrom base acc as).bind (readFrom base · bs) := by
  induction as generalizing acc with
  | nil => rfl
  | cons c as ih =>
    rw [List.cons_append, readFrom, readFrom]
    split
    · split
      · exact ih _
      · rfl
    · rfl

/-- The digits of a number denote the number. -/
theorem readFrom_ofNat (n : Nat) : readFrom 10 0 (ofNat n) = some n := by
  induction n using ofNat.induct with
  | case1 n hn =>
    rw [ofNat, if_pos hn, readFrom, (digitChar_spec hn).2.1]
    simp [readFrom, hn]
  | case2 n hn ih =>
    have hd : n % 10 < 10 := Nat.mod_lt n (by decide)
    rw [ofNat, if_neg hn, readFrom_append, ih, Option.bind_some, readFrom, (digitChar_spec hd).2.1]
    simp only [hd, if_true, readFrom, Option.some.injEq]
    omega

/-- Reading the digits of a number gives the number back. -/
theorem read?_ofNat (n : Nat) : read? 10 (ofNat n) = some n := by
  unfold read?
  rw [if_neg (by simp [ofNat_ne_nil n]), readFrom_ofNat]

end PhpGraft.Decimal

import PhpGraft.Text.Ascii
import PhpGraft.Text.Blank

/-!
# Character classes by number

Each class of characters is a union of intervals of character numbers, so that what one class says
about another one is linear arithmetic.
-/

namespace PhpGraft.Text

variable {c : Char}

/-- Characters are equal when their numbers are. -/
theorem char_eq_iff {d : Char} : c = d ↔ c.toNat = d.toNat :=
  ⟨congrArg _, fun h => Char.ext (UInt32.toNat_inj.1 h)⟩

/-- The digits by number. -/
theorem isDigit_iff : c.isDigit = true ↔ 48 ≤ c.toNat ∧ c.toNat ≤ 57 := by
  rw [Char.isDigit, Bool.and_eq_true, decide_eq_true_eq, decide_eq_true_eq]
  rfl

/-- The ASCII letters by number. -/
theorem isAlpha_iff :
    c.isAlpha = true ↔ (65 ≤ c.toNat ∧ c.toNat ≤ 90) ∨ (97 ≤ c.toNat ∧ c.toNat ≤ 122) := by
  have hupper : c.isUpper = true ↔ 65 ≤ c.toNat ∧ c.toNat ≤ 90 :=
    decide_eq_true_iff
  have hlower : c.isLower = true ↔ 97 ≤ c.toNat ∧ c.toNat ≤ 122 :=
    Bool.and_eq_true_iff.trans (and_congr decide_eq_true_iff decide_eq_true_iff)
  exact Bool.or_eq_true_iff.trans (or_congr hupper hlower)

/-- What starts an identifier by number. -/
theorem isIdentStart_iff :
    isIdentStart c = true ↔
      (65 ≤ c.toNat ∧ c.toNat ≤ 90) ∨ (97 ≤ c.toNat ∧ c.toNat ≤ 122) ∨ c.toNat = 95 ∨
        128 ≤ c.toNat := by
  simp only [isIdentStart, Bool.or_eq_true, isAlpha_iff, beq_iff_eq, char_eq_iff, decide_eq_true_eq]
  have : '_'.toNat = 95 := rfl
  omega

/-- What continues an identifier by number. -/
theorem isIdentChar_iff :
    isIdentChar c = true ↔
      (48 ≤ c.toNat ∧ c.toNat ≤ 57) ∨ (65 ≤ c.toNat ∧ c.toNat ≤ 90) ∨
        (97 ≤ c.toNat ∧ c.toNat ≤ 122) ∨ c.toNat = 95 ∨ 128 ≤ c.toNat := by
  simp only [isIdentChar, Char.isAlphanum, Bool.or_eq_true, isAlpha_iff, isDigit_iff, beq_iff_eq,
    char_eq_iff, decide_eq_true_eq]
  have : '_'.toNat = 95 := rfl
  omega

/-- What starts an ASCII identifier by number. -/
theorem isAsciiIdentStart_iff :
    isAsciiIdentStart c = true ↔
      (65 ≤ c.toNat ∧ c.toNat ≤ 90) ∨ (97 ≤ c.toNat ∧ c.toNat ≤ 122) ∨ c.toNat = 95 := by
  simp only [isAsciiIdentStart, Bool.or_eq_true, isAlpha_iff, beq_iff_eq, char_eq_iff]
  have : '_'.toNat = 95 := rfl
  omega

/-- What continues an ASCII identifier by number. -/
theorem isAsciiIdentChar_iff :
    isAsciiIdentChar c = true ↔
      (48 ≤ c.toNat ∧ c.toNat ≤ 57) ∨ (65 ≤ c.toNat ∧ c.toNat ≤ 90) ∨
        (97 ≤ c.toNat ∧ c.toNat ≤ 122) ∨ c.toNat = 95 := by
  simp only [isAsciiIdentChar, Char.isAlphanum, Bool.or_eq_true, isAlpha_iff, isDigit_iff,
    beq_iff_eq, char_eq_iff]
  have : '_'.toNat = 95 := rfl
  omega

/-- A blank ASCII character by number. -/
theorem isBlank_iff (h : c.toNat < 128) :
    isBlank c = true ↔ (9 ≤ c.toNat ∧ c.toNat ≤ 13) ∨ c.toNat = 32 := by
  simp only [isBlank, Bool.or_eq_true, Bool.and_eq_true, decide_eq_true_eq, beq_iff_eq]
  omega

/-- A character of an ASCII identifier continues an identifier. -/
theorem isIdentChar_of_ascii (h : isAsciiIdentChar c = true) : isIdentChar c = true := by
  rw [isAsciiIdentChar_iff] at h
  rw [isIdentChar_iff]
  omega

/-- What starts an ASCII identifier continues one. -/
theorem isAsciiIdentChar_of_start (h : isAsciiIdentStart c = true) : isAsciiIdentChar c = true := by
  rw [isAsciiIdentStart_iff] at h
  rw [isAsciiIdentChar_iff]
  omega

/-- An ASCII identifier holds nothing but its characters. -/
theorem isAsciiIdentChar_of_mem {label : List Char} (h : isAsciiIdent label = true) :
    ∀ c ∈ label, isAsciiIdentChar c = true := by
  cases label with
  | nil => exact List.forall_mem_nil _
  | cons d label =>
    obtain ⟨hd, hrest⟩ := Bool.and_eq_true_iff.1 h
    exact List.forall_mem_cons.2 ⟨isAsciiIdentChar_of_start hd, List.all_eq_true.1 hrest⟩

/-- What starts an identifier continues one. -/
theorem isIdentChar_of_start (h : isIdentStart c = true) : isIdentChar c = true := by
  rw [isIdentStart_iff] at h
  rw [isIdentChar_iff]
  omega

/-- What starts an ASCII identifier starts an identifier and is not blank. -/
theorem isIdentStart_of_ascii (h : isAsciiIdentStart c = true) :
    isIdentStart c = true ∧ isBlank c = false := by
  rw [isAsciiIdentStart_iff] at h
  have hc : c.toNat < 128 := by omega
  rw [isIdentStart_iff, Bool.eq_false_iff, ne_eq, isBlank_iff hc]
  omega

/-- A digit continues an identifier but starts none, and it is not blank. -/
theorem of_isDigit (h : c.isDigit = true) :
    isIdentChar c = true ∧ isIdentStart c = false ∧ isBlank c = false := by
  rw [isDigit_iff] at h
  have hc : c.toNat < 128 := by omega
  rw [isIdentChar_iff, Bool.eq_false_iff, ne_eq, isIdentStart_iff, Bool.eq_false_iff, ne_eq,
    isBlank_iff hc]
  omega

end PhpGraft.Text

import PhpGraft.Model.Literal
import PhpGraft.Proofs.Decimal.Rounding
import PhpGraft.Proofs.Syntax.Literal

/-!
# What expressions keep of plain values

The expression of a plain value has no integers above the largest signed one, and an array without entries
is a list: such an integer comes back as the double next to it, and an object without fields as an empty
list (`Literal.readBack`). All else stays, so that a value comes back equal exactly when it has neither
(`same_readBack`).
-/

namespace PhpGraft

open Decimal

/-! ## Doubles of integers -/

namespace Decimal.Binary64

/-- The exponent of a natural number is the place of its highest bit. -/
theorem floorLog2_one {n : ℕ} (hn : n ≠ 0) : floorLog2 n 1 = n.log2 := by
  have hlow : ¬n * pow2 0 < 1 * pow2 n.log2 := by
    have hle : pow2 n.log2 ≤ n := Nat.log2_self_le hn
    have hone : pow2 0 = 1 := rfl
    rw [hone]
    omega
  have hlog : Nat.log2 1 = 0 := by decide
  rw [floorLog2, hlog]
  simp only [Nat.cast_zero, sub_zero, Int.toNat_natCast]
  rw [Int.toNat_of_nonpos (by omega), if_neg hlow]

/-- A natural number of 64 bits is far from the infinities. -/
theorem isFinite_ofNat {n : ℕ} (h : n < pow2 64) : (Binary64.ofNat n).isFinite = true := by
  have hfinite {m : ℕ} (hm : m < infinityBits) : (ofMagnitude false m).isFinite = true := by
    have hlimit : infinityBits < 2 ^ 63 := by decide
    rw [isFinite, magnitudeBits_ofMagnitude false (by omega)]
    exact decide_eq_true hm
  rw [Binary64.ofNat, ofRatio]
  split
  · exact hfinite (by decide)
  next hn =>
  have hlog : n.log2 < 64 := (Nat.log2_lt hn).2 h
  have hhigh : n < 2 ^ (n.log2 + 1) := Nat.lt_log2_self
  have hround (num den : ℕ) : roundDiv num den ≤ num / den + 1 := by
    unfold roundDiv
    dsimp only
    split
    · omega
    · split <;> omega
  -- the significand has fifty-three bits, and is rounded up at most to the next power of two
  have hsignificand : n * pow2 (52 - n.log2) / pow2 (n.log2 - 52) < 2 ^ 53 := by
    refine Nat.div_lt_of_lt_mul ?_
    calc n * pow2 (52 - n.log2) < 2 ^ (n.log2 + 1) * 2 ^ (52 - n.log2) :=
          Nat.mul_lt_mul_of_pos_right hhigh (pow2_pos _)
      _ = 2 ^ (n.log2 - 52) * 2 ^ 53 := by
          rw [← pow_add, ← pow_add]
          congr 1
          omega
  have he : max (floorLog2 n 1 - 52) (-1074) = (n.log2 : ℤ) - 52 := by
    rw [floorLog2_one hn]
    omega
  have hdown : (-((n.log2 : ℤ) - 52)).toNat = 52 - n.log2 := by omega
  have hup : ((n.log2 : ℤ) - 52).toNat = n.log2 - 52 := by omega
  have hsteps : ((n.log2 : ℤ) - 52 + 1074).toNat = n.log2 + 1022 := by omega
  dsimp only
  rw [he, hdown, hup, hsteps, one_mul]
  refine hfinite (Nat.lt_of_le_of_lt (Nat.min_le_left _ _) ?_)
  have hm := hround (n * pow2 (52 - n.log2)) (pow2 (n.log2 - 52))
  have hpow : pow2 52 = 2 ^ 52 := rfl
  have hlimit : infinityBits = 2047 * 2 ^ 52 := rfl
  rw [hpow, hlimit]
  omega

/-- A finite double equals itself as a number. -/
theorem same_self {x : Binary64} (h : x.isFinite = true) : x.same x = true := by
  have hnumber : x.isNaN = false := by
    rw [isFinite, decide_eq_true_eq] at h
    exact decide_eq_false (Nat.lt_asymm h)
  rw [same, hnumber, beq_self_eq_true]
  rfl

end Decimal.Binary64

/-! ## Values of JSON texts -/

mutual

/-- Whether a value is one that a JSON text stands for: its integers have 64 bits, with a sign or without
one, its doubles are finite, and the fields of each object have different keys. -/
def Literal.isJson : Literal → Bool
  | .int n => minInt64 ≤ n && n < pow2 64
  | .float x => x.isFinite
  | .list items => Literal.allJson items
  | .object fields => decide (fields.map LiteralField.key).Nodup && LiteralField.allJson fields
  | .null | .bool _ | .string _ => true

/-- Whether the value of a field is one that a JSON text stands for. -/
def LiteralField.isJson : LiteralField → Bool
  | .mk _ v => v.isJson

/-- Whether a JSON text stands for each of some values. -/
def Literal.allJson : List Literal → Bool
  | [] => true
  | v :: vs => v.isJson && Literal.allJson vs

/-- Whether a JSON text stands for the value of each of some fields. -/
def LiteralField.allJson : List LiteralField → Bool
  | [] => true
  | f :: fs => f.isJson && LiteralField.allJson fs

end

mutual

/-- Whether there is no object without fields in a value, and no integer above the largest signed one. -/
def Literal.isFaithful : Literal → Bool
  | .int n => n ≤ maxInt64
  | .list items => Literal.allFaithful items
  | .object fields => !fields.isEmpty && LiteralField.allFaithful fields
  | .null | .bool _ | .float _ | .string _ => true

/-- Whether there is none in the value of a field. -/
def LiteralField.isFaithful : LiteralField → Bool
  | .mk _ v => v.isFaithful

/-- Whether there is none in some values. -/
def Literal.allFaithful : List Literal → Bool
  | [] => true
  | v :: vs => v.isFaithful && Literal.allFaithful vs

/-- Whether there is none in the values of some fields. -/
def LiteralField.allFaithful : List LiteralField → Bool
  | [] => true
  | f :: fs => f.isFaithful && LiteralField.allFaithful fs

end

mutual

/-- What is read back from the expression of a value. -/
def Literal.readBack : Literal → Literal
  | .null => .null
  | .bool b => .bool b
  | .int n => if n ≤ maxInt64 then .int n else .float (Binary64.ofNat n.toNat)
  | .float x => .float x
  | .string s => .string s
  | .list items => .list (Literal.allReadBack items)
  | .object fields =>
    if fields.isEmpty then .list [] else .object (LiteralField.allReadBack fields)

/-- A field with what is read back of its value. -/
def LiteralField.readBack : LiteralField → LiteralField
  | .mk key v => .mk key v.readBack

/-- What is read back of some values. -/
def Literal.allReadBack : List Literal → List Literal
  | [] => []
  | v :: vs => v.readBack :: Literal.allReadBack vs

/-- Some fields with what is read back of their values. -/
def LiteralField.allReadBack : List LiteralField → List LiteralField
  | [] => []
  | f :: fs => f.readBack :: LiteralField.allReadBack fs

end

/-! ## What stays the same -/

namespace LiteralField

/-- Reading fields back leaves none out. -/
theorem length_allReadBack (fs : List LiteralField) : (allReadBack fs).length = fs.length := by
  induction fs with
  | nil => rfl
  | cons f fs ih => rw [allReadBack, List.length_cons, ih, List.length_cons]

/-- Of fields with different keys, each one is the first of its key. -/
theorem find?_of_mem {fs : List LiteralField} (hdistinct : (fs.map key).Nodup) {f : LiteralField}
    (hf : f ∈ fs) : fs.find? (fun g => g.key == f.key) = some f := by
  induction fs with
  | nil => cases hf
  | cons g fs ih =>
    obtain ⟨hg, hdistinct⟩ := List.nodup_cons.1 hdistinct
    rcases List.mem_cons.1 hf with rfl | hf
    · rw [List.find?_cons, beq_self_eq_true]
    · have hne : (g.key == f.key) = false :=
        beq_false_of_ne fun he => hg (List.mem_map.2 ⟨f, hf, he.symm⟩)
      rw [List.find?_cons, hne]
      exact ih hdistinct hf

end LiteralField

namespace Literal

mutual

/-- A value with neither empty objects nor too large integers is read back as it was. -/
theorem readBack_eq_self : ∀ {l : Literal}, l.isFaithful = true → l.readBack = l
  | .null, _ | .bool _, _ | .float _, _ | .string _, _ => by rw [readBack]
  | .int n, h => by
    rw [isFaithful, decide_eq_true_eq] at h
    rw [readBack, if_pos h]
  | .list items, h => by
    rw [isFaithful] at h
    rw [readBack, allReadBack_eq_self h]
  | .object fields, h => by
    rw [isFaithful, Bool.and_eq_true, Bool.not_eq_true'] at h
    rw [readBack, h.1, if_neg Bool.false_ne_true, fieldsReadBack_eq_self h.2]

/-- So are all values of a list. -/
theorem allReadBack_eq_self : ∀ {vs : List Literal}, allFaithful vs = true → allReadBack vs = vs
  | [], _ => rfl
  | v :: vs, h => by
    rw [allFaithful, Bool.and_eq_true] at h
    rw [allReadBack, readBack_eq_self h.1, allReadBack_eq_self h.2]

/-- So are all fields of an object. -/
theorem fieldsReadBack_eq_self : ∀ {fs : List LiteralField}, LiteralField.allFaithful fs = true →
    LiteralField.allReadBack fs = fs
  | [], _ => rfl
  | .mk key v :: fs, h => by
    rw [LiteralField.allFaithful, LiteralField.isFaithful, Bool.and_eq_true] at h
    rw [LiteralField.allReadBack, LiteralField.readBack, readBack_eq_self h.1, fieldsReadBack_eq_self h.2]

end

mutual

/-- A value equals what is read back of it exactly when it has neither empty objects nor too large integers. -/
theorem same_readBack : ∀ {l : Literal}, l.isJson = true → l.readBack.same l = l.isFaithful
  | .null, _ => by rw [readBack, same, isFaithful]
  | .bool b, _ => by rw [readBack, same, isFaithful, beq_self_eq_true]
  | .string s, _ => by rw [readBack, same, isFaithful, beq_self_eq_true]
  | .float x, h => by
    rw [isJson] at h
    rw [readBack, same, isFaithful, Binary64.same_self h]
  | .int n, _ => by
    rw [readBack, isFaithful]
    split
    · next hn =>
      rw [same, beq_self_eq_true]
      exact (decide_eq_true hn).symm
    · next hn =>
      -- an integer never equals a double
      rw [decide_eq_false hn]
      simp [same]
  | .list items, h => by
    rw [isJson] at h
    rw [readBack, same, isFaithful, listSame_readBack h]
  | .object fields, h => by
    rw [isJson, Bool.and_eq_true, decide_eq_true_eq] at h
    have hfind : ∀ f ∈ fields, fields.find? (fun g => g.key == f.key) = some f := fun f =>
      LiteralField.find?_of_mem h.1
    rw [readBack, isFaithful]
    cases hempty : fields.isEmpty with
    | true =>
      -- nor does a list equal an object
      simp [same]
    | false =>
      rw [if_neg Bool.false_ne_true, same, LiteralField.length_allReadBack, beq_self_eq_true,
        fieldsIn_readBack h.2 hfind]
      rfl

/-- So do the values of a list, one by one. -/
theorem listSame_readBack : ∀ {vs : List Literal}, allJson vs = true →
    listSame (allReadBack vs) vs = allFaithful vs
  | [], _ => by rw [allReadBack, listSame, allFaithful]
  | v :: vs, h => by
    rw [allJson, Bool.and_eq_true] at h
    rw [allReadBack, listSame, allFaithful, same_readBack h.1, listSame_readBack h.2]

/-- So do the fields of an object, each of which is found under its key. -/
theorem fieldsIn_readBack : ∀ {fs all : List LiteralField}, LiteralField.allJson fs = true →
    (∀ f ∈ fs, all.find? (fun g => g.key == f.key) = some f) →
    fieldsIn (LiteralField.allReadBack fs) all = LiteralField.allFaithful fs
  | [], _, _, _ => by rw [LiteralField.allReadBack, fieldsIn, LiteralField.allFaithful]
  | .mk key v :: fs, all, h, hfind => by
    rw [LiteralField.allJson, LiteralField.isJson, Bool.and_eq_true] at h
    obtain ⟨hkey, hfind⟩ := List.forall_mem_cons.1 hfind
    have hkey : all.find? (fun g => g.key == key) = some (.mk key v) := hkey
    rw [LiteralField.allReadBack, LiteralField.readBack, fieldsIn, fieldIn, hkey,
      LiteralField.allFaithful, LiteralField.isFaithful, fieldsIn_readBack h.2 hfind]
    exact congrArg (· && LiteralField.allFaithful fs) (same_readBack h.1)

end

end Literal

end PhpGraft

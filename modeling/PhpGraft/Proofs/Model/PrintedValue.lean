import PhpGraft.Proofs.Model.ValueSpec

/-!
# Values printed and read back

A plain value without doubles is printed as a literal, and what is read from its text is the value itself, unless
the least integer is the key of a field (`ValueSpec.IsExact.reread_eq`): such a key becomes an integer in
the array that is printed, and the text of that integer is read as a double. An array with such a key is no plain
value any more, and neither is any value around it.
-/

namespace PhpGraft

open Decimal

mutual

/-- Whether a value has no doubles and is kept without them: its integers are of 64 bits with their sign and not
the least one, and each object has fields, of different keys. -/
def Literal.isExact : Literal → Bool
  | .int n => minInt64 < n && n ≤ maxInt64
  | .float _ => false
  | .list items => Literal.allExact items
  | .object fields => !fields.isEmpty && decide (fields.map LiteralField.key).Nodup && LiteralField.allExact fields
  | .null | .bool _ | .string _ => true

/-- Whether the value of a field is. -/
def LiteralField.isExact : LiteralField → Bool
  | .mk _ v => v.isExact

/-- Whether all values are. -/
def Literal.allExact : List Literal → Bool
  | [] => true
  | v :: vs => v.isExact && Literal.allExact vs

/-- Whether the values of all fields are. -/
def LiteralField.allExact : List LiteralField → Bool
  | [] => true
  | f :: fs => f.isExact && LiteralField.allExact fs

end

mutual

/-- Whether the least integer is the key of a field somewhere in a value. -/
def Literal.hasLeastKey : Literal → Bool
  | .list items => Literal.anyLeastKey items
  | .object fields => LiteralField.anyLeastKey fields
  | .null | .bool _ | .int _ | .float _ | .string _ => false

/-- Whether it is the key of a field, or of one in its value. -/
def LiteralField.hasLeastKey : LiteralField → Bool
  | .mk key v => key == intText minInt64 || v.hasLeastKey

/-- Whether it is the key of a field in one of some values. -/
def Literal.anyLeastKey : List Literal → Bool
  | [] => false
  | v :: vs => v.hasLeastKey || Literal.anyLeastKey vs

/-- Whether it is the key of one of some fields, or of one in their values. -/
def LiteralField.anyLeastKey : List LiteralField → Bool
  | [] => false
  | f :: fs => f.hasLeastKey || LiteralField.anyLeastKey fs

end

namespace Literal

mutual

/-- An exact value is one that an expression keeps. -/
theorem isKept_of_isExact : ∀ {l : Literal}, l.isExact = true → l.isKept = true
  | .null, _ | .bool _, _ | .string _, _ => rfl
  | .int n, h => by
    rw [isExact, Bool.and_eq_true, decide_eq_true_eq, decide_eq_true_eq] at h
    rw [isKept, Bool.and_eq_true, decide_eq_true_eq, decide_eq_true_eq]
    exact ⟨Int.le_of_lt h.1, h.2⟩
  | .float _, h => by
    rw [isExact] at h
    cases h
  | .list items, h => by
    rw [isExact] at h
    rw [isKept]
    exact allKept_of_allExact h
  | .object fields, h => by
    rw [isExact, Bool.and_eq_true] at h
    rw [isKept, Bool.and_eq_true]
    exact ⟨h.1, fieldsKept_of_fieldsExact h.2⟩

/-- So are all values of a list. -/
theorem allKept_of_allExact : ∀ {vs : List Literal}, allExact vs = true → allKept vs = true
  | [], _ => rfl
  | v :: vs, h => by
    rw [allExact, Bool.and_eq_true] at h
    rw [allKept, isKept_of_isExact h.1, allKept_of_allExact h.2]
    rfl

/-- So are the values of all fields. -/
theorem fieldsKept_of_fieldsExact : ∀ {fs : List LiteralField}, LiteralField.allExact fs = true →
    LiteralField.allKept fs = true
  | [], _ => rfl
  | .mk key v :: fs, h => by
    rw [LiteralField.allExact, LiteralField.isExact, Bool.and_eq_true] at h
    rw [LiteralField.allKept, LiteralField.isKept, isKept_of_isExact h.1, fieldsKept_of_fieldsExact h.2]
    rfl

end

end Literal

namespace ValueSpec

/-! ## Expressions of exact values -/

/-- The key of an array entry is plain; it holds the least integer if the key of the field is its text. -/
theorem isPlain_arrayKey (key : String) : (arrayKey key).isPlain = true ∧
    (arrayKey key).holdsLeast = (key == intText minInt64) := by
  unfold arrayKey
  split
  · next n hn =>
    split
    · next htext =>
      obtain ⟨hlow, hhigh⟩ := range_of_int64? hn
      refine ⟨by simp [Expr.isPlain, hlow, hhigh], ?_⟩
      -- texts of integers of 64 bits are told apart by what is read from them
      rw [Expr.holdsLeast, Bool.eq_iff_iff, beq_iff_eq, beq_iff_eq, ← htext]
      refine ⟨fun h => h ▸ rfl, fun h => ?_⟩
      have hsame := int64?_intText (Int.le_refl _) (Int.le_trans hlow hhigh)
      rw [← h, int64?_intText hlow hhigh] at hsame
      exact Option.some.inj hsame
    · next htext =>
      refine ⟨rfl, (beq_false_of_ne ?_).symm⟩
      rintro rfl
      rw [int64?_intText (Int.le_refl _) (by decide)] at hn
      obtain rfl := Option.some.inj hn
      exact htext rfl
  · next hn =>
    refine ⟨rfl, (beq_false_of_ne ?_).symm⟩
    rintro rfl
    rw [int64?_intText (Int.le_refl _) (by decide)] at hn
    cases hn

/-- The key that holds the least integer is no key of a field once it was read back. -/
theorem fieldKey?_reread {key : Expr} (h : key.holdsLeast = true) : fieldKey? key.reread = none := by
  cases key with
  | int n =>
    rw [Expr.holdsLeast, beq_iff_eq] at h
    rw [Expr.reread, if_pos h]
    rfl
  | array items =>
    rw [Expr.reread]
    rfl
  | _ => cases h

mutual

/-- An exact value becomes a plain expression. The least integer is in the expression just if it is the key of a
field, and then the expression is read back as no plain value. -/
theorem exists_plain : ∀ {l : Literal}, l.isExact = true → ∃ e, encode l = .ok e ∧ e.isPlain = true ∧
    e.holdsLeast = l.hasLeastKey ∧ (l.hasLeastKey = true → literalOf? e.reread = none)
  | .null, _ => ⟨.null, rfl, rfl, rfl, nofun⟩
  | .bool b, _ => ⟨.bool b, rfl, rfl, rfl, nofun⟩
  | .string s, _ => ⟨.string s, rfl, rfl, rfl, nofun⟩
  | .int n, h => by
    rw [Literal.isExact, Bool.and_eq_true, decide_eq_true_eq, decide_eq_true_eq] at h
    refine ⟨.int n, by rw [encode, if_pos h.2], ?_, ?_, nofun⟩
    · simp [Expr.isPlain, Int.le_of_lt h.1, h.2]
    · rw [Expr.holdsLeast, Literal.hasLeastKey]
      exact beq_false_of_ne (Int.ne_of_gt h.1)
  | .float x, h => by
    rw [Literal.isExact] at h
    cases h
  | .list vs, h => by
    rw [Literal.isExact] at h
    obtain ⟨items, hitems, hplain, hleast, hkeys, hnone⟩ := exists_plain_items h
    refine ⟨.array items, by rw [encode, hitems]; rfl, hplain, hleast, fun hkey => ?_⟩
    rw [Literal.hasLeastKey] at hkey
    rw [Expr.reread, literalOf?, if_pos hkeys, hnone hkey]
    rfl
  | .object fs, h => by
    rw [Literal.isExact, Bool.and_eq_true] at h
    obtain ⟨items, hitems, hplain, hleast, hnone⟩ := exists_plain_fields h.2
    refine ⟨.array items, by rw [encode, hitems]; rfl, hplain, hleast, fun hkey => ?_⟩
    rw [Literal.hasLeastKey] at hkey
    obtain ⟨hkeys, hnone⟩ := hnone hkey
    rw [Expr.reread, literalOf?, hkeys, if_neg Bool.false_ne_true, hnone]
    rfl

/-- Exact values become plain entries without keys. -/
theorem exists_plain_items : ∀ {vs : List Literal}, Literal.allExact vs = true → ∃ items,
    encodeList vs = .ok items ∧ ArrayItem.allPlain items = true ∧
      ArrayItem.anyLeast items = Literal.anyLeastKey vs ∧ noKeys (ArrayItem.rereadAll items) = true ∧
        (Literal.anyLeastKey vs = true → itemsOf? (ArrayItem.rereadAll items) = none)
  | [], _ => ⟨[], rfl, rfl, rfl, rfl, nofun⟩
  | v :: vs, h => by
    rw [Literal.allExact, Bool.and_eq_true] at h
    obtain ⟨e, he, hplain, hleast, hnone⟩ := exists_plain h.1
    obtain ⟨items, hitems, hplains, hleasts, hkeys, hnones⟩ := exists_plain_items h.2
    refine ⟨.value e :: items, by rw [encodeList, he, hitems]; rfl, ?_, ?_, hkeys, fun hkey => ?_⟩
    · rw [ArrayItem.allPlain, ArrayItem.isPlain, hplain, hplains]
      rfl
    · rw [ArrayItem.anyLeast, ArrayItem.holdsLeast, hleast, hleasts, Literal.anyLeastKey]
    · rw [Literal.anyLeastKey, Bool.or_eq_true] at hkey
      rw [ArrayItem.rereadAll, ArrayItem.reread, itemsOf?, itemOf?]
      rcases hkey with hkey | hkey
      · rw [hnone hkey]
        rfl
      · rw [hnones hkey]
        cases literalOf? e.reread <;> rfl

/-- Fields with exact values become plain entries with keys. -/
theorem exists_plain_fields : ∀ {fs : List LiteralField}, LiteralField.allExact fs = true → ∃ items,
    encodeFields fs = .ok items ∧ ArrayItem.allPlain items = true ∧
      ArrayItem.anyLeast items = LiteralField.anyLeastKey fs ∧
        (LiteralField.anyLeastKey fs = true → noKeys (ArrayItem.rereadAll items) = false ∧
          ∀ seen, fieldsOf? seen (ArrayItem.rereadAll items) = none)
  | [], _ => ⟨[], rfl, rfl, rfl, nofun⟩
  | .mk key v :: fs, h => by
    rw [LiteralField.allExact, LiteralField.isExact, Bool.and_eq_true] at h
    obtain ⟨e, he, hplain, hleast, hnone⟩ := exists_plain h.1
    obtain ⟨items, hitems, hplains, hleasts, hnones⟩ := exists_plain_fields h.2
    obtain ⟨hkeyPlain, hkeyLeast⟩ := isPlain_arrayKey key
    refine ⟨.keyed (arrayKey key) e :: items, by rw [encodeFields, encodeField, he, hitems]; rfl, ?_, ?_,
      fun hkey => ⟨rfl, fun seen => ?_⟩⟩
    · rw [ArrayItem.allPlain, ArrayItem.isPlain, hkeyPlain, hplain, hplains]
      rfl
    · rw [ArrayItem.anyLeast, ArrayItem.holdsLeast, hkeyLeast, hleast, hleasts, LiteralField.anyLeastKey,
        LiteralField.hasLeastKey]
    · rw [LiteralField.anyLeastKey, LiteralField.hasLeastKey, Bool.or_eq_true, Bool.or_eq_true] at hkey
      rw [ArrayItem.rereadAll, ArrayItem.reread, fieldsOf?, itemOf?]
      dsimp only
      rcases hkey with (hkey | hkey) | hkey
      · rw [fieldKey?_reread (hkeyLeast.trans hkey)]
        rfl
      · rw [hnone hkey]
        cases fieldKey? (arrayKey key).reread <;> rfl
      · -- the other fields are read only if this one is
        cases fieldKey? (arrayKey key).reread with
        | none => rfl
        | some k =>
          cases literalOf? e.reread with
          | none => rfl
          | some l =>
            simp only [bind, Option.bind, (hnones hkey).2]
            split <;> rfl

end

/-! ## Values read back -/

/-- An expression with the least integer in it that is read back as no plain value is kept as it is read. -/
theorem recover_of_holdsLeast {e : Expr} (h : e.holdsLeast = true) (hnone : literalOf? e.reread = none) :
    recover e.reread = ofExpr e.reread := by
  cases e with
  | int n =>
    rw [Expr.holdsLeast, beq_iff_eq] at h
    rw [Expr.reread, if_pos h] at hnone ⊢
    rw [recover, hnone]
    all_goals exact nofun
  | array items =>
    rw [Expr.reread] at hnone ⊢
    rw [recover, hnone]
    all_goals exact nofun
  | _ => cases h

/-- A plain value in its own form, and an exact one. -/
def IsExact (v : ValueSpec) : Prop := ∃ l : Literal, l.isExact = true ∧ v = ofLiteral l

/-- The expression of a value that becomes one. -/
def expr (v : ValueSpec) : Expr := v.materialize.toOption.getD .null

/-- What a value is read back as when its expression was printed. -/
def reread (v : ValueSpec) : ValueSpec := recover v.expr.reread

/-- Whether the least integer is the key of a field in a value. -/
def hasLeastKey (v : ValueSpec) : Bool := v.literal?.any Literal.hasLeastKey

variable {v : ValueSpec}

/-- An exact value is a plain one. -/
theorem IsExact.isPlain (h : v.IsExact) : v.IsPlain := by
  obtain ⟨l, hl, rfl⟩ := h
  exact ⟨l, Literal.isKept_of_isExact hl, rfl⟩

/-- An exact value becomes its expression, which is plain. -/
theorem IsExact.materialize_eq (h : v.IsExact) : v.materialize = .ok v.expr ∧ v.expr.isPlain = true := by
  obtain ⟨l, hl, rfl⟩ := h
  obtain ⟨e, he, hplain, -⟩ := exists_plain hl
  have hmaterialize : (ofLiteral l).materialize = .ok e := he
  have hexpr : (ofLiteral l).expr = e := by
    rw [expr, hmaterialize]
    rfl
  rw [hexpr]
  exact ⟨hmaterialize, hplain⟩

/-- An exact value is read back equal exactly when the least integer is not the key of a field in it; it is then
the very same one. -/
theorem IsExact.reread_eq (h : v.IsExact) :
    (v.reread == v) = !v.hasLeastKey ∧ (v.hasLeastKey = false → v.reread = v) := by
  obtain ⟨l, hl, rfl⟩ := h
  obtain ⟨e, he, -, hleast, hnone⟩ := exists_plain hl
  obtain ⟨hjson, hfaithful⟩ := Literal.isJson_and_isFaithful (Literal.isKept_of_isExact hl)
  obtain ⟨e', he', hsame, hself⟩ := recover_materialize hjson
  obtain rfl : e' = e := Except.ok.inj (he'.symm.trans he)
  have hreread : (ofLiteral l).reread = recover e'.reread := by
    rw [reread, expr, he']
    rfl
  have hkey : (ofLiteral l).hasLeastKey = l.hasLeastKey := rfl
  rw [hreread, hkey]
  cases hl' : l.hasLeastKey with
  | false =>
    rw [Expr.reread_eq_self_iff.2 (hleast.trans hl')]
    exact ⟨hsame.trans hfaithful, fun _ => hself hfaithful⟩
  | true =>
    have hother : recover e'.reread = ofExpr e'.reread := recover_of_holdsLeast (hleast.trans hl') (hnone hl')
    rw [hother]
    exact ⟨rfl, nofun⟩

end ValueSpec

end PhpGraft

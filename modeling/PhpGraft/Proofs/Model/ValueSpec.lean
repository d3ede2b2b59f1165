import Mathlib.Data.List.Forall2
import PhpGraft.Model.ValueSpec
import PhpGraft.Proofs.Decimal.Numeral
import PhpGraft.Proofs.Model.Constant
import PhpGraft.Proofs.Model.Literal

/-!
# Values read back

A JSON value becomes an expression, and it is read back from it as it was unless there are empty objects or
too large integers in it (`recover_materialize`). The other way round, an expression that is read as a value
and made an expression again is what it was, up to array keys: a string that is an integer in its usual
spelling comes back as the integer, as it does where the array is made (`Expr.CastsTo`). Only the name of a
constant is looked at once more on the way, and refused if it is not in ASCII (`materialize_recover`).
-/

namespace PhpGraft

open Decimal Lexer Text

/-! ## Integers read back -/

/-- The text of an integer of 64 bits is read as the integer. -/
theorem Decimal.int64?_intText {n : Int} (h₁ : minInt64 ≤ n) (h₂ : n ≤ maxInt64) :
    int64? (intText n) = some n := by
  cases n with
  | ofNat n =>
    have hle : n ≤ maxInt64 := Int.ofNat_le.1 h₂
    have htext : (intText (.ofNat n)).toList = ofNat n := String.toList_ofList
    have hread : ((read? 10 (ofNat n)).bind fun n => if n ≤ maxInt64 then some (n : Int) else none) =
        some (Int.ofNat n) := by
      rw [read?_ofNat, Option.bind_some, if_pos hle]
      rfl
    -- digits are no sign, so the text is read from its first character on
    have hdigit {c : Char} (hc : c.isDigit = false) (ds : List Char) : ofNat n ≠ c :: ds := fun he => by
      have := isDigit_of_mem_ofNat (he ▸ List.mem_cons_self : c ∈ ofNat n)
      simp_all
    unfold int64?
    rw [htext]
    split
    · next ds he => exact absurd he (hdigit rfl ds)
    · next ds he => exact absurd he (hdigit rfl ds)
    · exact hread
  | negSucc n =>
    have hle : n + 1 ≤ maxInt64 + 1 := by
      have : Int.negSucc n = -((n + 1 : Nat) : Int) := rfl
      unfold minInt64 at h₁
      omega
    have htext : (intText (.negSucc n)).toList = '-' :: ofNat (n + 1) := by
      rw [intText, String.toList_append, natText, String.toList_ofList]
      simp
    unfold int64?
    rw [htext]
    show (read? 10 (ofNat (n + 1))).bind _ = _
    rw [read?_ofNat, Option.bind_some, if_pos hle]
    rfl

/-- An integer that is read has 64 bits. -/
theorem Decimal.range_of_int64? {s : String} {n : Int} (h : int64? s = some n) :
    minInt64 ≤ n ∧ n ≤ maxInt64 := by
  have hpos : (0 : Int) < maxInt64 := by decide
  unfold int64? at h
  split at h
  all_goals
    obtain ⟨k, -, h⟩ := Option.bind_eq_some_iff.1 h
    split at h
    · next hle =>
      obtain rfl := Option.some.inj h
      unfold minInt64
      omega
    · cases h

/-! ## What values and expressions are like -/

mutual

/-- Whether a value is one that an expression keeps: its integers are of 64 bits with their sign, its
doubles are finite, and each object has fields, of different keys. -/
def Literal.isKept : Literal → Bool
  | .int n => minInt64 ≤ n && n ≤ maxInt64
  | .float x => x.isFinite
  | .list items => Literal.allKept items
  | .object fields => !fields.isEmpty && decide (fields.map LiteralField.key).Nodup && LiteralField.allKept fields
  | .null | .bool _ | .string _ => true

/-- Whether the value of a field is. -/
def LiteralField.isKept : LiteralField → Bool
  | .mk _ v => v.isKept

/-- Whether all values are. -/
def Literal.allKept : List Literal → Bool
  | [] => true
  | v :: vs => v.isKept && Literal.allKept vs

/-- Whether the values of all fields are. -/
def LiteralField.allKept : List LiteralField → Bool
  | [] => true
  | f :: fs => f.isKept && LiteralField.allKept fs

end

namespace Literal

mutual

/-- A value that an expression keeps is a JSON value without empty objects and too large integers. -/
theorem isJson_and_isFaithful : ∀ {l : Literal}, l.isKept = true → l.isJson = true ∧ l.isFaithful = true
  | .null, _ | .bool _, _ | .string _, _ => ⟨rfl, rfl⟩
  | .int n, h => by
    rw [isKept, Bool.and_eq_true, decide_eq_true_eq, decide_eq_true_eq] at h
    have hlimit : (maxInt64 : Int) < pow2 64 := by decide
    rw [isJson, isFaithful, Bool.and_eq_true, decide_eq_true_eq, decide_eq_true_eq, decide_eq_true_eq]
    exact ⟨⟨h.1, Int.lt_of_le_of_lt h.2 hlimit⟩, h.2⟩
  | .float x, h => ⟨h, rfl⟩
  | .list items, h => allJson_and_allFaithful (by rwa [isKept] at h)
  | .object fields, h => by
    rw [isKept, Bool.and_eq_true, Bool.and_eq_true] at h
    obtain ⟨hjson, hfaithful⟩ := fieldsJson_and_fieldsFaithful h.2
    rw [isJson, isFaithful, h.1.1, h.1.2, hjson, hfaithful]
    exact ⟨rfl, rfl⟩

/-- So are all values of a list. -/
theorem allJson_and_allFaithful : ∀ {vs : List Literal}, allKept vs = true →
    allJson vs = true ∧ allFaithful vs = true
  | [], _ => ⟨rfl, rfl⟩
  | v :: vs, h => by
    rw [allKept, Bool.and_eq_true] at h
    obtain ⟨hv, hv'⟩ := isJson_and_isFaithful h.1
    obtain ⟨hvs, hvs'⟩ := allJson_and_allFaithful h.2
    rw [allJson, allFaithful, hv, hv', hvs, hvs']
    exact ⟨rfl, rfl⟩

/-- So are the values of all fields. -/
theorem fieldsJson_and_fieldsFaithful : ∀ {fs : List LiteralField}, LiteralField.allKept fs = true →
    LiteralField.allJson fs = true ∧ LiteralField.allFaithful fs = true
  | [], _ => ⟨rfl, rfl⟩
  | .mk key v :: fs, h => by
    rw [LiteralField.allKept, LiteralField.isKept, Bool.and_eq_true] at h
    obtain ⟨hv, hv'⟩ := isJson_and_isFaithful h.1
    obtain ⟨hfs, hfs'⟩ := fieldsJson_and_fieldsFaithful h.2
    rw [LiteralField.allJson, LiteralField.isJson, LiteralField.allFaithful, LiteralField.isFaithful,
      hv, hv', hfs, hfs']
    exact ⟨rfl, rfl⟩

end

end Literal

mutual

/-- Whether the integers of an expression are of 64 bits, and its names are names. -/
def Expr.isSound : Expr → Bool
  | .int n => minInt64 ≤ n && n ≤ maxInt64
  | .const name => isNameText name.toList
  | .classConst c name => isNameText c.toList && isNameText name.toList
  | .array items => ArrayItem.allSound items
  | .null | .bool _ | .float _ | .string _ | .raw _ => true

/-- Whether the key and the value of an array entry are sound. -/
def ArrayItem.isSound : ArrayItem → Bool
  | .value v => v.isSound
  | .keyed key v => key.isSound && v.isSound

/-- Whether all array entries are sound. -/
def ArrayItem.allSound : List ArrayItem → Bool
  | [] => true
  | item :: items => item.isSound && ArrayItem.allSound items

end

/-- A key of an array and the key that it is cast to: a string that is an integer in its usual spelling may
be cast to the integer. -/
inductive Expr.KeyCastsTo : Expr → Expr → Prop where
  | same (key : Expr) : KeyCastsTo key key
  | int {n : Int} (h₁ : minInt64 ≤ n) (h₂ : n ≤ maxInt64) : KeyCastsTo (.string (intText n)) (.int n)

mutual

/-- An expression and what it is up to casts of the keys in its arrays. -/
inductive Expr.CastsTo : Expr → Expr → Prop where
  | same (e : Expr) : Expr.CastsTo e e
  | array {items items' : List ArrayItem} (h : List.Forall₂ ArrayItem.CastsTo items items') :
    Expr.CastsTo (.array items) (.array items')

/-- An array entry and what it is up to casts of keys. -/
inductive ArrayItem.CastsTo : ArrayItem → ArrayItem → Prop where
  | value {v v' : Expr} (h : Expr.CastsTo v v') : ArrayItem.CastsTo (.value v) (.value v')
  | keyed {key key' v v' : Expr} (hkey : Expr.KeyCastsTo key key') (h : Expr.CastsTo v v') :
    ArrayItem.CastsTo (.keyed key v) (.keyed key' v')

end

namespace ValueSpec

/-! ## Plain values read back -/

/-- A key of an object is found as the key of the entry that it becomes. -/
theorem fieldKey?_arrayKey (key : String) : fieldKey? (arrayKey key) = some key := by
  unfold arrayKey
  split
  · next n _ =>
    split
    · next htext => exact congrArg some htext
    · rfl
  · rfl

/-- The text of an integer of 64 bits is the integer as a key. -/
theorem arrayKey_intText {n : Int} (h₁ : minInt64 ≤ n) (h₂ : n ≤ maxInt64) :
    arrayKey (intText n) = .int n := by
  rw [arrayKey, int64?_intText h₁ h₂]
  exact if_pos rfl

mutual

/-- A JSON value becomes an expression, from which it is read back. -/
theorem literalOf?_of_encode : ∀ {l : Literal}, l.isJson = true →
    ∃ e, encode l = .ok e ∧ literalOf? e = some l.readBack
  | .null, _ => ⟨.null, rfl, by rw [Literal.readBack]; rfl⟩
  | .bool b, _ => ⟨.bool b, rfl, by rw [Literal.readBack]; rfl⟩
  | .string s, _ => ⟨.string s, rfl, by rw [Literal.readBack]; rfl⟩
  | .int n, h => by
    rw [Literal.isJson, Bool.and_eq_true, decide_eq_true_eq, decide_eq_true_eq] at h
    rw [encode, Literal.readBack]
    split
    · exact ⟨.int n, rfl, rfl⟩
    · have hfinite : (Binary64.ofNat n.toNat).isFinite = true := Binary64.isFinite_ofNat (by omega)
      exact ⟨.float (Binary64.ofNat n.toNat), rfl, if_pos hfinite⟩
  | .float x, h => by
    rw [Literal.isJson] at h
    rw [Literal.readBack]
    exact ⟨.float x, if_pos h, if_pos h⟩
  | .list vs, h => by
    rw [Literal.isJson] at h
    obtain ⟨items, hencode, hkeys, hitems⟩ := itemsOf?_of_encodeList h
    refine ⟨.array items, ?_, ?_⟩
    · rw [encode, hencode]
      rfl
    · rw [literalOf?, if_pos hkeys, hitems, Literal.readBack]
      rfl
  | .object [], _ => ⟨.array [], rfl, by rw [Literal.readBack]; rfl⟩
  | .object (f :: fs), h => by
    rw [Literal.isJson, Bool.and_eq_true, decide_eq_true_eq] at h
    have hseen : ∀ g ∈ f :: fs, g.key ∉ ([] : List String) := fun _ _ => List.not_mem_nil
    obtain ⟨items, hencode, hkeys, hfields⟩ := fieldsOf?_of_encodeFields h.2 h.1 hseen
    have hkeyed : noKeys items = false := hkeys (List.cons_ne_nil f fs)
    refine ⟨.array items, ?_, ?_⟩
    · rw [encode, hencode]
      rfl
    · rw [literalOf?, if_neg (by rw [hkeyed]; decide), hfields, Literal.readBack]
      rfl

/-- JSON values become entries without keys, from which they are read back. -/
theorem itemsOf?_of_encodeList : ∀ {vs : List Literal}, Literal.allJson vs = true →
    ∃ items, encodeList vs = .ok items ∧ noKeys items = true ∧
      itemsOf? items = some (Literal.allReadBack vs)
  | [], _ => ⟨[], rfl, rfl, rfl⟩
  | v :: vs, h => by
    rw [Literal.allJson, Bool.and_eq_true] at h
    obtain ⟨e, hv, hliteral⟩ := literalOf?_of_encode h.1
    obtain ⟨items, hvs, hkeys, hitems⟩ := itemsOf?_of_encodeList h.2
    refine ⟨.value e :: items, ?_, hkeys, ?_⟩
    · rw [encodeList, hv, hvs]
      rfl
    · rw [itemsOf?, itemOf?, hliteral, hitems]
      rfl

/-- Fields of different keys become entries, each with its key, from which they are read back. -/
theorem fieldsOf?_of_encodeFields : ∀ {fs : List LiteralField} {seen : List String},
    LiteralField.allJson fs = true → (fs.map LiteralField.key).Nodup → (∀ f ∈ fs, f.key ∉ seen) →
    ∃ items, encodeFields fs = .ok items ∧ (fs ≠ [] → noKeys items = false) ∧
      fieldsOf? seen items = some (LiteralField.allReadBack fs)
  | [], _, _, _, _ => ⟨[], rfl, fun h => absurd rfl h, rfl⟩
  | .mk key v :: fs, seen, h, hdistinct, hseen => by
    rw [LiteralField.allJson, LiteralField.isJson, Bool.and_eq_true] at h
    obtain ⟨hkey, hdistinct⟩ := List.nodup_cons.1 hdistinct
    obtain ⟨hnew, hseen⟩ := List.forall_mem_cons.1 hseen
    -- the keys behind this field are not its key either
    have hbehind : ∀ f ∈ fs, f.key ∉ key :: seen := by
      intro f hf hmem
      rcases List.mem_cons.1 hmem with he | hmem
      · exact hkey (List.mem_map.2 ⟨f, hf, he⟩)
      · exact hseen f hf hmem
    obtain ⟨e, hv, hliteral⟩ := literalOf?_of_encode h.1
    obtain ⟨items, hfs, -, hfields⟩ := fieldsOf?_of_encodeFields h.2 hdistinct hbehind
    have hcontains : seen.contains key = false := by
      rw [List.contains_eq_mem, decide_eq_false_iff_not]
      exact hnew
    refine ⟨.keyed (arrayKey key) e :: items, ?_, fun _ => rfl, ?_⟩
    · rw [encodeFields, encodeField, hv, hfs]
      rfl
    · rw [fieldsOf?, itemOf?, hliteral]
      dsimp only [bind, Option.bind]
      rw [fieldKey?_arrayKey]
      dsimp only
      rw [hcontains, if_neg Bool.false_ne_true, hfields]
      rfl

end

/-- A literal is read back as its value. -/
theorem recover_of_literalOf? {e : Expr} {l : Literal} (h : literalOf? e = some l) :
    recover e = ofLiteral l := by
  unfold recover
  split
  · rw [literalOf?] at h
    cases h
  · rw [literalOf?] at h
    cases h
  · rw [h]

/-- A plain value in its own form, and one that an expression keeps. -/
def IsPlain (v : ValueSpec) : Prop := ∃ l : Literal, l.isKept = true ∧ v = ofLiteral l

/-- A plain value becomes an expression and is read back from it. -/
theorem IsPlain.exists_expr {v : ValueSpec} (h : v.IsPlain) : ∃ e, v.materialize = .ok e ∧ recover e = v := by
  obtain ⟨l, hkept, rfl⟩ := h
  obtain ⟨hjson, hfaithful⟩ := Literal.isJson_and_isFaithful hkept
  obtain ⟨e, hencode, hliteral⟩ := literalOf?_of_encode hjson
  rw [Literal.readBack_eq_self hfaithful] at hliteral
  exact ⟨e, hencode, recover_of_literalOf? hliteral⟩

/-- Every JSON value becomes an expression. The value that is read back from the expression equals the one
that it was made from exactly when that has neither an object without fields nor an integer above the largest
signed one; it is then the very same one, its fields in the same order. -/
theorem recover_materialize {l : Literal} (h : l.isJson = true) :
    ∃ e, (ofLiteral l).materialize = .ok e ∧ (recover e == ofLiteral l) = l.isFaithful ∧
      (l.isFaithful = true → recover e = ofLiteral l) := by
  obtain ⟨e, hencode, hliteral⟩ := literalOf?_of_encode h
  have hrecover : recover e = ofLiteral l.readBack := recover_of_literalOf? hliteral
  refine ⟨e, hencode, ?_, fun hfaithful => ?_⟩
  · rw [hrecover]
    exact Literal.same_readBack h
  · rw [hrecover, Literal.readBack_eq_self hfaithful]

/-- Fields whose keys are integers, in their usual spelling or in another one, with lists and objects in
them. -/
def keyedLiteral : Literal :=
  .object
    [.mk "10" (.list [.int minInt64, .float ⟨0x8000000000000000⟩, .list []]), .mk "01" (.int maxInt64),
      .mk "-0" (.object [.mk "+5" (.bool true), .mk "-5" .null]), .mk "9223372036854775808" (.string "7"),
      .mk "" (.list [.object [.mk "0" (.list [.null])]])]

/-- Keys that are integers come back as they were spelled, at every level. -/
theorem recover_materialize_keyed : keyedLiteral.isJson = true ∧ keyedLiteral.isFaithful = true ∧
    ∃ e, (ofLiteral keyedLiteral).materialize = .ok e ∧ recover e = ofLiteral keyedLiteral := by
  have hjson : keyedLiteral.isJson = true := by decide +kernel
  have hfaithful : keyedLiteral.isFaithful = true := by decide +kernel
  obtain ⟨e, hmaterialize, -, hrecover⟩ := recover_materialize hjson
  exact ⟨hjson, hfaithful, e, hmaterialize, hrecover hfaithful⟩

/-! ## Literals written again -/

/-- A key is the key of the entry that its field becomes, up to a cast. -/
theorem keyCastsTo {key : Expr} {field : String} (hsound : key.isSound = true)
    (h : fieldKey? key = some field) : key.KeyCastsTo (arrayKey field) := by
  cases key with
  | int n =>
    rw [Expr.isSound, Bool.and_eq_true, decide_eq_true_eq, decide_eq_true_eq] at hsound
    obtain rfl := Option.some.inj h
    rw [arrayKey_intText hsound.1 hsound.2]
    exact .same _
  | string s =>
    obtain rfl := Option.some.inj h
    unfold arrayKey
    split
    · next n hn =>
      obtain ⟨h₁, h₂⟩ := range_of_int64? hn
      split
      · next htext =>
        rw [← htext]
        exact .int h₁ h₂
      · exact .same _
    · exact .same _
  | _ => cases h

mutual

/-- A literal is the expression that its value becomes, up to casts of keys. -/
theorem encode_of_literalOf? : ∀ {e : Expr} {l : Literal}, e.isSound = true → literalOf? e = some l →
    ∃ e', encode l = .ok e' ∧ e.CastsTo e'
  | .null, l, _, h => by
    obtain rfl := Option.some.inj h
    exact ⟨_, rfl, .same _⟩
  | .bool b, l, _, h => by
    obtain rfl := Option.some.inj h
    exact ⟨_, rfl, .same _⟩
  | .int n, l, hsound, h => by
    rw [Expr.isSound, Bool.and_eq_true, decide_eq_true_eq, decide_eq_true_eq] at hsound
    obtain rfl := Option.some.inj h
    exact ⟨.int n, if_pos hsound.2, .same _⟩
  | .float x, l, _, h => by
    rw [literalOf?] at h
    split at h
    · next hfinite =>
      obtain rfl := Option.some.inj h
      exact ⟨.float x, if_pos hfinite, .same _⟩
    · cases h
  | .string s, l, _, h => by
    obtain rfl := Option.some.inj h
    exact ⟨_, rfl, .same _⟩
  | .array items, l, hsound, h => by
    rw [Expr.isSound] at hsound
    rw [literalOf?] at h
    split at h
    · next hkeys =>
      obtain ⟨vs, hvs, rfl⟩ := Option.map_eq_some_iff.1 h
      obtain ⟨items', hencode, hcasts⟩ := encodeList_of_itemsOf? hsound hkeys hvs
      refine ⟨.array items', ?_, .array hcasts⟩
      rw [encode, hencode]
      rfl
    · obtain ⟨fs, hfs, rfl⟩ := Option.map_eq_some_iff.1 h
      obtain ⟨items', hencode, hcasts⟩ := encodeFields_of_fieldsOf? hsound hfs
      refine ⟨.array items', ?_, .array hcasts⟩
      rw [encode, hencode]
      rfl
  | .const _, _, _, h => by
    rw [literalOf?] at h
    cases h
  | .classConst _ _, _, _, h => by
    rw [literalOf?] at h
    cases h
  | .raw _, _, _, h => by
    rw [literalOf?] at h
    cases h

/-- Array entries without keys are the entries that their values become, up to casts of keys. -/
theorem encodeList_of_itemsOf? : ∀ {items : List ArrayItem} {vs : List Literal},
    ArrayItem.allSound items = true → noKeys items = true → itemsOf? items = some vs →
    ∃ items', encodeList vs = .ok items' ∧ List.Forall₂ ArrayItem.CastsTo items items'
  | [], vs, _, _, h => by
    obtain rfl := Option.some.inj h
    exact ⟨[], rfl, .nil⟩
  | .keyed _ _ :: _, _, _, hkeys, _ => by cases hkeys
  | .value v :: items, vs, hsound, hkeys, h => by
    rw [ArrayItem.allSound, ArrayItem.isSound, Bool.and_eq_true] at hsound
    rw [itemsOf?, itemOf?] at h
    obtain ⟨l, hl, h⟩ := Option.bind_eq_some_iff.1 h
    obtain ⟨ls, hls, h⟩ := Option.bind_eq_some_iff.1 h
    obtain rfl := Option.some.inj h
    obtain ⟨v', hv', hcasts⟩ := encode_of_literalOf? hsound.1 hl
    obtain ⟨items', hitems', hall⟩ := encodeList_of_itemsOf? hsound.2 hkeys hls
    refine ⟨.value v' :: items', ?_, .cons (.value hcasts) hall⟩
    rw [encodeList, hv', hitems']
    rfl

/-- Array entries of different keys are the entries that their fields become, up to casts of keys. -/
theorem encodeFields_of_fieldsOf? : ∀ {items : List ArrayItem} {seen : List String}
    {fs : List LiteralField}, ArrayItem.allSound items = true → fieldsOf? seen items = some fs →
    ∃ items', encodeFields fs = .ok items' ∧ List.Forall₂ ArrayItem.CastsTo items items'
  | [], _, fs, _, h => by
    obtain rfl := Option.some.inj h
    exact ⟨[], rfl, .nil⟩
  | .value _ :: _, _, _, _, h => by
    rw [fieldsOf?] at h
    cases h
  | .keyed key v :: items, seen, fs, hsound, h => by
    rw [ArrayItem.allSound, ArrayItem.isSound, Bool.and_eq_true, Bool.and_eq_true] at hsound
    obtain ⟨⟨hkey, hv⟩, hitems⟩ := hsound
    rw [fieldsOf?, itemOf?] at h
    obtain ⟨field, hfield, h⟩ := Option.bind_eq_some_iff.1 h
    obtain ⟨l, hl, h⟩ := Option.bind_eq_some_iff.1 h
    split at h
    · cases h
    obtain ⟨fs', hfs', h⟩ := Option.bind_eq_some_iff.1 h
    obtain rfl := Option.some.inj h
    obtain ⟨v', hv', hcasts⟩ := encode_of_literalOf? hv hl
    obtain ⟨items', hitems', hall⟩ := encodeFields_of_fieldsOf? hitems hfs'
    refine ⟨.keyed (arrayKey field) v' :: items', ?_, .cons (.keyed (keyCastsTo hkey hfield) hcasts) hall⟩
    rw [encodeFields, encodeField, hv', hitems']
    rfl

end

/-! ## Values read from expressions -/

/-- A value that is read from a sound expression becomes the expression again, up to casts of keys, if it is
fetched, and else it is refused as no constant. -/
theorem materialize_recover {e : Expr} (h : e.isSound = true) :
    if isFetched e then ∃ e', (recover e).materialize = .ok e' ∧ e.CastsTo e'
    else ∃ text, (recover e).materialize = .error (.unsupportedValue text .notAConstant) := by
  -- a name becomes what it fetches, or it is refused
  have hname {name : String} {e : Expr} {p : Bool}
      (hfetch : constantFetch? name = if p then some e else none) :
      if p then ∃ e', (ofConstant name).materialize = .ok e' ∧ e.CastsTo e'
      else ∃ text, (ofConstant name).materialize = .error (.unsupportedValue text .notAConstant) := by
    unfold materialize ofConstant encodeAs
    dsimp only
    rw [hfetch]
    cases p with
    | true => exact ⟨e, rfl, .same e⟩
    | false => exact ⟨_, rfl⟩
  -- everything else is a literal or stays the expression that it is
  have hvalue (e : Expr) (h : e.isSound = true) (hliteral : ∀ l, literalOf? e = some l → recover e = ofLiteral l)
      (hkept : literalOf? e = none → recover e = ofExpr e) :
      ∃ e', (recover e).materialize = .ok e' ∧ e.CastsTo e' := by
    cases hl : literalOf? e with
    | some l =>
      rw [hliteral l hl]
      exact encode_of_literalOf? h hl
    | none =>
      rw [hkept hl]
      exact ⟨e, rfl, .same e⟩
  cases e with
  | const name => exact hname (constantFetch?_const h)
  | classConst c name =>
    obtain ⟨hc, hn⟩ := Bool.and_eq_true_iff.1 h
    exact hname (constantFetch?_classConst hc hn)
  | _ =>
    refine hvalue _ h (fun l hl => ?_) fun hl => ?_
    all_goals
      unfold recover
      dsimp only
      rw [hl]

end ValueSpec

end PhpGraft

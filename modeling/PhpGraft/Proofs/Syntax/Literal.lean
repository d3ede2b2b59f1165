import PhpGraft.Proofs.Syntax.Words

/-!
# Literals read back

An expression without doubles and raw source is written as a literal, and reading it gives it back
(`Expr.literal_parts`). The exception is the least 64-bit integer: what follows its minus sign is too
large for an integer and is read as a double. `Expr.reread` says what becomes of an expression, and
`Expr.reread_eq_self_iff` when nothing does.
-/

namespace PhpGraft

open Decimal Lexer Text

/-- The least signed 64-bit integer. -/
def minInt64 : Int := -(maxInt64 : Int) - 1

/-- Whether a name is read as null or as a truth value. -/
def isReserved (name : String) : Bool :=
  eqIgnoreCase name "null" || eqIgnoreCase name "true" || eqIgnoreCase name "false"

/-! ## Expressions that are read back -/

mutual

/-- Whether an expression is made of literals other than doubles, of constants and of constants of
classes. -/
def Expr.isPlain : Expr → Bool
  | .null | .bool _ | .string _ => true
  | .int n => minInt64 ≤ n && n ≤ maxInt64
  | .array items => ArrayItem.allPlain items
  | .const name => isNameText name.toList && !isReserved name
  | .classConst c name => isNameText c.toList && !isReserved c && isNameText name.toList
  | .float _ | .raw _ => false

/-- Whether the key and the value of an array entry are. -/
def ArrayItem.isPlain : ArrayItem → Bool
  | .value v => v.isPlain
  | .keyed key v => key.isPlain && v.isPlain

/-- Whether all array entries are. -/
def ArrayItem.allPlain : List ArrayItem → Bool
  | [] => true
  | item :: items => item.isPlain && ArrayItem.allPlain items

end

mutual

/-- What an expression is read back as: the least integer comes back as a double. -/
def Expr.reread : Expr → Expr
  | .int n => if n = minInt64 then .float (Binary64.ofNat (maxInt64 + 1)).neg else .int n
  | .array items => .array (ArrayItem.rereadAll items)
  | .null => .null
  | .bool b => .bool b
  | .string s => .string s
  | .float x => .float x
  | .const name => .const name
  | .classConst c name => .classConst c name
  | .raw source => .raw source

/-- What an array entry is read back as. -/
def ArrayItem.reread : ArrayItem → ArrayItem
  | .value v => .value v.reread
  | .keyed key v => .keyed key.reread v.reread

/-- What array entries are read back as. -/
def ArrayItem.rereadAll : List ArrayItem → List ArrayItem
  | [] => []
  | item :: items => item.reread :: ArrayItem.rereadAll items

end

mutual

/-- Whether the least integer is somewhere in an expression. -/
def Expr.holdsLeast : Expr → Bool
  | .int n => n == minInt64
  | .array items => ArrayItem.anyLeast items
  | .null | .bool _ | .float _ | .string _ | .const _ | .classConst _ _ | .raw _ => false

/-- Whether it is somewhere in the key or the value of an array entry. -/
def ArrayItem.holdsLeast : ArrayItem → Bool
  | .value v => v.holdsLeast
  | .keyed key v => key.holdsLeast || v.holdsLeast

/-- Whether it is somewhere in one of some array entries. -/
def ArrayItem.anyLeast : List ArrayItem → Bool
  | [] => false
  | item :: items => item.holdsLeast || ArrayItem.anyLeast items

end

mutual

/-- An expression is read back as itself if the least integer is nowhere in it, and only then. -/
theorem Expr.reread_eq_self_iff : ∀ {e : Expr}, e.reread = e ↔ e.holdsLeast = false
  | .int n => by
    rw [Expr.reread, Expr.holdsLeast, beq_eq_false_iff_ne]
    split
    · next h => exact ⟨nofun, absurd h⟩
    · next h => exact ⟨fun _ => h, fun _ => rfl⟩
  | .array items => by
    rw [Expr.reread, Expr.holdsLeast, Expr.array.injEq]
    exact ArrayItem.rereadAll_eq_self_iff
  | .null | .bool _ | .string _ | .float _ | .const _ | .classConst _ _ | .raw _ => by
    simp [Expr.reread, Expr.holdsLeast]

/-- An array entry is read back as itself if the least integer is nowhere in it, and only then. -/
theorem ArrayItem.reread_eq_self_iff : ∀ {item : ArrayItem},
    item.reread = item ↔ item.holdsLeast = false
  | .value v => by
    rw [ArrayItem.reread, ArrayItem.holdsLeast, ArrayItem.value.injEq]
    exact Expr.reread_eq_self_iff
  | .keyed key v => by
    rw [ArrayItem.reread, ArrayItem.holdsLeast, ArrayItem.keyed.injEq, Bool.or_eq_false_iff]
    exact and_congr Expr.reread_eq_self_iff Expr.reread_eq_self_iff

/-- Array entries are read back as themselves if the least integer is in none of them, and only then. -/
theorem ArrayItem.rereadAll_eq_self_iff : ∀ {items : List ArrayItem},
    ArrayItem.rereadAll items = items ↔ ArrayItem.anyLeast items = false
  | [] => by simp [ArrayItem.rereadAll, ArrayItem.anyLeast]
  | item :: items => by
    rw [ArrayItem.rereadAll, ArrayItem.anyLeast, List.cons.injEq, Bool.or_eq_false_iff]
    exact and_congr ArrayItem.reread_eq_self_iff ArrayItem.rereadAll_eq_self_iff

end

/-! ## Their parts -/

/-- The parts of an integer: its digits, behind a minus sign if it is negative. -/
def intParts : Int → List Part
  | .ofNat n => [.word (numberKind n) (natText n)]
  | .negSucc n => [.sign '-', .word (numberKind (n + 1)) (natText (n + 1))]

mutual

/-- The parts of an expression as it is written. -/
def Expr.parts : Expr → List Part
  | .null => [.name "null"]
  | .bool b => [.name (if b then "true" else "false")]
  | .int n => intParts n
  | .string s => [.word (.string (some s)) (quoteString s)]
  | .array items => .sign '[' :: (ArrayItem.listParts items ++ [.sign ']'])
  | .const name => [.name name]
  | .classConst c name => [.name c, .word .doubleColon "::", .name name]
  | .float _ | .raw _ => []

/-- The parts of an array entry as it is written. -/
def ArrayItem.parts : ArrayItem → List Part
  | .value v => v.parts
  | .keyed key v => key.parts ++ .word .doubleArrow "=>" :: v.parts

/-- The parts of array entries as they are written. -/
def ArrayItem.listParts : List ArrayItem → List Part
  | [] => []
  | [item] => item.parts
  | item :: items => item.parts ++ .sign ',' :: ArrayItem.listParts items

end

/-- The parts of an integer are those of its text. -/
theorem lexes_intText {n : Int} (h₁ : minInt64 ≤ n) (h₂ : n ≤ maxInt64) :
    Lexes (intText n).toList (intParts n) Breaks := by
  have hmax : maxInt64 + 1 < pow2 128 := by decide +kernel
  cases n with
  | ofNat n =>
    have : n ≤ maxInt64 := Int.ofNat_le.1 h₂
    exact Lexes.natText (by omega)
  | negSucc n =>
    have : n + 1 ≤ maxInt64 + 1 := by
      unfold minInt64 at h₁
      omega
    rw [intText, String.toList_append]
    exact (Lexes.sign rfl).append_of_anything (Lexes.natText (by omega))

mutual

/-- The text of an expression shows its parts. -/
theorem Expr.lexes : ∀ {e : Expr}, e.isPlain = true → Lexes e.text.toList e.parts Breaks
  | .null, _ => by
    rw [Expr.text, Expr.parts]
    exact Lexes.name rfl
  | .bool b, _ => by
    rw [Expr.text, Expr.parts]
    cases b <;> exact Lexes.name rfl
  | .int n, h => by
    rw [Expr.isPlain, Bool.and_eq_true, decide_eq_true_eq, decide_eq_true_eq] at h
    rw [Expr.text, Expr.parts]
    exact lexes_intText h.1 h.2
  | .string s, _ => by
    rw [Expr.text, Expr.parts]
    exact (Lexes.quoteString s).mono fun _ _ => trivial
  | .array items, h => by
    rw [Expr.isPlain] at h
    rw [Expr.text, Expr.parts, String.toList_append, String.toList_append, List.append_assoc]
    have hclose : Lexes "]".toList [.sign ']'] Breaks := (Lexes.sign rfl).mono fun _ _ => trivial
    exact (Lexes.sign (c := '[') rfl).append_of_anything
      ((ArrayItem.lexes_list h).append hclose fun f _ => breaks_cons rfl f)
  | .const name, h => by
    rw [Expr.isPlain, Bool.and_eq_true] at h
    rw [Expr.text, Expr.parts]
    exact Lexes.name h.1
  | .classConst c name, h => by
    rw [Expr.isPlain, Bool.and_eq_true, Bool.and_eq_true] at h
    rw [Expr.text, Expr.parts, String.toList_append, String.toList_append, List.append_assoc]
    exact (Lexes.name h.1.1).append (Lexes.doubleColon.append_of_anything (Lexes.name h.2))
      fun f _ => breaks_cons rfl _

/-- The text of an array entry shows its parts. -/
theorem ArrayItem.lexes : ∀ {i : ArrayItem}, i.isPlain = true → Lexes i.text.toList i.parts Breaks
  | .value v, h => by
    rw [ArrayItem.isPlain] at h
    rw [ArrayItem.text, ArrayItem.parts]
    exact Expr.lexes h
  | .keyed key v, h => by
    rw [ArrayItem.isPlain, Bool.and_eq_true] at h
    rw [ArrayItem.text, ArrayItem.parts, String.toList_append, String.toList_append,
      List.append_assoc]
    have harrow : Lexes " => ".toList [.word .doubleArrow "=>"] Anything :=
      (Lexes.blank (g := [' ']) rfl).append_of_anything
        (Lexes.arrow.append_of_anything (Lexes.blank (g := [' ']) rfl))
    exact (Expr.lexes h.1).append (harrow.append_of_anything (Expr.lexes h.2))
      fun f _ => breaks_cons rfl _

/-- The text of array entries shows their parts. -/
theorem ArrayItem.lexes_list : ∀ {items : List ArrayItem}, ArrayItem.allPlain items = true →
    Lexes (ArrayItem.listText items).toList (ArrayItem.listParts items) Breaks
  | [], _ => by
    rw [ArrayItem.listText, ArrayItem.listParts]
    exact Lexes.nil
  | [item], h => by
    rw [ArrayItem.allPlain, Bool.and_eq_true] at h
    rw [ArrayItem.listText, ArrayItem.listParts]
    exact ArrayItem.lexes h.1
  | item :: next :: items, h => by
    rw [ArrayItem.allPlain, Bool.and_eq_true] at h
    rw [ArrayItem.listText, ArrayItem.listParts, String.toList_append, String.toList_append,
      List.append_assoc]
    · have hcomma : Lexes ", ".toList [.sign ','] Anything :=
        (Lexes.sign (c := ',') rfl).append_of_anything (Lexes.blank (g := [' ']) rfl)
      exact (ArrayItem.lexes h.1).append
        (hcomma.append_of_anything (ArrayItem.lexes_list h.2)) fun f _ => breaks_cons rfl _
    · simp
    · simp

end

/-! ## Reading them -/

namespace Reader

variable {rest more : List Token} {gap text : List Char} {start : Nat}

/-- What a reader of literals reads and what it leaves. -/
def Gives {α : Type} {ts : List Token} (read : Option (α × Behind ts)) (x : α)
    (rest : List Token) : Prop := ∃ h, read = some (x, ⟨rest, h⟩)

/-- Tokens that are read to their end are a literal. -/
theorem literal?_of_gives {ts : List Token} {e : Expr} (h : Gives (literal (ts ++ [])) e []) :
    literal? ts = some e := by
  rw [List.append_nil] at h
  obtain ⟨_, h⟩ := h
  rw [literal?, h]

/-- Tokens that do not continue the name ahead of them. -/
def EndsName (ts : List Token) : Prop :=
  ∀ t ∈ ts.head?, t.kind ≠ .doubleColon ∧ t.isPunct '(' = false

/-- A name that is not reserved is no reserved word. -/
theorem isKeyword_of_not_isReserved {s : String} (h : isReserved s = false) :
    eqIgnoreCase s "null" = false ∧ eqIgnoreCase s "true" = false ∧
      eqIgnoreCase s "false" = false := by
  simpa [isReserved, and_assoc] using h

/-- The word for null is read as null. -/
theorem literal_null : Gives (literal (⟨.name, gap, "null".toList, start⟩ :: rest)) .null rest := by
  have hnull : eqIgnoreCase "null" "null" = true := by decide
  refine ⟨Nat.lt_succ_self _, ?_⟩
  unfold literal
  simp only [Token.isKeyword, Token.source, String.ofList_toList, hnull]
  rfl

/-- The word for a truth value is read as that value. -/
theorem literal_bool (b : Bool) :
    Gives (literal (⟨.name, gap, (if b then "true" else "false").toList, start⟩ :: rest)) (.bool b)
      rest := by
  have hwords : eqIgnoreCase "true" "null" = false ∧ eqIgnoreCase "true" "true" = true ∧
      eqIgnoreCase "false" "null" = false ∧ eqIgnoreCase "false" "true" = false ∧
        eqIgnoreCase "false" "false" = true := by decide
  obtain ⟨h₁, h₂, h₃, h₄, h₅⟩ := hwords
  refine ⟨Nat.lt_succ_self _, ?_⟩
  unfold literal
  cases b
  · simp [Token.isKeyword, Token.source, h₃, h₄, h₅]
  · simp [Token.isKeyword, Token.source, h₁, h₂]

/-- A name is read as a constant where nothing continues it. -/
theorem literal_const {s : String} (hs : isReserved s = false) (h : EndsName rest) :
    Gives (literal (⟨.name, gap, s.toList, start⟩ :: rest)) (.const s) rest := by
  obtain ⟨h₁, h₂, h₃⟩ := isKeyword_of_not_isReserved hs
  have hconst : constantOf s rest = (.const s, ⟨rest, Nat.le_refl _⟩) := by
    unfold constantOf
    split
    · exact absurd rfl (h _ rfl).1
    · rfl
  have hparen : rest.head?.any (·.isPunct '(') = false := by
    cases rest with
    | nil => rfl
    | cons t ts => simpa using (h t rfl).2
  refine ⟨Nat.lt_succ_self _, ?_⟩
  unfold literal
  simp [Token.isKeyword, Token.source, h₁, h₂, h₃, hparen, hconst]

/-- Two names with a double colon between them are read as a constant of a class. -/
theorem literal_classConst {c s : String} {gap₂ gap₃ text₂ : List Char} {start₂ start₃ : Nat}
    (hc : isReserved c = false) :
    Gives (literal (⟨.name, gap, c.toList, start⟩ :: ⟨.doubleColon, gap₂, text₂, start₂⟩ ::
      ⟨.name, gap₃, s.toList, start₃⟩ :: rest)) (.classConst c s) rest := by
  obtain ⟨h₁, h₂, h₃⟩ := isKeyword_of_not_isReserved hc
  refine ⟨by simp only [List.length_cons]; omega, ?_⟩
  unfold literal
  simp [Token.isKeyword, Token.source, Token.isPunct, h₁, h₂, h₃, constantOf]

/-- What follows an opening bracket is read as an array. -/
theorem literal_array {items : List ArrayItem} (h : Gives (entries ']' rest) items more) :
    Gives (literal (⟨.punct '[', gap, text, start⟩ :: rest)) (.array items) more := by
  obtain ⟨hm, he⟩ := h
  refine ⟨Nat.lt_succ_of_lt hm, ?_⟩
  unfold literal
  simp [he]

/-- A value is an entry where no arrow follows it. -/
theorem entry_value {e : Expr} {t : Token} (h : t.kind ≠ .doubleArrow) :
    entry e (t :: rest) = some (.value e, ⟨t :: rest, Nat.le_refl _⟩) := by
  obtain ⟨kind, gap, text, start⟩ := t
  unfold entry
  cases kind <;> simp_all

/-- A value behind an arrow makes an entry with a key. -/
theorem entry_keyed {e v : Expr} (h : Gives (literal rest) v more) :
    ∃ h, entry e (⟨.doubleArrow, gap, text, start⟩ :: rest) = some (.keyed e v, ⟨more, h⟩) := by
  obtain ⟨hl, he⟩ := h
  refine ⟨Nat.le_succ_of_le (Nat.le_of_lt hl), ?_⟩
  rw [entry]
  simp [he]

section Entries

variable {close : Char} {t separator : Token} {ts : List Token} {e : Expr} {item : ArrayItem}

/-- No entries stand ahead of a closing delimiter. -/
theorem entries_close (h : t.isPunct close = true) :
    Gives (entries close (t :: rest)) [] rest :=
  ⟨Nat.lt_succ_self _, by rw [entries, if_pos h]⟩

/-- An entry is the last one ahead of a closing delimiter. -/
theorem entries_last (ht : t.isPunct close = false) (hl : Gives (literal (t :: ts)) e more)
    (hi : ∃ h, entry e more = some (item, ⟨separator :: rest, h⟩))
    (hcomma : separator.isPunct ',' = false) (hclose : separator.isPunct close = true) :
    Gives (entries close (t :: ts)) [item] rest := by
  obtain ⟨hl, he⟩ := hl
  obtain ⟨hi, hie⟩ := hi
  refine ⟨Nat.lt_trans hi hl, ?_⟩
  rw [entries]
  simp [ht, he, hie, hcomma, hclose]

/-- Further entries follow a comma. -/
theorem entries_cons {items : List ArrayItem} {last : List Token} (ht : t.isPunct close = false)
    (hl : Gives (literal (t :: ts)) e more)
    (hi : ∃ h, entry e more = some (item, ⟨separator :: rest, h⟩))
    (hcomma : separator.isPunct ',' = true) (hr : Gives (entries close rest) items last) :
    Gives (entries close (t :: ts)) (item :: items) last := by
  obtain ⟨hl, he⟩ := hl
  obtain ⟨hi, hie⟩ := hi
  obtain ⟨hr, hre⟩ := hr
  refine ⟨Nat.lt_trans (Nat.lt_trans hr hi) hl, ?_⟩
  rw [entries]
  simp [ht, he, hie, hcomma, hre]

end Entries

/-- An integer is read back, the least one as a double. -/
theorem literal_intParts {n : Int} (h₁ : minInt64 ≤ n) (h₂ : n ≤ maxInt64) {ts : List Token}
    (hts : Spells ts (intParts n)) :
    Gives (literal (ts ++ rest)) (Expr.int n).reread rest := by
  rw [Expr.reread]
  cases n with
  | ofNat n =>
    obtain ⟨gap, start, ts, rfl, -, hts⟩ := hts.exists_word
    obtain rfl := hts.eq_nil
    have hn : n ≤ maxInt64 := Int.ofNat_le.1 h₂
    have hne : Int.ofNat n ≠ minInt64 := by
      have : (0 : Int) ≤ Int.ofNat n := Int.natCast_nonneg n
      unfold minInt64
      omega
    rw [if_neg hne, numberKind, if_pos hn]
    refine ⟨Nat.lt_succ_self _, ?_⟩
    unfold literal
    rfl
  | negSucc n =>
    obtain ⟨gap, start, ts, rfl, -, hts⟩ := hts.exists_word
    obtain ⟨gap', start', ts, rfl, -, hts⟩ := hts.exists_word
    obtain rfl := hts.eq_nil
    refine ⟨Nat.lt_succ_of_lt (Nat.lt_succ_self _), ?_⟩
    -- The minus sign and the number are two tokens; only the least integer is too large for one.
    by_cases hn : n + 1 ≤ maxInt64
    · have hne : Int.negSucc n ≠ minInt64 := by
        unfold minInt64
        omega
      rw [if_neg hne, numberKind, if_pos hn]
      unfold literal
      rfl
    · have heq : Int.negSucc n = minInt64 := by
        unfold minInt64 at h₁ ⊢
        omega
      have hsucc : n + 1 = maxInt64 + 1 := by
        unfold minInt64 at heq
        omega
      rw [if_pos heq, numberKind, if_neg hn, hsucc]
      unfold literal
      rfl

/-- The first token of an expression closes nothing and is no doc comment. -/
theorem exists_first {e : Expr} {ts : List Token} (h : e.isPlain = true)
    (hts : Spells ts e.parts) :
    ∃ t us, ts = t :: us ∧ t.isPunct ']' = false ∧ t.kind ≠ .docComment := by
  have hword {kind : TokenKind} {text : String} {ps : List Part}
      (hts : Spells ts (.word kind text :: ps)) (h₁ : kind ≠ .punct ']')
      (h₂ : kind ≠ .docComment) :
      ∃ t us, ts = t :: us ∧ t.isPunct ']' = false ∧ t.kind ≠ .docComment := by
    obtain ⟨gap, start, us, rfl, -, -⟩ := hts.exists_word
    exact ⟨_, us, rfl, beq_false_of_ne h₁, h₂⟩
  have hnumber (n : Nat) : numberKind n ≠ .punct ']' ∧ numberKind n ≠ .docComment := by
    unfold numberKind
    split <;> exact ⟨nofun, nofun⟩
  cases e with
  | null | bool _ | string _ | array _ | const _ | classConst _ _ =>
    rw [Expr.parts] at hts
    exact hword hts (by simp) (by simp)
  | int n =>
    rw [Expr.parts] at hts
    cases n with
    | ofNat n => exact hword hts (hnumber n).1 (hnumber n).2
    | negSucc n => exact hword hts (by simp) (by simp)
  | float _ | raw _ => simp [Expr.isPlain] at h

mutual

/-- The tokens of an expression are read as what it is read back as. -/
theorem literal_parts : ∀ {e : Expr} {ts rest : List Token}, e.isPlain = true →
    Spells ts e.parts → EndsName rest → Gives (literal (ts ++ rest)) e.reread rest
  | .null, ts, rest, _, hts, _ => by
    rw [Expr.parts] at hts
    obtain ⟨gap, start, ts, rfl, -, hts⟩ := hts.exists_word
    obtain rfl := hts.eq_nil
    rw [Expr.reread]
    exact literal_null
  | .bool b, ts, rest, _, hts, _ => by
    rw [Expr.parts] at hts
    obtain ⟨gap, start, ts, rfl, -, hts⟩ := hts.exists_word
    obtain rfl := hts.eq_nil
    rw [Expr.reread]
    exact literal_bool b
  | .int n, ts, rest, h, hts, _ => by
    rw [Expr.isPlain, Bool.and_eq_true, decide_eq_true_eq, decide_eq_true_eq] at h
    rw [Expr.parts] at hts
    exact literal_intParts h.1 h.2 hts
  | .string s, ts, rest, _, hts, _ => by
    rw [Expr.parts] at hts
    obtain ⟨gap, start, ts, rfl, -, hts⟩ := hts.exists_word
    obtain rfl := hts.eq_nil
    refine ⟨Nat.lt_succ_self _, ?_⟩
    rw [Expr.reread]
    unfold literal
    rfl
  | .array items, ts, rest, h, hts, _ => by
    rw [Expr.isPlain] at h
    rw [Expr.parts] at hts
    obtain ⟨gap, start, ts, rfl, -, hts⟩ := hts.exists_word
    obtain ⟨us, vs, rfl, hus, hvs⟩ := hts.exists_of_append
    obtain ⟨gap', start', vs, rfl, -, hvs⟩ := hvs.exists_word
    obtain rfl := hvs.eq_nil
    rw [Expr.reread, List.cons_append, List.append_assoc]
    exact literal_array (entries_parts h hus)
  | .const name, ts, rest, h, hts, hrest => by
    rw [Expr.isPlain, Bool.and_eq_true, Bool.not_eq_true'] at h
    rw [Expr.parts] at hts
    obtain ⟨gap, start, ts, rfl, -, hts⟩ := hts.exists_word
    obtain rfl := hts.eq_nil
    rw [Expr.reread]
    exact literal_const h.2 hrest
  | .classConst c name, ts, rest, h, hts, _ => by
    rw [Expr.isPlain, Bool.and_eq_true, Bool.and_eq_true, Bool.not_eq_true'] at h
    rw [Expr.parts] at hts
    obtain ⟨gap, start, ts, rfl, -, hts⟩ := hts.exists_word
    obtain ⟨gap', start', ts, rfl, -, hts⟩ := hts.exists_word
    obtain ⟨gap'', start'', ts, rfl, -, hts⟩ := hts.exists_word
    obtain rfl := hts.eq_nil
    rw [Expr.reread]
    exact literal_classConst h.1.2

/-- The tokens of an array entry ahead of a token that is neither an arrow nor continues a name are
read as what it is read back as. -/
theorem entry_parts : ∀ {item : ArrayItem} {ts rest : List Token} {t : Token},
    item.isPlain = true → Spells ts item.parts → t.kind ≠ .doubleArrow → EndsName (t :: rest) →
    ∃ first e more us, ts = first :: us ∧ first.isPunct ']' = false ∧
      Gives (literal (ts ++ t :: rest)) e more ∧
      ∃ h, entry e more = some (item.reread, ⟨t :: rest, h⟩)
  | .value v, ts, rest, t, h, hts, ht, hends => by
    rw [ArrayItem.isPlain] at h
    rw [ArrayItem.parts] at hts
    obtain ⟨first, us, hfirst, hclose, -⟩ := exists_first h hts
    rw [ArrayItem.reread]
    exact ⟨first, _, _, us, hfirst, hclose, literal_parts h hts hends, _, entry_value ht⟩
  | .keyed key v, ts, rest, t, h, hts, ht, hends => by
    rw [ArrayItem.isPlain, Bool.and_eq_true] at h
    rw [ArrayItem.parts] at hts
    obtain ⟨ks, vs, rfl, hks, hvs⟩ := hts.exists_of_append
    obtain ⟨gap, start, vs, rfl, -, hvs⟩ := hvs.exists_word
    obtain ⟨first, us, rfl, hclose, -⟩ := exists_first h.1 hks
    have harrow : EndsName
        (⟨.doubleArrow, gap, "=>".toList, start⟩ :: (vs ++ t :: rest)) := by
      intro u hu
      obtain rfl : _ = u := by simpa using hu
      exact ⟨nofun, rfl⟩
    have hkey := literal_parts h.1 hks harrow
    have hvalue := literal_parts h.2 hvs hends
    rw [ArrayItem.reread, List.append_assoc]
    exact ⟨first, _, _, _, rfl, hclose, hkey, entry_keyed hvalue⟩

/-- The tokens of array entries and of a closing bracket are read as what the entries are read back
as. -/
theorem entries_parts : ∀ {items : List ArrayItem} {ts rest : List Token} {gap text : List Char}
    {start : Nat}, ArrayItem.allPlain items = true → Spells ts (ArrayItem.listParts items) →
    Gives (entries ']' (ts ++ ⟨.punct ']', gap, text, start⟩ :: rest))
      (ArrayItem.rereadAll items) rest
  | [], ts, rest, gap, text, start, _, hts => by
    rw [ArrayItem.listParts] at hts
    obtain rfl := hts.eq_nil
    rw [ArrayItem.rereadAll]
    exact entries_close rfl
  | [item], ts, rest, gap, text, start, h, hts => by
    rw [ArrayItem.allPlain, Bool.and_eq_true] at h
    rw [ArrayItem.listParts] at hts
    have hends : EndsName (⟨.punct ']', gap, text, start⟩ :: rest) := by
      intro u hu
      obtain rfl : _ = u := by simpa using hu
      exact ⟨nofun, rfl⟩
    obtain ⟨first, e, more, us, rfl, hclose, hl, hi⟩ := entry_parts h.1 hts (by simp) hends
    rw [ArrayItem.rereadAll, ArrayItem.rereadAll]
    exact entries_last hclose hl hi rfl rfl
  | item :: next :: items, ts, rest, gap, text, start, h, hts => by
    rw [ArrayItem.allPlain, Bool.and_eq_true] at h
    rw [ArrayItem.listParts] at hts
    · obtain ⟨us, vs, rfl, hus, hvs⟩ := hts.exists_of_append
      obtain ⟨gap', start', vs, rfl, -, hvs⟩ := hvs.exists_word
      have hrest : Gives (entries ']' (vs ++ ⟨.punct ']', gap, text, start⟩ :: rest))
          (ArrayItem.rereadAll (next :: items)) rest := entries_parts h.2 hvs
      have hends : EndsName (⟨.punct ',', gap', (String.ofList [',']).toList, start'⟩ ::
          (vs ++ ⟨.punct ']', gap, text, start⟩ :: rest)) := by
        intro u hu
        obtain rfl : _ = u := by simpa using hu
        exact ⟨nofun, rfl⟩
      obtain ⟨first, e, more, us, rfl, hclose, hl, hi⟩ := entry_parts h.1 hus (by simp) hends
      rw [ArrayItem.rereadAll, List.append_assoc]
      exact entries_cons hclose hl hi rfl hrest
    · simp

end

/-! ## Cutting them out -/

/-- Tokens that a cut at some depth goes through. -/
def Passes (stop : Char → Bool) (depth : Nat) (ts : List Token) : Prop :=
  ∀ rest, expressionSpan? stop depth (ts ++ rest) =
    (expressionSpan? stop depth rest).map fun cut => (ts ++ cut.1, cut.2)

namespace Passes

variable {stop : Char → Bool} {depth : Nat} {ts us : List Token}

/-- A cut goes through no tokens. -/
theorem nil : Passes stop depth [] := fun rest => by
  cases h : expressionSpan? stop depth rest <;> simp [h]

/-- A cut goes through tokens one after the other. -/
theorem append (h₁ : Passes stop depth ts) (h₂ : Passes stop depth us) :
    Passes stop depth (ts ++ us) := fun rest => by
  rw [List.append_assoc, h₁, h₂, Option.map_map]
  simp [Function.comp_def]

/-- A cut goes through a token that is no bracket and does not stop it. -/
theorem single {t : Token} (hend : t.isEnd = false) (hstop : depth = 0 → t.isPunctWhere stop = false)
    (hopen : t.isOpener = false) (hclose : t.closer? = none) : Passes stop depth [t] := fun rest => by
  rw [List.singleton_append, expressionSpan?, if_neg (by simp [hend]), if_neg, if_neg (by simp [hopen]),
    if_neg (by simp [hclose])]
  · rfl
  · rintro ⟨h₁, h₂⟩
    simp [hstop h₁] at h₂

/-- A cut goes through a pair of brackets if it goes through what stands in it. -/
theorem brackets {gap gap' text text' : List Char} {start start' : Nat} (hstop : stop '[' = false)
    (h : Passes stop (depth + 1) ts) :
    Passes stop depth (⟨.punct '[', gap, text, start⟩ :: (ts ++ [⟨.punct ']', gap', text', start'⟩])) := by
  intro rest
  have hopen : expressionSpan? stop depth (⟨.punct '[', gap, text, start⟩ ::
      (ts ++ [⟨.punct ']', gap', text', start'⟩] ++ rest)) =
      (expressionSpan? stop (depth + 1) (ts ++ [⟨.punct ']', gap', text', start'⟩] ++ rest)).map
        (consFirst ⟨.punct '[', gap, text, start⟩) := by
    rw [expressionSpan?, if_neg (by simp [Token.isEnd]), if_neg (by simp [Token.isPunctWhere, hstop]),
      if_pos (by simp [Token.isOpener, Token.isPunct])]
  have hclose : expressionSpan? stop (depth + 1) (⟨.punct ']', gap', text', start'⟩ :: rest) =
      (expressionSpan? stop depth rest).map (consFirst ⟨.punct ']', gap', text', start'⟩) := by
    rw [expressionSpan?, if_neg (by simp [Token.isEnd]), if_neg (by simp), if_neg (by
      simp [Token.isOpener, Token.isPunct]), if_pos (by simp [Token.closer?]), if_neg (by simp)]
    rfl
  rw [List.cons_append, hopen, List.append_assoc, h, List.singleton_append, hclose]
  cases expressionSpan? stop depth rest <;> simp [consFirst]

end Passes

/-- A word that is no sign is no bracket, stops nothing and ends nothing. -/
theorem passes_word {stop : Char → Bool} {depth : Nat} {kind : TokenKind} {gap text : List Char}
    {start : Nat} (h₁ : kind ≠ .eof) (h₂ : kind ≠ .closeTag) (h₃ : kind ≠ .attributeOpen)
    (h₄ : ∀ c, kind ≠ .punct c) : Passes stop depth [⟨kind, gap, text, start⟩] := by
  refine .single ?_ (fun _ => ?_) ?_ ?_
  · simp [Token.isEnd, h₁, h₂]
  · cases kind <;> first | rfl | exact absurd rfl (h₄ _)
  · simp [Token.isOpener, Token.isPunct, h₃, h₄]
  · cases kind <;> first | rfl | exact absurd rfl (h₄ _)

/-- A cut goes through the tokens of an integer. -/
theorem passes_intParts {stop : Char → Bool} {depth : Nat} (hstop : stop '-' = false) {n : Int}
    {ts : List Token} (hts : Spells ts (intParts n)) : Passes stop depth ts := by
  have hnumber (n : Nat) {gap text : List Char} {start : Nat} :
      Passes stop depth [⟨numberKind n, gap, text, start⟩] := by
    unfold numberKind
    split <;> exact passes_word nofun nofun nofun nofun
  cases n with
  | ofNat n =>
    obtain ⟨gap, start, ts, rfl, -, hts⟩ := hts.exists_word
    obtain rfl := hts.eq_nil
    exact hnumber n
  | negSucc n =>
    obtain ⟨gap, start, ts, rfl, -, hts⟩ := hts.exists_word
    obtain ⟨gap', start', ts, rfl, -, hts⟩ := hts.exists_word
    obtain rfl := hts.eq_nil
    have hminus : Passes stop depth [⟨.punct '-', gap, (String.ofList ['-']).toList, start⟩] :=
      .single rfl (fun _ => hstop) rfl rfl
    exact hminus.append (hnumber (n + 1))

mutual

/-- A cut goes through the tokens of an expression. -/
theorem passes_parts : ∀ {e : Expr} {stop : Char → Bool} {depth : Nat} {ts : List Token},
    e.isPlain = true → stop '[' = false → stop '-' = false → Spells ts e.parts →
    Passes stop depth ts
  | .null, stop, depth, ts, _, _, _, hts => by
    rw [Expr.parts] at hts
    obtain ⟨gap, start, ts, rfl, -, hts⟩ := hts.exists_word
    obtain rfl := hts.eq_nil
    exact passes_word nofun nofun nofun nofun
  | .bool b, stop, depth, ts, _, _, _, hts => by
    rw [Expr.parts] at hts
    obtain ⟨gap, start, ts, rfl, -, hts⟩ := hts.exists_word
    obtain rfl := hts.eq_nil
    exact passes_word nofun nofun nofun nofun
  | .int n, stop, depth, ts, _, _, hminus, hts => by
    rw [Expr.parts] at hts
    exact passes_intParts hminus hts
  | .string s, stop, depth, ts, _, _, _, hts => by
    rw [Expr.parts] at hts
    obtain ⟨gap, start, ts, rfl, -, hts⟩ := hts.exists_word
    obtain rfl := hts.eq_nil
    exact passes_word nofun nofun nofun nofun
  | .array items, stop, depth, ts, h, hbracket, hminus, hts => by
    rw [Expr.isPlain] at h
    rw [Expr.parts] at hts
    obtain ⟨gap, start, ts, rfl, -, hts⟩ := hts.exists_word
    obtain ⟨us, vs, rfl, hus, hvs⟩ := hts.exists_of_append
    obtain ⟨gap', start', vs, rfl, -, hvs⟩ := hvs.exists_word
    obtain rfl := hvs.eq_nil
    exact .brackets hbracket (passes_listParts h hbracket hminus hus)
  | .const name, stop, depth, ts, _, _, _, hts => by
    rw [Expr.parts] at hts
    obtain ⟨gap, start, ts, rfl, -, hts⟩ := hts.exists_word
    obtain rfl := hts.eq_nil
    exact passes_word nofun nofun nofun nofun
  | .classConst c name, stop, depth, ts, _, _, _, hts => by
    rw [Expr.parts] at hts
    obtain ⟨gap, start, ts, rfl, -, hts⟩ := hts.exists_word
    obtain ⟨gap', start', ts, rfl, -, hts⟩ := hts.exists_word
    obtain ⟨gap'', start'', ts, rfl, -, hts⟩ := hts.exists_word
    obtain rfl := hts.eq_nil
    have hclass : Passes stop depth [⟨.name, gap, c.toList, start⟩] :=
      passes_word nofun nofun nofun nofun
    have hcolons : Passes stop depth [⟨.doubleColon, gap', "::".toList, start'⟩] :=
      passes_word nofun nofun nofun nofun
    have hname : Passes stop depth [⟨.name, gap'', name.toList, start''⟩] :=
      passes_word nofun nofun nofun nofun
    exact hclass.append (hcolons.append hname)

/-- A cut goes through the tokens of an array entry. -/
theorem passes_itemParts : ∀ {item : ArrayItem} {stop : Char → Bool} {depth : Nat}
    {ts : List Token}, item.isPlain = true → stop '[' = false → stop '-' = false →
    Spells ts item.parts → Passes stop depth ts
  | .value v, stop, depth, ts, h, hbracket, hminus, hts => by
    rw [ArrayItem.isPlain] at h
    rw [ArrayItem.parts] at hts
    exact passes_parts h hbracket hminus hts
  | .keyed key v, stop, depth, ts, h, hbracket, hminus, hts => by
    rw [ArrayItem.isPlain, Bool.and_eq_true] at h
    rw [ArrayItem.parts] at hts
    obtain ⟨ks, vs, rfl, hks, hvs⟩ := hts.exists_of_append
    obtain ⟨gap, start, vs, rfl, -, hvs⟩ := hvs.exists_word
    have harrow : Passes stop depth [⟨.doubleArrow, gap, "=>".toList, start⟩] :=
      passes_word nofun nofun nofun nofun
    exact (passes_parts h.1 hbracket hminus hks).append
      (harrow.append (passes_parts h.2 hbracket hminus hvs))

/-- A cut goes through the tokens of array entries inside of their brackets. -/
theorem passes_listParts : ∀ {items : List ArrayItem} {stop : Char → Bool} {depth : Nat}
    {ts : List Token}, ArrayItem.allPlain items = true → stop '[' = false → stop '-' = false →
    Spells ts (ArrayItem.listParts items) → Passes stop (depth + 1) ts
  | [], stop, depth, ts, _, _, _, hts => by
    rw [ArrayItem.listParts] at hts
    obtain rfl := hts.eq_nil
    exact .nil
  | [item], stop, depth, ts, h, hbracket, hminus, hts => by
    rw [ArrayItem.allPlain, Bool.and_eq_true] at h
    rw [ArrayItem.listParts] at hts
    exact passes_itemParts h.1 hbracket hminus hts
  | item :: next :: items, stop, depth, ts, h, hbracket, hminus, hts => by
    rw [ArrayItem.allPlain, Bool.and_eq_true] at h
    rw [ArrayItem.listParts] at hts
    · obtain ⟨us, vs, rfl, hus, hvs⟩ := hts.exists_of_append
      obtain ⟨gap, start, vs, rfl, -, hvs⟩ := hvs.exists_word
      have hcomma : Passes stop (depth + 1) [⟨.punct ',', gap, (String.ofList [',']).toList, start⟩] :=
        .single rfl (by simp) rfl rfl
      exact (passes_itemParts h.1 hbracket hminus hus).append
        (hcomma.append (passes_listParts h.2 hbracket hminus hvs))
    · simp

end

/-- Tokens ahead of which a value ends: the first one is a character that stops it, or it closes a
bracket that the value does not open. -/
def EndsValue (stop : Char → Bool) (ts : List Token) : Prop :=
  ∃ t rest, ts = t :: rest ∧ t.isEnd = false ∧
    (t.isPunctWhere stop = true ∨ (t.isOpener = false ∧ t.closer?.isSome = true))

/-- A cut ends where a value does. -/
theorem expressionSpan?_ends {stop : Char → Bool} {rest : List Token} (h : EndsValue stop rest) :
    expressionSpan? stop 0 rest = some ([], rest) := by
  obtain ⟨t, rest, rfl, hend, h⟩ := h
  rw [expressionSpan?, if_neg (by simp [hend])]
  split
  · rfl
  · next hstop =>
    rcases h with h | ⟨hopen, hclose⟩
    · exact absurd ⟨rfl, h⟩ hstop
    · rw [if_neg (by simp [hopen]), if_pos hclose, if_pos rfl]

/-- The tokens of an expression are read as a value. -/
theorem expression_parts {stop : Char → Bool} {e : Expr} {ts rest : List Token}
    (he : e.isPlain = true) (hbracket : stop '[' = false) (hminus : stop '-' = false)
    (hts : Spells ts e.parts) (hrest : EndsValue stop rest) :
    expression stop (ts ++ rest) = some (e.reread, rest) := by
  obtain ⟨t, us, rfl, -, hdoc⟩ := exists_first he hts
  have hskip : skipDocs (t :: us ++ rest) = t :: us ++ rest := by
    rw [skipDocs, List.cons_append, List.dropWhile_cons_of_neg (by simp [isDoc, hdoc])]
  have hspan : expressionSpan? stop 0 (t :: us ++ rest) = some (t :: us, rest) := by
    rw [passes_parts he hbracket hminus hts, expressionSpan?_ends hrest, Option.map_some,
      List.append_nil]
  have hliteral : literal? (t :: us) = some e.reread :=
    literal?_of_gives (literal_parts he hts (by simp [EndsName]))
  rw [expression, hskip, hspan]
  simp only [hliteral, Option.getD_some]

end Reader

end PhpGraft

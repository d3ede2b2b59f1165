import PhpGraft.Model.TypeSpec
import PhpGraft.Proofs.Syntax.Words

/-!
# Types read back

A type that was parsed is written in three ways: as text, as a declared type and in a doc comment. From each
of them the same type is read back (`parse_text`, `ofHint_hint`, `ofDocType?_docType`).
-/

namespace PhpGraft.TypeSpec

open Lexer Text

/-! ## Types that were parsed -/

/-- A type that was read from some text. -/
def IsParsed (t : TypeSpec) : Prop := ∃ raw, parse raw = .ok t

/-- A text without the given character at its front. -/
def unmarked (mark : Char) (cs : List Char) : List Char := if cs.head? == some mark then cs.drop 1 else cs

/-- The type of a name with the marks ahead of it. -/
def ofName (raw : String) (nullable rooted : Bool) (name : List Char) : Except Error TypeSpec :=
  let lower := lowerAscii (String.ofList name)
  let builtin := builtins.contains lower
  if !Name.isQualified name then .error (.invalidType raw .notAName)
  else if builtin && rooted then .error (.invalidType raw .rootedBuiltin)
  else if builtin && nullable && neverNullable.contains lower then
    .error (.invalidType raw (.notNullable lower))
  else .ok ⟨nullable, if builtin then lower else String.ofList name, builtin, rooted⟩

/-- A type is read by taking the marks off its front. -/
theorem parse_eq (raw : String) : parse raw =
    ofName raw ((trim raw.toList).head? == some '?') ((unmarked '?' (trim raw.toList)).head? == some '\\')
      (unmarked '\\' (unmarked '?' (trim raw.toList))) := rfl

/-- A type whose parts fit together as those of a type that was read. -/
structure IsSpelled (t : TypeSpec) : Prop where
  /-- The name is qualified. -/
  qualified : Name.isQualified t.base.toList = true
  /-- The name is told to be a built-in type if it is one in some case. -/
  builtin : t.builtin = builtins.contains (lowerAscii t.base)
  /-- A built-in type is in lower case. -/
  lower : t.builtin = true → lowerAscii t.base = t.base
  /-- A built-in type has no backslash at the front. -/
  bare : t.builtin = true → t.rooted = false
  /-- A built-in type that is nullable can be. -/
  nullable : t.builtin = true → t.nullable = true → neverNullable.contains t.base = false

/-- The built-in types are qualified names in lower case. -/
theorem of_mem_builtins : ∀ base ∈ builtins,
    Name.isQualified base.toList = true ∧ lowerAscii base = base := by decide +kernel

/-- The parts of a type that was read fit together. -/
theorem IsParsed.isSpelled {t : TypeSpec} (h : t.IsParsed) : t.IsSpelled := by
  obtain ⟨raw, h⟩ := h
  rw [parse_eq] at h
  generalize unmarked '\\' (unmarked '?' (trim raw.toList)) = name at h
  generalize ((unmarked '?' (trim raw.toList)).head? == some '\\') = rooted at h
  unfold ofName at h
  dsimp only at h
  split at h
  · cases h
  next hqualified =>
  split at h
  · cases h
  next hrooted =>
  split at h
  · cases h
  next hnullable =>
  obtain rfl := Except.ok.inj h
  cases hbuiltin : builtins.contains (lowerAscii (String.ofList name)) with
  | true =>
    obtain ⟨hbase, hlower⟩ := of_mem_builtins _ (List.contains_iff_mem.1 hbuiltin)
    rw [hbuiltin] at hrooted hnullable
    refine ⟨hbase, ?_, fun _ => hlower, fun _ => by simpa using hrooted, fun _ hn => ?_⟩
    · show true = builtins.contains (lowerAscii (lowerAscii (String.ofList name)))
      rw [hlower, hbuiltin]
    · have hn : ((trim raw.toList).head? == some '?') = true := hn
      simpa [hn] using hnullable
  | false =>
    have hname : Name.isQualified (String.ofList name).toList = true := by
      rw [String.toList_ofList]
      simpa using hqualified
    exact ⟨hname, hbuiltin.symm, nofun, nofun, nofun⟩

/-! ## Written types -/

variable {t : TypeSpec}

/-- The name behind its backslash, if it has one. -/
theorem toList_qualified (t : TypeSpec) :
    t.qualified.toList = (if t.rooted then ['\\'] else []) ++ t.base.toList := by
  unfold qualified
  split
  · rw [String.toList_append]
    rfl
  · rfl

/-- The type as it is written is its name, with a question mark ahead of it or without. -/
theorem toList_text (t : TypeSpec) :
    t.text.toList = (if t.nullable then ['?'] else []) ++ t.qualified.toList := by
  rw [text, TypeHint.text, hint, String.toList_append]
  dsimp only
  split <;> rfl

/-- The type as it is documented is its name, with null behind it or without. -/
theorem toList_docType (t : TypeSpec) :
    t.docType.toList = t.qualified.toList ++ if t.nullable then "|null".toList else [] := by
  rw [docType, alternatives]
  split
  · rw [String.intercalate_cons_cons, String.intercalate_singleton, String.toList_append,
      String.toList_append, List.append_assoc]
    rfl
  · rw [String.intercalate_singleton, List.append_nil]

/-- A mark is found at the front of a text, and taken off it, if it was put there. -/
theorem unmarked_eq {mark : Char} {cs : List Char} (h : cs.head? ≠ some mark) (p : Bool) :
    (((if p then [mark] else []) ++ cs).head? == some mark) = p ∧
      unmarked mark ((if p then [mark] else []) ++ cs) = cs := by
  cases p with
  | true => simp [unmarked]
  | false => simp [unmarked, h]

namespace IsSpelled

variable (h : t.IsSpelled)
include h

/-- The name starts with an identifier. -/
theorem head?_base {c : Char} (hc : isAsciiIdentStart c = false) : t.base.toList.head? ≠ some c := by
  obtain ⟨d, cs, hbase, hd, -⟩ := exists_of_isQualified h.qualified
  rw [hbase]
  rintro ⟨⟩
  rw [hd] at hc
  cases hc

/-- The name is made of characters of identifiers, and backslashes. -/
theorem forall_qualified : ∀ c ∈ t.qualified.toList, isAsciiIdentChar c = true ∨ c = '\\' := by
  rw [toList_qualified]
  refine List.forall_mem_append.2 ⟨?_, forall_of_isQualified h.qualified⟩
  split
  · exact List.forall_mem_singleton.2 (.inr rfl)
  · exact List.forall_mem_nil _

/-- There are no blanks in the name. -/
theorem blank_qualified : ∀ c ∈ t.qualified.toList, isBlank c = false := by
  rw [toList_qualified]
  refine List.forall_mem_append.2 ⟨?_, blank_of_isQualified h.qualified⟩
  split <;> exact noBlank_of_any rfl

/-- There are no blanks in the type as it is documented. -/
theorem blank_docType : ∀ c ∈ t.docType.toList, isBlank c = false := by
  rw [toList_docType]
  refine List.forall_mem_append.2 ⟨h.blank_qualified, ?_⟩
  split <;> exact noBlank_of_any rfl

/-- The name is not empty. -/
theorem qualified_ne_nil : t.qualified.toList ≠ [] := by
  obtain ⟨c, cs, hbase, -⟩ := exists_of_isQualified h.qualified
  rw [toList_qualified, hbase]
  exact List.append_ne_nil_of_right_ne_nil _ (List.cons_ne_nil _ _)

/-- The type as it is documented is not empty. -/
theorem docType_ne_nil : t.docType.toList ≠ [] := by
  rw [toList_docType]
  exact List.append_ne_nil_of_left_ne_nil h.qualified_ne_nil _

/-- The type is that of its name and its marks. -/
theorem ofName_base (raw : String) : ofName raw t.nullable t.rooted t.base.toList = .ok t := by
  obtain ⟨nullable, base, builtin, rooted⟩ := t
  obtain ⟨hqualified, hbuiltin, hlower, hbare, hnullable⟩ := h
  dsimp only at *
  unfold ofName
  dsimp only
  rw [String.ofList_toList, hqualified, ← hbuiltin]
  cases builtin with
  | false => rfl
  | true =>
    rw [hlower rfl, hbare rfl]
    cases nullable with
    | false => rfl
    | true =>
      rw [hnullable rfl rfl]
      rfl

/-- The type is read back from its text. -/
theorem parse_text : parse t.text = .ok t := by
  have hmark : t.qualified.toList.head? ≠ some '?' := by
    rw [toList_qualified]
    cases t.rooted with
    | true => simp
    | false => exact h.head?_base rfl
  have hblank : ∀ c ∈ t.text.toList, isBlank c = false := by
    rw [toList_text]
    refine List.forall_mem_append.2 ⟨?_, h.blank_qualified⟩
    split <;> exact noBlank_of_any rfl
  have htrim : trim t.text.toList = t.text.toList :=
    trim_eq_self (fun c hc => hblank c (List.mem_of_mem_head? hc))
      fun c hc => hblank c (List.mem_of_getLast? hc)
  obtain ⟨hnullable, hqualified⟩ := unmarked_eq hmark t.nullable
  obtain ⟨hrooted, hbase⟩ := unmarked_eq (h.head?_base (c := '\\') rfl) t.rooted
  rw [parse_eq, htrim, toList_text, hnullable, hqualified, toList_qualified, hrooted, hbase]
  exact h.ofName_base _

/-- The type is read back as it is declared. -/
theorem ofHint_hint : ofHint t.hint = t := by
  have hparse : parse t.hint.text = .ok t := h.parse_text
  rw [ofHint, hparse]

/-- The text of the type is found in the type as it is documented. -/
theorem text_of_docType : (if "|null".toList.isSuffixOf t.docType.toList then
    String.ofList ('?' :: t.docType.toList.take (t.docType.toList.length - "|null".toList.length))
    else t.docType) = t.text := by
  have hdoc := toList_docType t
  have htext := toList_text t
  cases hn : t.nullable with
  | true =>
    rw [hn, if_pos rfl] at hdoc htext
    have hsuffix : "|null".toList.isSuffixOf t.docType.toList = true := by
      rw [hdoc, List.isSuffixOf_iff_suffix]
      exact List.suffix_append _ _
    rw [hsuffix, if_pos rfl, hdoc, List.length_append, Nat.add_sub_cancel, List.take_left,
      ← String.toList_inj, String.toList_ofList, htext]
    rfl
  | false =>
    rw [hn, if_neg Bool.false_ne_true] at hdoc htext
    rw [List.append_nil] at hdoc
    rw [List.nil_append] at htext
    -- there is no bar in a name
    have hsuffix : "|null".toList.isSuffixOf t.docType.toList = false := by
      rw [Bool.eq_false_iff, ne_eq, List.isSuffixOf_iff_suffix, hdoc]
      intro hs
      have hbar : '|' ∈ t.qualified.toList := hs.subset (by decide)
      rcases h.forall_qualified _ hbar with hc | hc <;> exact absurd hc (by decide)
    rw [hsuffix, if_neg Bool.false_ne_true, ← String.toList_inj, hdoc, htext]

/-- The type is read back as it is documented. -/
theorem ofDocType?_docType : ofDocType? t.docType = some t := by
  unfold ofDocType?
  simp only [h.text_of_docType, h.parse_text, if_true]

end IsSpelled

end PhpGraft.TypeSpec

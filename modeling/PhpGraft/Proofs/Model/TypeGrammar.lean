import PhpGraft.Proofs.Model.Name
import PhpGraft.Proofs.Model.TypeSpec

/-!
# How types are spelled

A text is read as a type exactly when it is, without white space at its ends, an optional question mark, an
optional backslash and identifiers joined by backslashes, where a built-in type has no backslash at the front,
and one that contains null or cannot contain it has no question mark (`parse_eq_ok_iff`). A type that was read
is read back from each form in which it is written, and a doc comment that is read shows its type in the very
form in which the type is documented (`parse_iff_and_readBack`).
-/

namespace PhpGraft.TypeSpec

open Lexer Text

/-- A text with the mark that is at its front, if it is there, and what follows it. -/
theorem append_unmarked (mark : Char) (cs : List Char) :
    (if cs.head? == some mark then [mark] else []) ++ unmarked mark cs = cs := by
  cases cs with
  | nil => rfl
  | cons c cs =>
    by_cases h : c = mark
    · simp [unmarked, h]
    · simp [unmarked, h]

/-- The marks and the identifiers of a type as it is spelled. -/
structure Spelling where
  /-- Whether a question mark stands at the front. -/
  nullable : Bool
  /-- Whether a backslash stands ahead of the name. -/
  rooted : Bool
  /-- The identifiers of the name, in order. -/
  parts : List (List Char)

namespace Spelling

/-- The name: the identifiers joined by backslashes. -/
def name (s : Spelling) : List Char := ['\\'].intercalate s.parts

/-- The name in lower case, which tells built-in types. -/
def lower (s : Spelling) : String := lowerAscii (String.ofList s.name)

/-- The text: the name behind its marks. -/
def chars (s : Spelling) : List Char :=
  (if s.nullable then ['?'] else []) ++ ((if s.rooted then ['\\'] else []) ++ s.name)

/-- A spelling that is one of a type. -/
structure IsType (s : Spelling) : Prop where
  /-- There is an identifier. -/
  parts_ne_nil : s.parts ≠ []
  /-- All parts of the name are identifiers. -/
  isAsciiIdent : ∀ p ∈ s.parts, isAsciiIdent p = true
  /-- A built-in type, in whatever case, has no backslash at the front. -/
  bare : s.lower ∈ builtins → s.rooted = false
  /-- A type that contains null or cannot contain it, in whatever case, has no question mark. -/
  notNullable : s.lower ∈ neverNullable → s.nullable = false

/-- The type of a spelling: a built-in type is in lower case, and the name of a class as it is spelled. -/
def type (s : Spelling) : TypeSpec :=
  { nullable := s.nullable
    base := if s.lower ∈ builtins then s.lower else String.ofList s.name
    builtin := builtins.contains s.lower
    rooted := s.rooted }

variable {s : Spelling}

/-- The types that cannot be nullable are built-in types. -/
theorem mem_builtins_of_mem : ∀ base ∈ neverNullable, base ∈ builtins := by decide +kernel

/-- The name of a spelling with its marks is read as the type of the spelling. -/
theorem IsType.ofName_name (h : s.IsType) (raw : String) :
    ofName raw s.nullable s.rooted s.name = .ok s.type := by
  have hqualified : Name.isQualified s.name = true :=
    Name.isQualified_iff.2 ⟨s.parts, h.parts_ne_nil, h.isAsciiIdent, rfl⟩
  have hbare : (builtins.contains s.lower && s.rooted) = false := by
    rw [Bool.and_eq_false_imp]
    exact fun hb => h.bare (List.contains_iff_mem.1 hb)
  have hnullable : (builtins.contains s.lower && s.nullable && neverNullable.contains s.lower) = false := by
    rw [Bool.and_assoc, Bool.and_eq_false_imp]
    intro _
    rw [Bool.and_comm, Bool.and_eq_false_imp]
    exact fun hn => h.notNullable (List.contains_iff_mem.1 hn)
  unfold ofName type
  dsimp only
  rw [← lower, hqualified, hbare, hnullable]
  simp

/-- A name is read with its marks only if they are those of a spelling. -/
theorem exists_of_ofName {raw : String} {nullable rooted : Bool} {name : List Char} {t : TypeSpec}
    (h : ofName raw nullable rooted name = .ok t) : ∃ s : Spelling, s.IsType ∧
      s.nullable = nullable ∧ s.rooted = rooted ∧ s.name = name := by
  unfold ofName at h
  dsimp only at h
  split at h
  · cases h
  next hqualified =>
  split at h
  · cases h
  next hrooted =>
  split at h
  · cases h
  next hnullable =>
  rw [Bool.not_eq_true', Bool.not_eq_false] at hqualified
  obtain ⟨parts, hne, hparts, rfl⟩ := Name.isQualified_iff.1 hqualified
  refine ⟨⟨nullable, rooted, parts⟩, ⟨hne, hparts, fun hb => ?_, fun hn => ?_⟩, rfl, rfl, rfl⟩
  · have hb := List.contains_iff_mem.2 hb
    exact Bool.eq_false_iff.2 fun hr => hrooted (Bool.and_eq_true_iff.2 ⟨hb, hr⟩)
  · have hb := List.contains_iff_mem.2 (mem_builtins_of_mem _ hn)
    have hn := List.contains_iff_mem.2 hn
    exact Bool.eq_false_iff.2 fun hr =>
      hnullable (Bool.and_eq_true_iff.2 ⟨Bool.and_eq_true_iff.2 ⟨hb, hr⟩, hn⟩)

/-- The name of a spelling starts with an identifier. -/
theorem IsType.head?_name (h : s.IsType) {c : Char} (hc : isAsciiIdentStart c = false) :
    s.name.head? ≠ some c := by
  obtain ⟨d, rest, hname, hd, -⟩ :=
    exists_of_isQualified (Name.isQualified_iff.2 ⟨s.parts, h.parts_ne_nil, h.isAsciiIdent, rfl⟩)
  rw [name, hname]
  rintro ⟨⟩
  rw [hd] at hc
  cases hc

end Spelling

/-- A text is read as a type exactly when it is, trimmed, a spelling of the type. -/
theorem parse_eq_ok_iff {raw : String} {t : TypeSpec} :
    parse raw = .ok t ↔ ∃ s : Spelling, s.IsType ∧ trim raw.toList = s.chars ∧ t = s.type := by
  rw [parse_eq]
  constructor
  · intro h
    obtain ⟨s, hs, hnullable, hrooted, hname⟩ := Spelling.exists_of_ofName h
    refine ⟨s, hs, ?_, ?_⟩
    · rw [Spelling.chars, hnullable, hrooted, hname, append_unmarked, append_unmarked]
    · rw [← hnullable, ← hrooted, ← hname, hs.ofName_name raw] at h
      exact (Except.ok.inj h).symm
  · rintro ⟨s, hs, htrim, rfl⟩
    have hmark : ((if s.rooted then ['\\'] else []) ++ s.name).head? ≠ some '?' := by
      cases s.rooted with
      | true => simp
      | false => exact hs.head?_name rfl
    obtain ⟨hnullable, hqualified⟩ := unmarked_eq hmark s.nullable
    obtain ⟨hrooted, hname⟩ := unmarked_eq (hs.head?_name (c := '\\') rfl) s.rooted
    rw [htrim, Spelling.chars, hnullable, hqualified, hrooted, hname]
    exact hs.ofName_name raw

/-- What is read as the type of a doc comment is the type as it is documented. -/
theorem docType_of_ofDocType? {doc : String} {t : TypeSpec} (h : ofDocType? doc = some t) :
    t.docType = doc := by
  unfold ofDocType? at h
  dsimp only at h
  split at h
  · split at h
    · next hdoc =>
      obtain rfl := Option.some.inj h
      exact hdoc
    · cases h
  · cases h

/-- A text is read as a type exactly when it is, trimmed, a spelling of the type. A type that was read is read
back as it is written, as it is declared and as it is documented, and what is read from a doc comment is
documented by that very text. -/
theorem parse_iff_and_readBack :
    (∀ raw t, parse raw = .ok t ↔
      ∃ s : Spelling, s.IsType ∧ trim raw.toList = s.chars ∧ t = s.type) ∧
    (∀ raw t, parse raw = .ok t →
      parse t.text = .ok t ∧ ofHint t.hint = t ∧ ofDocType? t.docType = some t) ∧
    ∀ doc t, ofDocType? doc = some t → t.docType = doc := by
  refine ⟨fun _ _ => parse_eq_ok_iff, fun raw t h => ?_, fun _ _ => docType_of_ofDocType?⟩
  have hspelled := IsParsed.isSpelled ⟨raw, h⟩
  exact ⟨hspelled.parse_text, hspelled.ofHint_hint, hspelled.ofDocType?_docType⟩

/-- A class in a namespace that may be null. -/
def nullableClass : TypeSpec := ⟨true, "Foo\\Bar_2", false, true⟩

/-- The class is read with white space around it, and read back from each of its forms. -/
theorem parse_iff_and_readBack_class : parse " ?\\Foo\\Bar_2\t" = .ok nullableClass ∧
    (parse nullableClass.text = .ok nullableClass ∧ ofHint nullableClass.hint = nullableClass ∧
      ofDocType? nullableClass.docType = some nullableClass) ∧
    nullableClass.docType = "\\Foo\\Bar_2|null" := by
  obtain ⟨hspelled, hback, hdoc⟩ := parse_iff_and_readBack
  have hparse : parse " ?\\Foo\\Bar_2\t" = .ok nullableClass :=
    (hspelled _ _).2 ⟨⟨true, true, ["Foo".toList, "Bar_2".toList]⟩,
      ⟨by decide, by decide, by decide +kernel, by decide +kernel⟩, by decide +kernel, by decide +kernel⟩
  have hread : ofDocType? "\\Foo\\Bar_2|null" = some nullableClass := by decide +kernel
  exact ⟨hparse, hback _ _ hparse, hdoc _ _ hread⟩

/-- A built-in type that cannot be null is no nullable type, in whatever case. -/
example : (parse "?Void").isOk = false := by decide +kernel

end PhpGraft.TypeSpec

import PhpGraft.Proofs.Decimal.Rounding
import PhpGraft.Proofs.Syntax.Continuing
import PhpGraft.Proofs.Syntax.Literal

/-!
# Expressions written and read

The text of an expression is cut into tokens, and these are read as a literal (`Expr.ofText?`). What a
piece of text shows decides what it is read as (`Expr.ofText?_of_lexes`), so that an expression without
doubles and raw source is read back from its text (`Expr.ofText?_text`).
-/

namespace PhpGraft

open Decimal Lexer Text

/-- The literal that a text is, all of it. -/
def Expr.ofText? (source : String) : Option Expr :=
  match fragment source with
  | .ok ts => Reader.literal? (ts.takeWhile (·.kind != .eof))
  | .error _ => none

/-- The tokens ahead of the end of the source are read. -/
theorem Expr.ofText?_of_fragment {source : String} {us : List Token} {last : Token}
    (h : fragment source = .ok (us ++ [last])) : Expr.ofText? source = Reader.literal? us := by
  obtain ⟨us', last', hts, hlast, -, hus⟩ := tokens_last h
  obtain ⟨rfl, hend⟩ := List.append_inj' hts rfl
  obtain rfl := List.singleton_inj.1 hend
  have htake : (us ++ [last]).takeWhile (·.kind != .eof) = us := by
    rw [List.takeWhile_append_of_pos fun t ht => bne_iff_ne.2 (hus t ht),
      List.takeWhile_cons_of_neg (by simp [hlast]), List.append_nil]
  rw [Expr.ofText?, h]
  exact congrArg Reader.literal? htake

/-- A text is read as what the parts that it shows are read as. -/
theorem Expr.ofText?_of_lexes {source : String} {ps : List Part} {read : Option Expr}
    (h : Lexes source.toList ps Breaks) (hread : ∀ us, Spells us ps → Reader.literal? us = read) :
    Expr.ofText? source = read := by
  obtain ⟨ts, hts, hspells⟩ := h [] _ (by simp [Breaks]) Scans.nil 0
  obtain ⟨us, vs, rfl, hus, hvs⟩ := hspells.exists_of_append
  obtain ⟨gap, start, vs, rfl, -, hvs⟩ := hvs.exists_word
  obtain rfl := hvs.eq_nil
  rw [List.append_nil] at hts
  rw [Expr.ofText?_of_fragment hts, hread us hus]

/-! ## Names -/

/-- A text is a name if it is cut into one name and the end of the source, and only then. -/
theorem isNameText_iff_fragment {s : String} : isNameText s.toList = true ↔
    ∃ last, fragment s = .ok [⟨.name, [], s.toList, 0⟩, last] := by
  constructor
  · intro h
    rcases hs : s.toList with _ | ⟨c, cs⟩
    · simp [hs, isNameText] at h
    · simp only [hs, isNameText, Bool.and_eq_true, Bool.not_eq_true', beq_iff_eq] at h
      obtain ⟨⟨hblank, hstart⟩, hlength⟩ := h
      obtain ⟨h₁, h₂, -⟩ := ne_of_startsName hstart
      -- a name goes to the end of the text, where nothing continues it
      obtain ⟨ts, hts, hspells⟩ := Scans.exists_tokens_cons hblank (plainComment?_eq_none h₂ h₁ (cs ++ []))
        (scan_name hstart hlength (by simp [Breaks])) Scans.nil 0
      obtain ⟨gap, start, vs, rfl, -, hvs⟩ := hspells.exists_word
      obtain rfl := hvs.eq_nil
      rw [List.append_nil] at hts
      exact ⟨_, by rw [fragment, hs, hts]⟩
  · rintro ⟨last, h⟩
    obtain ⟨g, hg, ⟨-, hts⟩ | ⟨c, rest, kind, n, more, hdrop, hscan, -, hts⟩⟩ := tokens_cases h
    · exact absurd (congrArg List.length hts) (by simp)
    · obtain ⟨hfirst, -⟩ := List.cons.inj hts
      obtain ⟨rfl, hgap, htext, -⟩ := Token.mk.inj hfirst
      obtain ⟨hstart, rfl⟩ := naming_scan c rest _ _ hscan
      -- there is no gap, and nothing stands behind the name
      have hsource : s.toList = c :: rest := calc
        s.toList = s.toList.take g ++ s.toList.drop g := (List.take_append_drop ..).symm
        _ = c :: rest := by rw [← hgap, hdrop, List.nil_append]
      have hall : rest.take (nameLength rest) = rest := (List.cons.inj (hsource.symm.trans htext)).2.symm
      have hlength : nameLength rest = rest.length :=
        Nat.le_antisymm (nameLength_le rest) (List.take_eq_self_iff _ |>.1 hall)
      rw [hsource, isNameText, isBlank_of_gapLength hg hdrop, hstart, hlength]
      simp

/-! ## Expressions -/

/-- The least integer is read back as the double that is equal to it. -/
theorem reread_minInt64 : ∃ x : Binary64, (Expr.int minInt64).reread = .float x ∧
    x.isFinite = true ∧ x.value = minInt64 := by
  have hfields : (Binary64.ofNat (maxInt64 + 1)).neg.isNegative = true ∧
      (Binary64.ofNat (maxInt64 + 1)).neg.significand = 2 ^ 52 ∧
      (Binary64.ofNat (maxInt64 + 1)).neg.exponent = 11 ∧
      (Binary64.ofNat (maxInt64 + 1)).neg.isFinite = true := by decide +kernel
  obtain ⟨hsign, hsignificand, hexponent, hfinite⟩ := hfields
  refine ⟨_, by rw [Expr.reread, if_pos rfl], hfinite, ?_⟩
  rw [Binary64.value, hsign, hsignificand, hexponent, show minInt64 = -2 ^ 63 by decide]
  norm_num

/-- The text of an expression without doubles and raw source is read as what the expression is read back
as. -/
theorem Expr.ofText?_plain {e : Expr} (h : e.isPlain = true) : Expr.ofText? e.text = some e.reread :=
  Expr.ofText?_of_lexes (Expr.lexes h) fun _ hus =>
    Reader.literal?_of_gives (Reader.literal_parts h hus (by simp [Reader.EndsName]))

/-- An expression that is made of null, truth values, integers, strings, arrays, constants and constants
of classes is read back from its text, the least integer in it as a double. It is itself again if the
least integer is nowhere in it. -/
theorem Expr.ofText?_text {e : Expr} (h : e.isPlain = true) :
    Expr.ofText? e.text = some e.reread ∧ (e.reread = e ↔ e.holdsLeast = false) ∧
      ∃ x : Binary64, (Expr.int minInt64).reread = .float x ∧ x.isFinite = true ∧ x.value = -2 ^ 63 := by
  obtain ⟨x, hx, hfinite, hvalue⟩ := reread_minInt64
  refine ⟨Expr.ofText?_plain h, Expr.reread_eq_self_iff, x, hx, hfinite, ?_⟩
  rw [hvalue, show minInt64 = -2 ^ 63 by decide]
  norm_num

/-- An array with a key, a string with quotes and backslashes, the least integer and its neighbour, and a
constant of a class is read back, the least integer as a double. -/
theorem Expr.ofText?_text_nested :
    (Expr.array [.keyed (.string "it's \\") (.array [.value (.int minInt64), .value (.int (-maxInt64))]),
      .value (.classConst "\\App\\K" "class"), .value .null]).isPlain = true ∧
    Expr.ofText? (Expr.array [.keyed (.string "it's \\")
      (.array [.value (.int minInt64), .value (.int (-maxInt64))]),
      .value (.classConst "\\App\\K" "class"), .value .null]).text =
      some (.array [.keyed (.string "it's \\")
        (.array [.value (Expr.int minInt64).reread, .value (.int (-maxInt64))]),
        .value (.classConst "\\App\\K" "class"), .value .null]) := by
  have h : (Expr.array [.keyed (.string "it's \\")
      (.array [.value (.int minInt64), .value (.int (-maxInt64))]),
      .value (.classConst "\\App\\K" "class"), .value .null]).isPlain = true := by decide +kernel
  refine ⟨h, (Expr.ofText?_text h).1.trans ?_⟩
  have hne : -(maxInt64 : ℤ) ≠ minInt64 := by decide
  simp [Expr.reread, ArrayItem.reread, ArrayItem.rereadAll, hne]

end PhpGraft

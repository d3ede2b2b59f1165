import PhpGraft.Proofs.Syntax.Dedenting

/-!
# Bodies between newlines

Newlines around a fragment add nothing to the body that it is read as, with one exception: a carriage
return at the very end of the fragment becomes a part of a line ending, so that a raw line loses it.
-/

namespace PhpGraft

open Lexer Text

/-! ## The last line -/

/-- A line without the carriage return at its end. -/
def chomp (l : List Char) : List Char := if l.getLast? = some '\r' then l.dropLast else l

/-- Without its newline a row is a line without a carriage return. -/
theorem lineOfRow_newline (l : List Char) : lineOfRow (l ++ ['\n']) = chomp l := by
  rw [lineOfRow, List.getLast?_concat, if_pos rfl, List.dropLast_concat, chomp]

/-- A line ends with a carriage return, which is taken off, or it stays the same. -/
theorem chomp_cases (l : List Char) :
    (∃ k, l = k ++ ['\r'] ∧ chomp l = k) ∨ (l.getLast? ≠ some '\r' ∧ chomp l = l) := by
  by_cases hlast : l.getLast? = some '\r'
  · obtain ⟨k, rfl⟩ := List.getLast?_eq_some_iff.1 hlast
    exact .inl ⟨k, rfl, by rw [chomp, if_pos hlast, List.dropLast_concat]⟩
  · exact .inr ⟨hlast, if_neg hlast⟩

/-- A newline at the end of a text starts an empty line, or it completes the last line. -/
theorem lines_concat_newline (f : List Char) :
    (f.getLast? ≠ some '\r' ∧ lines (f ++ ['\n']) = lines f ++ [[]]) ∨
    ∃ ls l, l.getLast? = f.getLast? ∧ lines f = ls ++ [l] ∧ lines (f ++ ['\n']) = ls ++ [chomp l] := by
  -- the last line is what stands behind the last newline
  have hsplit : ∃ p l, f = p ++ l ∧ '\n' ∉ l ∧ (p = [] ∨ ∃ q, p = q ++ ['\n']) := by
    by_cases hmem : '\n' ∈ f.reverse
    · obtain ⟨l, q, hl, hnone⟩ := List.eq_append_cons_of_mem hmem
      refine ⟨q.reverse ++ ['\n'], l.reverse, ?_, by simpa using hnone, .inr ⟨_, rfl⟩⟩
      rw [← List.reverse_reverse f, hl]
      simp
    · exact ⟨[], f, rfl, by simpa using hmem, .inl rfl⟩
  obtain ⟨p, l, rfl, hl, hp⟩ := hsplit
  have hlines (r : List Char) : lines (p ++ r) = lines p ++ lines r := by
    rcases hp with rfl | ⟨q, rfl⟩
    · rfl
    · rw [List.append_assoc, List.singleton_append, lines, rows_newline, List.map_append]
      rfl
  by_cases hnil : l = []
  · subst hnil
    rw [List.append_nil]
    refine .inl ⟨?_, hlines ['\n']⟩
    rcases hp with rfl | ⟨q, rfl⟩
    · intro hlast
      cases hlast
    · rw [List.getLast?_concat]
      decide
  · refine .inr ⟨lines p, l, ?_, ?_, ?_⟩
    · obtain ⟨init, last, rfl⟩ := (List.eq_nil_or_concat l).resolve_left hnil
      rw [List.concat_eq_append, ← List.append_assoc, List.getLast?_concat, List.getLast?_concat]
    · rw [hlines, lines_of_not_mem hl hnil]
    · have hrow : lines (l ++ ['\n']) = [chomp l] := by
        rw [lines, rows_append hl, List.map_cons, lineOfRow_newline]
        rfl
      rw [List.append_assoc, hlines, hrow]

namespace Body

/-- The lines of a body, with and without a carriage return at the end of the last one. -/
theorem cutLines_return (ls : List (List Char)) (k : List Char) :
    ∃ front width raw, (rawFlags (ls ++ [k ++ ['\r']])).getLast? = some raw ∧
      cutLines (ls ++ [k ++ ['\r']]) = front ++ [cutLine width (k ++ ['\r'], raw)] ∧
      cutLines (ls ++ [k]) = front ++ [cutLine width (k, raw)] := by
  have hlength := length_rawFlags (ls ++ [k ++ ['\r']])
  obtain ⟨flags, raw, hflags⟩ : ∃ flags raw, rawFlags (ls ++ [k ++ ['\r']]) = flags ++ [raw] := by
    rcases List.eq_nil_or_concat (rawFlags (ls ++ [k ++ ['\r']])) with hnil | ⟨flags, raw, h⟩
    · rw [hnil] at hlength
      exact absurd hlength (by simp)
    · exact ⟨flags, raw, by rw [h, List.concat_eq_append]⟩
  have hflags' : rawFlags (ls ++ [k]) = flags ++ [raw] := by
    have hpairs : ∀ p ∈ ls.map (fun l => (l, l)) ++ [(k ++ ['\r'], k)], Twin p.1 p.2 := by
      intro p hp
      rcases List.mem_append.1 hp with hp | hp
      · obtain ⟨l, -, rfl⟩ := List.mem_map.1 hp
        exact .refl l
      · rw [List.mem_singleton.1 hp]
        exact twin_end rfl k
    have htwins := @rawFlags_twins [] (List.forall_mem_nil _) _ hpairs
    simp only [List.map_append, List.map_map, Function.comp_def, List.map_id', List.map_cons,
      List.map_nil, List.append_nil] at htwins
    rw [htwins, hflags]
  have hsame : ls.length = flags.length := by
    rw [hflags, List.length_append, List.length_append] at hlength
    simpa using hlength.symm
  have hzip (l : List Char) : (ls ++ [l]).zip (flags ++ [raw]) = ls.zip flags ++ [(l, raw)] := by
    rw [List.zip_append hsame]
    rfl
  -- the line counts for the common indentation as it did
  have hwidth : commonIndentation (ls.zip flags ++ [(k, raw)]) =
      commonIndentation (ls.zip flags ++ [(k ++ ['\r'], raw)]) := by
    have hblank : (k ++ ['\r']).all isBlank = k.all isBlank := by
      rw [List.all_append]
      exact Bool.and_true _
    change (widths _).min?.getD 0 = (widths _).min?.getD 0
    rw [widths_append, widths_append, widths_cons, widths_cons, hblank]
    cases hall : k.all isBlank with
    | true => simp
    | false =>
      have hindent : indentation (k ++ ['\r']) = indentation k := by
        rw [indentation, indentation, List.takeWhile_append, if_neg]
        intro hwhole
        have hk := (List.takeWhile_sublist isBlank).eq_of_length hwhole
        rw [← hk, List.all_takeWhile] at hall
        cases hall
      rw [hindent]
  let width := commonIndentation (ls.zip flags ++ [(k ++ ['\r'], raw)])
  refine ⟨(ls.zip flags).map (cutLine width), width, raw, by rw [hflags, List.getLast?_concat], ?_, ?_⟩
  · rw [cutLines_of_flags hflags, hzip, List.map_append]
    rfl
  · rw [cutLines_of_flags hflags', hzip, hwidth, List.map_append]
    rfl

/-! ## Newlines around a fragment -/

/-- What is not dropped at the end of a list is still there when the front is dropped. -/
theorem getLast?_dropWhile_concat {α : Type} {p : α → Bool} {x : α} (hx : p x = false) (l : List α) :
    ((l ++ [x]).dropWhile p).getLast? = some x := by
  rw [List.dropWhile_append]
  split
  · rw [List.dropWhile_cons_of_neg (by simp [hx])]
    rfl
  · exact List.getLast?_concat

/-- Newlines around a fragment add nothing to its body, unless they end a raw line that has a carriage
return at its end. -/
theorem ofSource_newlines (f : List Char) : ofSource f = ofSource ('\n' :: (f ++ ['\n'])) ↔
    ¬ (f.getLast? = some '\r' ∧ (rawFlags (Text.lines f)).getLast? = some true) := by
  have hframed {ls tails : List (List Char)} (ht : ∀ t ∈ tails, IsMargin t)
      (h : Text.lines (f ++ ['\n']) = ls ++ tails) : ofSource ('\n' :: (f ++ ['\n'])) =
      ⟨(dropTailWhile BodyLine.isDroppable (cutLines ls)).dropWhile BodyLine.isDroppable⟩ := by
    have hlines : Text.lines ('\n' :: (f ++ ['\n'])) = [] :: Text.lines (f ++ ['\n']) :=
      lines_append (l := []) (by simp) (by simp) _
    rw [ofSource_eq, hlines, h, cutLines_blank_ends ht]
    exact congrArg Body.mk (dropWhile_dropTailWhile_append rfl (by simp [BodyLine.isDroppable]) _)
  rcases lines_concat_newline f with ⟨hlast, hnewline⟩ | ⟨ls, l, hlast, hf, hnewline⟩
  · rw [hframed (by simp [IsMargin]) hnewline, ofSource_eq]
    exact ⟨fun _ h => hlast h.1, fun _ => rfl⟩
  · rw [@hframed _ [] (List.forall_mem_nil _) (hnewline.trans (List.append_nil _).symm), ofSource_eq, hf, ← hlast,
      Body.mk.injEq]
    rcases chomp_cases l with ⟨k, rfl, hk⟩ | ⟨hnone, hk⟩
    · obtain ⟨front, width, raw, hraw, hcut, hcut'⟩ := cutLines_return ls k
      rw [hk, hcut, hcut', hraw, List.getLast?_concat]
      cases raw with
      | false =>
        have htrim : trimEnd (k ++ ['\r']) = trimEnd k := dropTailWhile_append rfl k
        rw [cutLine, cutLine, if_neg Bool.false_ne_true, if_neg Bool.false_ne_true, htrim]
        exact ⟨fun _ h => Bool.false_ne_true (Option.some.inj h.2), fun _ => rfl⟩
      | true =>
        -- a raw line is not dropped, and it differs
        refine ⟨fun hsame => ?_, fun h => absurd ⟨rfl, rfl⟩ h⟩
        have hkept (c : List Char) : dropTailWhile BodyLine.isDroppable (front ++ [cutLine width (c, true)]) =
            front ++ [cutLine width (c, true)] :=
          dropTailWhile_eq_self fun x hx => by
            rw [List.getLast?_concat] at hx
            rw [← Option.some.inj hx]
            rfl
        rw [hkept, hkept] at hsame
        have hends := congrArg List.getLast? hsame
        rw [getLast?_dropWhile_concat rfl, getLast?_dropWhile_concat rfl] at hends
        have htext := congrArg BodyLine.text (Option.some.inj hends)
        have hsplit : k ++ ['\r'] = k := String.ofList_injective htext
        exact absurd (congrArg List.length hsplit) (by simp)
    · rw [hk]
      exact ⟨fun _ h => hnone h.1, fun _ => rfl⟩

end Body

end PhpGraft

import PhpGraft.Proofs.Syntax.Printing

/-!
# Bodies that are written again

The body of a fragment is normal, and so it is read back from its own lines (`IsNormal.ofSource_text`)
and from the text that is printed of it between two braces (`text_block`). Hence a body that is read,
printed and read again does not drift, however deep it is printed (`ofSource_regenerated`).
-/

namespace PhpGraft

open Text

namespace Body

/-! ## Lines put together -/

/-- Lines have a flag each, so some lines have some flags. -/
theorem rawFlags_ne_nil {ls : List (List Char)} (h : ls ≠ []) : rawFlags ls ≠ [] := by
  rw [← List.length_pos_iff, length_rawFlags]
  exact List.length_pos_iff.2 h

/-- A raw line at the end of a text closes a heredoc, so it is not empty. -/
theorem getLast?_ne_nil_of_raw {ls : List (List Char)} (h : (rawFlags ls).getLast? = some true) :
    ls.getLast? ≠ some [] := by
  match ls with
  | [] =>
    rw [rawFlags] at h
    cases h
  | l :: ls =>
    rw [rawFlags] at h
    split at h
    · next i hclose =>
      obtain ⟨label, hlabel, hfound⟩ := Option.bind_eq_some_iff.1 hclose
      obtain ⟨hi, hcloses, -⟩ := List.findIdx?_eq_some_iff_getElem.1 hfound
      have hsplit : l :: ls = (l :: ls.take (i + 1)) ++ ls.drop (i + 1) := by
        rw [List.cons_append, List.take_append_drop]
      rw [hsplit]
      by_cases hbehind : ls.drop (i + 1) = []
      · -- the last line is the one that closes the heredoc
        have hlast : (l :: ls.take (i + 1)).getLast? = some ls[i] := by
          rw [List.take_succ_eq_append_getElem hi, ← List.cons_append, List.getLast?_concat]
        rw [hbehind, List.append_nil, hlast]
        intro hnil
        rw [Option.some.inj hnil, closesHeredoc_nil (isAsciiIdent_label hlabel)] at hcloses
        cases hcloses
      · rw [← List.cons_append, List.getLast?_append_of_ne_nil _ (rawFlags_ne_nil hbehind)] at h
        rw [List.getLast?_append_of_ne_nil _ hbehind]
        exact getLast?_ne_nil_of_raw h
    · by_cases hnone : ls = []
      · rw [hnone, rawFlags] at h
        exact absurd h (by simp)
      · rw [← List.singleton_append, List.getLast?_append_of_ne_nil _ (rawFlags_ne_nil hnone)] at h
        rw [← List.singleton_append, List.getLast?_append_of_ne_nil _ hnone]
        exact getLast?_ne_nil_of_raw h
termination_by ls.length

namespace IsNormal

variable {b : Body}

/-- No lines of a normal body are dropped at its end. -/
theorem dropTailWhile_lines (h : IsNormal b) : dropTailWhile BodyLine.isDroppable b.lines = b.lines := by
  refine (dropTailWhile_sublist _ _).eq_of_length_le ?_
  have hle := length_dropWhile_le BodyLine.isDroppable (dropTailWhile BodyLine.isDroppable b.lines)
  rwa [h.ends] at hle

/-- The last line of a normal body is not empty. -/
theorem getLast?_ne_nil (h : IsNormal b) : (b.lines.map fun l => l.text.toList).getLast? ≠ some [] := by
  intro hlast
  rw [List.getLast?_map, Option.map_eq_some_iff] at hlast
  obtain ⟨l, hl, htext⟩ := hlast
  have hkept : l.isDroppable = false := by
    refine getLast?_dropTailWhile (l := b.lines) ?_
    rw [h.dropTailWhile_lines, hl]
  cases hraw : l.raw with
  | true =>
    refine @getLast?_ne_nil_of_raw (b.lines.map fun l => l.text.toList) ?_ ?_
    · rw [h.flags, List.getLast?_map, hl, Option.map_some, hraw]
    · rw [List.getLast?_map, hl, Option.map_some, htext]
  | false =>
    rw [BodyLine.isDroppable, hraw, String.toList_eq_nil_iff.1 htext] at hkept
    cases hkept

/-- A normal body is read back from its lines with newlines between them. -/
theorem ofSource_text (h : IsNormal b) : ofSource b.text.toList = b := by
  have hlines : Text.lines b.text.toList = b.lines.map (written []) := by
    have hwritten : b.lines.map (written []) = b.lines.map fun l => l.text.toList :=
      List.map_congr_left fun l _ => written_nil l
    rw [text, toList_intercalate_newline, List.map_map, hwritten]
    refine lines_joinWith (fun l hl => ?_) h.getLast?_ne_nil
    obtain ⟨line, hline, rfl⟩ := List.mem_map.1 hl
    exact h.plain line hline
  rw [ofSource_eq, hlines, h.cutLines_written (List.forall_mem_nil _), h.ends]

end IsNormal

/-! ## Printed bodies -/

/-- The text that is printed of a body between its braces, by the margin of its lines and that of the
brace behind them. -/
def printed (b : Body) (inner outer : List Char) : List Char :=
  '\n' :: (b.lines.flatMap (fun l => written inner l ++ ['\n']) ++ outer)

/-- A body is printed one level deeper than the braces around it. -/
theorem text_block (buffer : LineBuffer) (b : Body) :
    (((buffer.line "\x7b").block b).line "\x7d").text.toList = buffer.text.toList ++
      (buffer.margin.toList ++
        '{' :: (b.printed buffer.deeper.margin.toList buffer.margin.toList ++ ['}', '\n'])) := by
  have hopen := buffer.adds_line "\x7b"
  have hbody : LineBuffer.Adds (buffer.line "\x7b") ((buffer.line "\x7b").block b)
      (b.lines.flatMap fun l => written buffer.deeper.margin.toList l ++ ['\n']) :=
    (LineBuffer.adds_foldl (fun m l => written m l ++ ['\n']) LineBuffer.adds_bodyLine b.lines
      (buffer.line "\x7b").deeper).nested
  have hclose := ((buffer.line "\x7b").block b).adds_line "\x7d"
  rw [hbody.margin_eq, hopen.margin_eq] at hclose
  have hbraces : "\x7b".toList = ['{'] ∧ "\x7d".toList = ['}'] := ⟨rfl, rfl⟩
  rw [((hopen.trans hbody).trans hclose).text, printed]
  simp only [hbraces, List.append_assoc, List.cons_append, List.nil_append]

/-- The body of a fragment without carriage returns is read back from its lines with newlines between
them, and from what is printed of it between two braces in every indentation and at every depth. -/
theorem ofSource_regenerated {f : List Char} (hf : '\r' ∉ f) :
    ofSource (ofSource f).text.toList = ofSource f ∧
      ∀ buffer : LineBuffer,
        ofSource ((ofSource f).printed buffer.deeper.margin.toList buffer.margin.toList) = ofSource f ∧
        (((buffer.line "\x7b").block (ofSource f)).line "\x7d").text.toList =
          buffer.text.toList ++ (buffer.margin.toList ++ '{' ::
            ((ofSource f).printed buffer.deeper.margin.toList buffer.margin.toList ++ ['}', '\n'])) := by
  have hnormal := isNormal_ofSource hf
  exact ⟨hnormal.ofSource_text, fun buffer =>
    ⟨hnormal.ofSource_written buffer.deeper.isMargin_margin buffer.isMargin_margin, text_block buffer _⟩⟩

/-- A heredoc keeps its lines where the lines around it are dedented, printed behind tabs and dedented
again. -/
theorem ofSource_regenerated_heredoc :
    '\r' ∉ "\n\n    $x = <<<EOT\n  a\n\n    EOT;\n  return $x;  \n\n".toList ∧
      ofSource "\n\n    $x = <<<EOT\n  a\n\n    EOT;\n  return $x;  \n\n".toList =
        ⟨[⟨"  $x = <<<EOT", false⟩, ⟨"  a", true⟩, ⟨"", true⟩, ⟨"    EOT;", true⟩, ⟨"return $x;", false⟩]⟩ ∧
      ofSource "  $x = <<<EOT\n  a\n\n    EOT;\nreturn $x;".toList =
        ofSource "\n\n    $x = <<<EOT\n  a\n\n    EOT;\n  return $x;  \n\n".toList ∧
      ofSource "\n\t\t  $x = <<<EOT\n  a\n\n    EOT;\n\t\treturn $x;\n\t".toList =
        ofSource "\n\n    $x = <<<EOT\n  a\n\n    EOT;\n  return $x;  \n\n".toList := by
  have hf : '\r' ∉ "\n\n    $x = <<<EOT\n  a\n\n    EOT;\n  return $x;  \n\n".toList := by decide
  have hbody : ofSource "\n\n    $x = <<<EOT\n  a\n\n    EOT;\n  return $x;  \n\n".toList =
      ⟨[⟨"  $x = <<<EOT", false⟩, ⟨"  a", true⟩, ⟨"", true⟩, ⟨"    EOT;", true⟩, ⟨"return $x;", false⟩]⟩ := by
    decide +kernel
  obtain ⟨htext, hprinted⟩ := ofSource_regenerated hf
  have htabs := (hprinted ⟨.tab, 1, []⟩).1
  rw [hbody] at htext htabs
  refine ⟨hf, hbody, ?_, ?_⟩
  · rw [hbody]
    exact htext
  · rw [hbody]
    exact htabs

end Body

end PhpGraft

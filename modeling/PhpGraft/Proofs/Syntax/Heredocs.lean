import PhpGraft.Proofs.Syntax.Locality
import PhpGraft.Proofs.Text.Lines

/-!
# Where heredocs end

A heredoc ends in the first row of its text that starts with the label, white space apart, and does
not go on with a character of a name. What stands behind the label does not matter otherwise.
-/

namespace PhpGraft.Lexer

open Text

variable {u s s' : List Char}

/-- Whether a row closes the heredoc with a given label. -/
def closesRow (label row : List Char) : Bool :=
  (stripPrefix? label (trimStart row)).any fun after => !after.head?.any isIdentChar

/-- A heredoc ends in the first row that closes it. -/
theorem closingLength?_cons (label row : List Char) (rest : List (List Char)) :
    closingLength? label (row :: rest) =
      if closesRow label row then some ((row.takeWhile isBlank).length + label.length)
      else (closingLength? label rest).map (row.length + ·) := by
  rw [closingLength?, closesRow]
  cases stripPrefix? label (trimStart row) with
  | none => rfl
  | some after => cases h : after.head?.any isIdentChar <;> simp [h]

/-- A row closes a heredoc if its white space and the label are ahead of what continues no name. -/
theorem closesRow_iff {label row : List Char} :
    closesRow label row = true ↔
      ∃ after, trimStart row = label ++ after ∧ after.head?.any isIdentChar = false := by
  rw [closesRow, Option.any_eq_true]
  constructor
  · rintro ⟨after, hstrip, hafter⟩
    rw [stripPrefix?] at hstrip
    split at hstrip
    · next hp =>
      obtain ⟨rest, hrest⟩ := List.isPrefixOf_iff_prefix.1 hp
      obtain rfl := Option.some.inj hstrip
      rw [← hrest, List.drop_left] at hafter
      exact ⟨rest, hrest.symm, by simpa using hafter⟩
    · exact absurd hstrip nofun
  · rintro ⟨after, hrow, hafter⟩
    refine ⟨after, ?_, by simp [hafter]⟩
    have hp : label.isPrefixOf (trimStart row) = true :=
      List.isPrefixOf_iff_prefix.2 (hrow ▸ List.prefix_append label after)
    rw [stripPrefix?, if_pos hp, hrow, List.drop_left]

/-- The first row of a text goes on to its first newline. -/
theorem rows_append_of_not_mem {w : List Char} (hw : '\n' ∉ w) (hne : w ++ s ≠ []) :
    ∃ t rest, t <+: s ∧ rows (w ++ s) = (w ++ t) :: rest := by
  induction w with
  | nil =>
    cases hrows : rows s with
    | nil =>
      have hflat := flatten_rows s
      rw [hrows] at hflat
      exact absurd hflat.symm hne
    | cons row rest =>
      have hflat := flatten_rows s
      rw [hrows, List.flatten_cons] at hflat
      exact ⟨row, rest, hflat ▸ List.prefix_append row _, hrows⟩
  | cons c w ih =>
    obtain ⟨hc, hw⟩ := not_or.1 (mt List.mem_cons.2 hw)
    rw [List.cons_append, rows, if_neg (Ne.symm hc)]
    by_cases hnil : w ++ s = []
    · obtain ⟨rfl, rfl⟩ := List.append_eq_nil_iff.1 hnil
      exact ⟨[], [], List.prefix_refl _, rfl⟩
    · obtain ⟨t, rest, ht, hrows⟩ := ih hw hnil
      exact ⟨t, rest, ht, by rw [hrows]; rfl⟩

/-- A row whose white space and label fit in the text closes a heredoc whatever stands behind that
continues no name. -/
theorem closesRow_local {label w t t' : List Char} (ht : Ends t')
    (hlen : ((w ++ t).takeWhile isBlank).length + label.length ≤ w.length) (hne : label ≠ [])
    (h : closesRow label (w ++ t) = true) :
    closesRow label (w ++ t') = true ∧
      ((w ++ t').takeWhile isBlank).length = ((w ++ t).takeWhile isBlank).length := by
  obtain ⟨htake, hdrop⟩ := @takeWhile_cut w t isBlank (by omega)
  have hsplit : (w.takeWhile isBlank).length + (w.dropWhile isBlank).length = w.length := by
    rw [← List.length_append, List.takeWhile_append_dropWhile]
  obtain ⟨after, hrow, hafter⟩ := closesRow_iff.1 h
  rw [htake] at hlen
  rw [trimStart, hdrop] at hrow
  obtain ⟨v, hv, rfl⟩ := exists_append_of_le hrow.symm (by omega)
  -- the label starts with a character that is not blank, so the white space ends in the text
  have hnil : w.dropWhile isBlank ≠ [] := by
    rw [hv]
    exact List.append_ne_nil_of_left_ne_nil hne v
  have hshort : (w.takeWhile isBlank).length ≠ w.length := by
    have := List.length_pos_iff.2 hnil
    omega
  have htake' : (w ++ t').takeWhile isBlank = w.takeWhile isBlank := by
    rw [List.takeWhile_append, if_neg hshort]
  have hdrop' : (w ++ t').dropWhile isBlank = w.dropWhile isBlank ++ t' := by
    rw [List.dropWhile_append, if_neg (by simpa using hnil)]
  refine ⟨closesRow_iff.2 ⟨v ++ t', ?_, ?_⟩, by rw [htake', htake]⟩
  · rw [trimStart, hdrop', hv, List.append_assoc]
  · refine Bool.eq_false_iff.2 fun hnext => ?_
    have hfirst := any_head?_of_ends failsStops_isIdentChar ht hnext
    rw [(marks_any failsStops_isIdentChar).append hfirst t] at hafter
    exact absurd hafter nofun

/-- A heredoc has the characters of its closing label. -/
theorem one_le_closingLength {label : List Char} (hne : label ≠ []) {ls : List (List Char)} {n : Nat}
    (h : closingLength? label ls = some n) : 1 ≤ n := by
  have hlabel := List.length_pos_iff.2 hne
  induction ls generalizing n with
  | nil => exact absurd h nofun
  | cons row rest ih =>
    rw [closingLength?_cons] at h
    split at h
    · rw [← Option.some.inj h]
      omega
    · obtain ⟨k, hk, rfl⟩ := Option.map_eq_some_iff.1 h
      have := ih hk
      omega

/-- A heredoc that ends within a text ends there whatever stands behind that continues no name. -/
theorem closingLength?_local {label : List Char} (hne : label ≠ []) (hs : Ends s') {w : List Char}
    {n : Nat} (h : closingLength? label (rows (w ++ s)) = some n) (hn : n ≤ w.length) :
    closingLength? label (rows (w ++ s')) = some n := by
  have hpos := one_le_closingLength hne h
  by_cases hmem : '\n' ∈ w
  · -- the first row is the same one
    obtain ⟨l, w', rfl, hl⟩ := List.eq_append_cons_of_mem hmem
    have hrows (r : List Char) : rows (l ++ '\n' :: w' ++ r) = (l ++ ['\n']) :: rows (w' ++ r) := by
      rw [List.append_assoc, List.cons_append, rows_append hl]
    rw [hrows, closingLength?_cons] at h ⊢
    split at h
    · next hclose =>
      rw [if_pos hclose]
      exact h
    · next hopen =>
      obtain ⟨k, hk, rfl⟩ := Option.map_eq_some_iff.1 h
      have hfits : k ≤ w'.length := by
        simp only [List.length_append, List.length_cons, List.length_nil] at hn
        omega
      rw [if_neg hopen, closingLength?_local hne hs hk hfits]
      rfl
  · have hw : w ++ s ≠ [] := by
      rintro he
      rw [(List.append_eq_nil_iff.1 he).1] at hn
      exact absurd (Nat.le_trans hpos hn) (by simp)
    have hw' : w ++ s' ≠ [] := by
      rintro he
      rw [(List.append_eq_nil_iff.1 he).1] at hn
      exact absurd (Nat.le_trans hpos hn) (by simp)
    obtain ⟨t, rest, -, hrows⟩ := rows_append_of_not_mem hmem hw
    obtain ⟨t', rest', ht', hrows'⟩ := rows_append_of_not_mem hmem hw'
    have hends : Ends t' := fun c hc => hs c (by
      obtain ⟨v, rfl⟩ := ht'
      cases t' with
      | nil => exact absurd hc nofun
      | cons d t' => exact hc)
    rw [hrows, closingLength?_cons] at h
    rw [hrows', closingLength?_cons]
    split at h
    · next hclose =>
      obtain rfl := Option.some.inj h
      obtain ⟨hclose', hblanks⟩ := closesRow_local hends hn hne hclose
      rw [if_pos hclose', hblanks]
    · -- behind the first row the heredoc would end outside of the text
      obtain ⟨k, hk, rfl⟩ := Option.map_eq_some_iff.1 h
      have := one_le_closingLength hne hk
      rw [List.length_append] at hn
      omega
termination_by w.length
decreasing_by
  have := congrArg List.length ‹w = l ++ '\n' :: w'›
  rw [List.length_append, List.length_cons] at this
  omega

/-- A text that has a newline is split there. -/
theorem exists_of_splitOnce? {cs a b : List Char} (h : splitOnce? ['\n'] cs = some (a, b)) :
    cs = a ++ '\n' :: b ∧ '\n' ∉ a := by
  by_cases hmem : '\n' ∈ cs
  · obtain ⟨l, r, rfl, hl⟩ := List.eq_append_cons_of_mem hmem
    rw [(splitOnce?_newline hl r).1] at h
    obtain ⟨rfl, rfl⟩ := Prod.mk.inj (Option.some.inj h)
    exact ⟨rfl, hl⟩
  · rw [(splitOnce?_newline hmem []).2] at h
    exact absurd h nofun

/-- A heredoc is its opening, the rest of that line, and the rows up to the label that closes it. -/
theorem exists_of_scanHeredoc {cs : List Char} {kind : TokenKind} {n : Nat}
    (h : scanHeredoc cs = .ok (kind, n)) :
    ∃ header body k, cs.drop 2 = header ++ '\n' :: body ∧ '\n' ∉ header ∧
      trimWhile isLabelQuote (trim header) ≠ [] ∧
      closingLength? (trimWhile isLabelQuote (trim header)) (rows body) = some k ∧
      kind = .string none ∧ n = 2 + header.length + 1 + k := by
  unfold scanHeredoc at h
  split at h
  · cases h
  · next header body hsplit =>
    dsimp only at h
    split at h
    · cases h
    · next hlabel =>
      split at h
      · next k hclose =>
        obtain ⟨hcs, hheader⟩ := exists_of_splitOnce? hsplit
        obtain ⟨hkind, hn⟩ := Prod.mk.inj (Except.ok.inj h)
        have hne : trimWhile isLabelQuote (trim header) ≠ [] := fun he => hlabel (by rw [he]; rfl)
        exact ⟨header, body, k, hcs, hheader, hne, hclose, hkind.symm, hn.symm⟩
      · cases h

/-- A label without newlines ends ahead of the newline of the row that closes a heredoc. -/
theorem closesRow_newline {label l : List Char} (hne : label ≠ []) (hlabel : '\n' ∉ label)
    (h : closesRow label (l ++ ['\n']) = true) :
    ((l ++ ['\n']).takeWhile isBlank).length + label.length ≤ l.length := by
  obtain ⟨after, hrow, -⟩ := closesRow_iff.1 h
  have hsplit : l ++ ['\n'] = (l ++ ['\n']).takeWhile isBlank ++ (label ++ after) := by
    rw [← hrow, trimStart, List.takeWhile_append_dropWhile]
  have hafter : after ≠ [] := by
    rintro rfl
    have hlast := congrArg List.getLast? hsplit
    rw [List.append_nil, List.getLast?_concat, List.getLast?_append, List.getLast?_eq_some_getLast hne,
      Option.some_or] at hlast
    exact hlabel (Option.some.inj hlast ▸ List.getLast_mem hne)
  have hpos := List.length_pos_iff.2 hafter
  have hlength := congrArg List.length hsplit
  simp only [List.length_append, List.length_singleton] at hlength ⊢
  omega

/-- The row in which a heredoc ends closes it. -/
theorem exists_closingRow {label : List Char} (hne : label ≠ []) (hlabel : '\n' ∉ label) {body : List Char}
    {k : Nat} (h : closingLength? label (rows body) = some k) :
    ∃ row, (rows body)[newlineCount (body.take k)]? = some row ∧ closesRow label row = true := by
  by_cases hn : '\n' ∈ body
  · obtain ⟨l, behind, rfl, hl⟩ := List.eq_append_cons_of_mem hn
    rw [rows_append hl, closingLength?_cons] at h
    by_cases hclose : closesRow label (l ++ ['\n']) = true
    · rw [if_pos hclose] at h
      obtain rfl := Option.some.inj h
      have hcount : newlineCount ((l ++ '\n' :: behind).take
          (((l ++ ['\n']).takeWhile isBlank).length + label.length)) = 0 := by
        rw [List.take_append_of_le_length (closesRow_newline hne hlabel hclose)]
        exact List.count_eq_zero_of_not_mem fun hmem => hl (List.mem_of_mem_take hmem)
      exact ⟨l ++ ['\n'], by rw [hcount, rows_append hl]; rfl, hclose⟩
    · -- the search goes on behind the newline
      rw [if_neg hclose] at h
      obtain ⟨j, hj, rfl⟩ := Option.map_eq_some_iff.1 h
      obtain ⟨row, hrow, hcloses⟩ := exists_closingRow hne hlabel hj
      have htake : (l ++ '\n' :: behind).take ((l ++ ['\n']).length + j) = l ++ '\n' :: behind.take j := by
        have htext : l ++ '\n' :: behind = (l ++ ['\n']) ++ behind := by simp
        rw [htext, List.take_length_add_append, List.append_assoc]
        rfl
      refine ⟨row, ?_, hcloses⟩
      rw [htake, newlineCount_line hl, rows_append hl, List.getElem?_cons_succ]
      exact hrow
  · have hcount : newlineCount (body.take k) = 0 :=
      List.count_eq_zero_of_not_mem fun hmem => hn (List.mem_of_mem_take hmem)
    by_cases hnil : body = []
    · rw [hnil, rows] at h
      cases h
    · rw [rows_of_not_mem hn hnil, closingLength?_cons] at h
      by_cases hclose : closesRow label body = true
      · exact ⟨body, by rw [hcount, rows_of_not_mem hn hnil]; rfl, hclose⟩
      · rw [if_neg hclose] at h
        cases h
termination_by body.length
decreasing_by
  subst_vars
  simp only [List.length_append, List.length_cons]
  omega

/-- A heredoc is found whatever stands behind that continues no name. -/
theorem local_scanHeredoc : Local scanHeredoc := by
  intro u s s' kind n hs h hn _
  obtain ⟨header, body, m, hcs, hheader, hne, hclose, rfl, rfl⟩ := exists_of_scanHeredoc h
  have hdrop (r : List Char) : (u ++ r).drop 2 = u.drop 2 ++ r := List.drop_append_of_le_length (by omega)
  rw [hdrop] at hcs
  have hfits : (header ++ ['\n']).length ≤ (u.drop 2).length := by
    rw [List.length_append, List.length_drop, List.length_singleton]
    omega
  obtain ⟨w, hw, rfl⟩ := @exists_append_of_le (u.drop 2) s (header ++ ['\n']) body
    (by rw [hcs, List.append_assoc]; rfl) hfits
  have hm : m ≤ w.length := by
    have hlen := congrArg List.length hw
    simp only [List.length_append, List.length_drop, List.length_singleton] at hlen
    omega
  have hsplit : splitOnce? ['\n'] ((u ++ s').drop 2) = some (header, w ++ s') := by
    rw [hdrop, hw, List.append_assoc, List.append_assoc]
    exact (splitOnce?_newline hheader _).1
  have hlabel : ¬ (trimWhile isLabelQuote (trim header)).isEmpty = true := mt List.isEmpty_iff.1 hne
  rw [scanHeredoc, hsplit]
  dsimp only
  rw [if_neg hlabel, closingLength?_local hne hs hclose hm]
  rfl

/-- A heredoc has more characters than its opening. -/
theorem two_le_scanHeredoc {cs : List Char} {kind : TokenKind} {n : Nat}
    (h : scanHeredoc cs = .ok (kind, n)) : 2 ≤ n := by
  obtain ⟨header, body, k, -, -, -, -, -, rfl⟩ := exists_of_scanHeredoc h
  omega

end PhpGraft.Lexer

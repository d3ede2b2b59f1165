import PhpGraft.Text.Lines

/-!
# Lines put together

Lines without newlines that are put together with newlines are the lines of the text.
-/

namespace PhpGraft.Text

variable {l : List Char}

/-- A line and its newline are the first row. -/
theorem rows_append (h : '\n' ∉ l) (cs : List Char) :
    rows (l ++ '\n' :: cs) = (l ++ ['\n']) :: rows cs := by
  induction l with
  | nil => rfl
  | cons c l ih =>
    obtain ⟨hc, hl⟩ := not_or.1 (mt List.mem_cons.2 h)
    rw [List.cons_append, rows, if_neg (Ne.symm hc), ih hl]
    rfl

/-- The rows of a text are those up to some newline in it, and those of what stands behind it. -/
theorem rows_newline (a b : List Char) : rows (a ++ '\n' :: b) = rows (a ++ ['\n']) ++ rows b := by
  induction a with
  | nil => rfl
  | cons c a ih =>
    have hne : rows (a ++ ['\n']) ≠ [] := fun hnil => by
      have hflat := flatten_rows (a ++ ['\n'])
      rw [hnil] at hflat
      exact absurd hflat (by simp)
    obtain ⟨row, rest, hrows⟩ := List.exists_cons_of_ne_nil hne
    rw [List.cons_append, List.cons_append, rows, rows, ih, hrows]
    by_cases hc : c = '\n'
    · rw [if_pos hc, if_pos hc]
      rfl
    · rw [if_neg hc, if_neg hc]
      rfl

/-- The lines of a text are those up to some newline in it, and those of what stands behind it. -/
theorem lines_newline (a b : List Char) : lines (a ++ '\n' :: b) = lines (a ++ ['\n']) ++ lines b := by
  rw [lines, rows_newline, List.map_append]
  rfl

/-- The lines of texts that are put together with a newline behind each of them are those of each. -/
theorem linesOf_join (es : List String) :
    linesOf (String.join (es.map (· ++ "\n"))) = es.flatMap fun e => linesOf (e ++ "\n") := by
  induction es with
  | nil => rfl
  | cons e es ih =>
    have hsplit := lines_newline e.toList (String.join (es.map (· ++ "\n"))).toList
    rw [List.flatMap_cons, ← ih, linesOf, linesOf, linesOf, ← List.map_append, String.toList_append]
    rw [List.map_cons, String.toList_join, List.flatMap_cons, ← String.toList_join, String.toList_append,
      List.append_assoc]
    exact congrArg _ hsplit

/-- A text without newlines is one row. -/
theorem rows_of_not_mem (h : '\n' ∉ l) (hne : l ≠ []) : rows l = [l] := by
  induction l with
  | nil => exact absurd rfl hne
  | cons c l ih =>
    obtain ⟨hc, hl⟩ := not_or.1 (mt List.mem_cons.2 h)
    rw [rows, if_neg (Ne.symm hc)]
    cases l with
    | nil => rfl
    | cons d l => rw [ih hl (List.cons_ne_nil _ _)]

/-- A line is a row without its newline. -/
theorem lineOfRow_append (h : l.getLast? ≠ some '\r') : lineOfRow (l ++ ['\n']) = l := by
  rw [lineOfRow, if_pos List.getLast?_concat, List.dropLast_concat, if_neg h]

/-- A row without a newline is a line. -/
theorem lineOfRow_of_not_mem (h : '\n' ∉ l) : lineOfRow l = l :=
  if_neg fun hl => h (List.mem_of_getLast? hl)

/-- A line and its newline are the first line. -/
theorem lines_append (h : '\n' ∉ l) (hr : l.getLast? ≠ some '\r') (cs : List Char) :
    lines (l ++ '\n' :: cs) = l :: lines cs := by
  rw [lines, rows_append h, List.map_cons, lineOfRow_append hr]
  rfl

/-- A text without newlines is one line. -/
theorem lines_of_not_mem (h : '\n' ∉ l) (hne : l ≠ []) : lines l = [l] := by
  rw [lines, rows_of_not_mem h hne, List.map_singleton, lineOfRow_of_not_mem h]

/-- A line without newlines adds the one behind it. -/
theorem newlineCount_line {l : List Char} (hl : '\n' ∉ l) (cs : List Char) :
    newlineCount (l ++ '\n' :: cs) = newlineCount cs + 1 := by
  rw [newlineCount, List.count_append, List.count_cons_self, List.count_eq_zero_of_not_mem hl, Nat.zero_add]
  rfl

/-- Behind as many newlines as a text has stands the rest of its last line, with what follows up to the next
newline. -/
theorem getElem?_rows {m : List Char} (hm : '\n' ∉ m) (front behind : List Char) :
    ∃ r, (rows (front ++ (m ++ '\n' :: behind)))[newlineCount front]? = some (r ++ (m ++ ['\n'])) := by
  by_cases hn : '\n' ∈ front
  · obtain ⟨l, front, rfl, hl⟩ := List.eq_append_cons_of_mem hn
    obtain ⟨r, hr⟩ := getElem?_rows hm front behind
    refine ⟨r, ?_⟩
    rw [newlineCount_line hl, List.append_assoc, List.cons_append, rows_append hl, List.getElem?_cons_succ]
    exact hr
  · have hline : '\n' ∉ front ++ m := fun h => (List.mem_append.1 h).elim hn hm
    have hcount : newlineCount front = 0 := List.count_eq_zero_of_not_mem hn
    refine ⟨front, ?_⟩
    rw [hcount, ← List.append_assoc, rows_append hline, List.getElem?_cons_zero, List.append_assoc]
termination_by front.length
decreasing_by
  subst_vars
  simp only [List.length_append, List.length_cons]
  omega

/-- A text that ends in a newline has as many rows as newlines. -/
theorem length_rows_newline (a : List Char) : (rows (a ++ ['\n'])).length = newlineCount a + 1 := by
  by_cases hn : '\n' ∈ a
  · obtain ⟨l, a, rfl, hl⟩ := List.eq_append_cons_of_mem hn
    rw [newlineCount_line hl, List.append_assoc, List.cons_append, rows_append hl, List.length_cons,
      length_rows_newline a]
  · have hcount : newlineCount a = 0 := List.count_eq_zero_of_not_mem hn
    rw [rows_append hn, hcount]
    rfl
termination_by a.length
decreasing_by
  subst_vars
  simp only [List.length_append, List.length_cons]
  omega

/-- Behind a newline the rows are counted from there. -/
theorem getElem?_rows_newline (a b : List Char) (i : Nat) :
    (rows (a ++ '\n' :: b))[newlineCount a + 1 + i]? = (rows b)[i]? := by
  rw [rows_newline, ← length_rows_newline, List.getElem?_append_right (Nat.le_add_right _ i),
    Nat.add_sub_cancel_left]

/-- Put together with newlines, a line stands ahead of the others. -/
theorem joinWith_cons_cons (sep l m : List Char) (ls : List (List Char)) :
    joinWith sep (l :: m :: ls) = l ++ (sep ++ joinWith sep (m :: ls)) := List.append_assoc ..

/-- Put together, each piece but the first stands behind a separator. -/
theorem joinWith_cons (sep l : List Char) (ls : List (List Char)) :
    joinWith sep (l :: ls) = l ++ ls.flatMap (sep ++ ·) := by
  induction ls generalizing l with
  | nil => simp [joinWith]
  | cons m ls ih => rw [joinWith_cons_cons, ih, List.flatMap_cons, List.append_assoc]

/-- Put together, more text at the end of the last piece is at the end of the whole. -/
theorem joinWith_append (sep a b : List Char) (ls : List (List Char)) :
    joinWith sep (ls ++ [a ++ b]) = joinWith sep (ls ++ [a]) ++ b := by
  induction ls with
  | nil => rfl
  | cons l ls ih =>
    cases ls with
    | nil => simp [joinWith]
    | cons m ls =>
      simp only [List.cons_append, joinWith_cons_cons] at ih ⊢
      rw [ih]
      simp only [List.append_assoc]

/-- Lines with newlines between them and behind the last one. -/
theorem joinWith_concat (l : List Char) (ls : List (List Char)) :
    joinWith ['\n'] (l :: ls) ++ ['\n'] = (l :: ls).flatMap (· ++ ['\n']) := by
  induction ls generalizing l with
  | nil => simp [joinWith]
  | cons m ls ih => rw [joinWith_cons_cons, List.append_assoc, List.append_assoc, ih m]; simp

/-- Lines that are put together are the lines of the text, unless the last one is empty. -/
theorem lines_joinWith {ls : List (List Char)} (h : ∀ l ∈ ls, '\n' ∉ l ∧ l.getLast? ≠ some '\r')
    (hlast : ls.getLast? ≠ some []) : lines (joinWith ['\n'] ls) = ls := by
  induction ls with
  | nil => rfl
  | cons l ls ih =>
    obtain ⟨hn, hr⟩ := h l (List.mem_cons_self ..)
    cases ls with
    | nil => exact lines_of_not_mem hn fun hl : l = [] => hlast (by rw [hl]; rfl)
    | cons m ls =>
      rw [joinWith_cons_cons, List.singleton_append, lines_append hn hr,
        ih (fun l hl => h l (List.mem_cons_of_mem _ hl)) (by rwa [List.getLast?_cons_cons] at hlast)]

/-- A row has a newline at most at its end. -/
theorem exists_of_mem_rows {cs row : List Char} (h : row ∈ rows cs) :
    ∃ l, '\n' ∉ l ∧ (row = l ∨ row = l ++ ['\n']) := by
  induction cs generalizing row with
  | nil => cases h
  | cons c cs ih =>
    unfold rows at h
    split at h
    · next hc =>
      rcases List.mem_cons.1 h with rfl | h
      · exact ⟨[], List.not_mem_nil, .inr (by rw [hc]; rfl)⟩
      · exact ih h
    · next hc =>
      have hcons {l : List Char} (hl : '\n' ∉ l) : '\n' ∉ c :: l := fun hmem =>
        (List.mem_cons.1 hmem).elim (fun he => hc he.symm) hl
      split at h
      · obtain rfl := List.mem_singleton.1 h
        exact ⟨[c], hcons List.not_mem_nil, .inl rfl⟩
      · next first rest hrows =>
        rw [hrows] at ih
        rcases List.mem_cons.1 h with rfl | h
        · obtain ⟨l, hl, he⟩ := ih (List.mem_cons_self ..)
          exact ⟨c :: l, hcons hl, he.imp (congrArg _) (congrArg _)⟩
        · exact ih (List.mem_cons_of_mem _ h)

/-- Put together, lines stand with a newline behind each of them ahead of another one. -/
theorem joinWith_append_cons (ls : List (List Char)) (l : List Char) (ms : List (List Char)) :
    joinWith ['\n'] (ls ++ l :: ms) = ls.flatMap (· ++ ['\n']) ++ joinWith ['\n'] (l :: ms) := by
  induction ls with
  | nil => rfl
  | cons k ls ih =>
    obtain ⟨j, js, hne⟩ := List.exists_cons_of_ne_nil
      (List.append_ne_nil_of_right_ne_nil ls (List.cons_ne_nil l ms))
    rw [List.cons_append, hne, joinWith_cons_cons, ← hne, ih, List.flatMap_cons]
    simp only [List.append_assoc]

/-- A line as it stands in its text: a carriage return may be ahead of its newline. -/
def IsRowOf (l r : List Char) : Prop := r = l ∨ r = l ++ ['\r']

/-- What stands ahead of a newline is a line as it stands in its text. -/
theorem isRowOf_lineOfRow (r : List Char) : IsRowOf (lineOfRow (r ++ ['\n'])) r := by
  by_cases hr : r.getLast? = some '\r'
  · obtain ⟨l, rfl⟩ := List.getLast?_eq_some_iff.1 hr
    refine .inr ?_
    rw [lineOfRow, if_pos List.getLast?_concat, List.dropLast_concat]
    dsimp only
    rw [if_pos hr, List.dropLast_concat]
  · exact .inl (lineOfRow_append hr).symm

/-- What a row has behind its line is white space. -/
theorem exists_lineOfRow (row : List Char) : ∃ e, row = lineOfRow row ++ e ∧ e.all isBlank = true := by
  by_cases hn : row.getLast? = some '\n'
  · obtain ⟨r, rfl⟩ := List.getLast?_eq_some_iff.1 hn
    rcases isRowOf_lineOfRow r with h | h
    · exact ⟨['\n'], by rw [← h], rfl⟩
    · exact ⟨['\r', '\n'], (congrArg (· ++ ['\n']) h).trans (List.append_assoc ..), rfl⟩
  · exact ⟨[], by rw [lineOfRow, if_neg hn, List.append_nil], rfl⟩

/-- A text is its lines with newlines between them, and perhaps behind them. -/
theorem exists_rows (f : List Char) : ∃ (qs : List (List Char × List Char)) (e : List Char),
    (e = [] ∨ e = ['\n']) ∧ qs.map Prod.fst = lines f ∧ (∀ q ∈ qs, IsRowOf q.1 q.2) ∧
      f = joinWith ['\n'] (qs.map Prod.snd) ++ e := by
  by_cases hn : '\n' ∈ f
  · obtain ⟨r, behind, rfl, hr⟩ := List.eq_append_cons_of_mem hn
    obtain ⟨qs, e, he, hlines, hrows, htext⟩ := exists_rows behind
    have hfirst : lines (r ++ '\n' :: behind) = lineOfRow (r ++ ['\n']) :: qs.map Prod.fst := by
      rw [hlines, lines, rows_append hr, List.map_cons]
      rfl
    have hall : ∀ q ∈ (lineOfRow (r ++ ['\n']), r) :: qs, IsRowOf q.1 q.2 :=
      List.forall_mem_cons.2 ⟨isRowOf_lineOfRow r, hrows⟩
    cases qs with
    | nil =>
      rcases he with rfl | rfl
      · exact ⟨[(_, r)], ['\n'], .inr rfl, hfirst.symm, hall, by rw [htext]; rfl⟩
      · rw [htext] at hlines
        cases hlines
    | cons q qs =>
      refine ⟨(_, r) :: q :: qs, e, he, hfirst.symm, hall, ?_⟩
      rw [List.map_cons, List.map_cons, joinWith_cons_cons, List.append_assoc, List.append_assoc,
        ← List.map_cons (f := Prod.snd), ← htext]
      rfl
  · by_cases hnil : f = []
    · exact ⟨[], [], .inl rfl, by rw [hnil]; rfl, List.forall_mem_nil _, hnil⟩
    · exact ⟨[(f, f)], [], .inl rfl, (lines_of_not_mem hn hnil).symm, List.forall_mem_singleton.2 (.inl rfl),
        (List.append_nil f).symm⟩
termination_by f.length

/-- A line has no characters but those of the text. -/
theorem subset_of_mem_lines {cs l : List Char} (h : l ∈ lines cs) : l ⊆ cs := by
  obtain ⟨row, hrow, rfl⟩ := List.mem_map.1 h
  have hline : lineOfRow row ⊆ row := by
    unfold lineOfRow
    dsimp only
    split
    · split
      · exact ((List.dropLast_sublist _).trans (List.dropLast_sublist row)).subset
      · exact (List.dropLast_sublist row).subset
    · exact fun _ hc => hc
  intro c hc
  rw [← flatten_rows cs]
  exact List.mem_flatten.2 ⟨row, hrow, hline hc⟩

/-- A line has no newline. -/
theorem not_mem_of_mem_lines {cs l : List Char} (h : l ∈ lines cs) : '\n' ∉ l := by
  obtain ⟨row, hrow, rfl⟩ := List.mem_map.1 h
  obtain ⟨l, hl, rfl | rfl⟩ := exists_of_mem_rows hrow
  · rwa [lineOfRow_of_not_mem hl]
  · rw [lineOfRow, if_pos List.getLast?_concat, List.dropLast_concat]
    dsimp only
    split
    · exact fun hmem => hl (List.dropLast_sublist l |>.mem hmem)
    · exact hl

/-- Lines without newlines have as many newlines behind them as there are lines. -/
theorem newlineCount_flatMap {ls : List (List Char)} (h : ∀ l ∈ ls, '\n' ∉ l)
    (hl : '\n' ∉ l) : newlineCount (ls.flatMap (· ++ ['\n']) ++ l) = ls.length := by
  induction ls with
  | nil => exact List.count_eq_zero_of_not_mem hl
  | cons k ls ih =>
    have hk : k.count '\n' = 0 := List.count_eq_zero_of_not_mem (h k (List.mem_cons_self ..))
    have hrest := ih fun l hl => h l (List.mem_cons_of_mem _ hl)
    rw [newlineCount] at hrest ⊢
    rw [List.flatMap_cons, List.append_assoc, List.append_assoc, List.count_append, hk, Nat.zero_add,
      List.singleton_append, List.count_cons_self, hrest, List.length_cons]

/-- A row of a line holds what the line holds. -/
theorem not_mem_of_isRowOf {r : List Char} (h : IsRowOf l r) (hl : '\n' ∉ l) : '\n' ∉ r := by
  rcases h with rfl | rfl
  · exact hl
  · simpa using hl

/-- The text of strings with newlines between them. -/
theorem toList_intercalate_newline (ls : List String) :
    ("\n".intercalate ls).toList = joinWith ['\n'] (ls.map String.toList) := by
  induction ls with
  | nil => rfl
  | cons l ls ih =>
    cases ls with
    | nil => rw [String.intercalate_singleton]; rfl
    | cons m ls =>
      rw [String.intercalate_cons_cons, String.toList_append, String.toList_append, ih]
      simp only [List.map_cons, joinWith_cons_cons, List.append_assoc]
      rfl

/-- A newline is found behind a line. -/
theorem indexOf?_newline {l : List Char} (hl : '\n' ∉ l) (r : List Char) :
    indexOf? ['\n'] (l ++ '\n' :: r) = some l.length ∧ indexOf? ['\n'] l = none := by
  induction l with
  | nil => exact ⟨rfl, rfl⟩
  | cons c l ih =>
    obtain ⟨hc, hl⟩ := not_or.1 (mt List.mem_cons.2 hl)
    obtain ⟨h₁, h₂⟩ := ih hl
    have hstart (f : List Char) : ¬ (['\n'].isPrefixOf (c :: f)) := by simp [hc]
    rw [List.cons_append, indexOf?, indexOf?, if_neg (hstart _), if_neg (hstart _), h₁, h₂]
    exact ⟨rfl, rfl⟩

/-- What stands ahead of a newline is a line. -/
theorem splitOnce?_newline {l : List Char} (hl : '\n' ∉ l) (r : List Char) :
    splitOnce? ['\n'] (l ++ '\n' :: r) = some (l, r) ∧ splitOnce? ['\n'] l = none := by
  obtain ⟨h₁, h₂⟩ := indexOf?_newline hl r
  rw [splitOnce?, splitOnce?, h₁, h₂]
  simp

/-! ## Margins -/

/-- What stands ahead of the lines at some depth. -/
def IsMargin (m : List Char) : Prop := ∀ c ∈ m, c = ' ' ∨ c = '\t'

/-- A margin is white space. -/
theorem IsMargin.blank {m : List Char} (h : IsMargin m) : m.all isBlank = true :=
  List.all_eq_true.2 fun c hc => by
    rcases h c hc with rfl | rfl <;> rfl

/-- A margin has no newlines. -/
theorem IsMargin.noNewline {m : List Char} (h : IsMargin m) : '\n' ∉ m := fun hm =>
  absurd (h _ hm) (by decide)

/-- A line as it is written behind a margin. -/
def indented (margin l : List Char) : List Char := if l = [] then [] else margin ++ l

/-- Behind no margin a line is written as it is. -/
theorem indented_nil (l : List Char) : indented [] l = l := by
  rw [indented]
  split
  · next h => exact h.symm
  · rfl

end PhpGraft.Text

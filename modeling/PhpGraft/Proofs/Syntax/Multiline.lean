import PhpGraft.Proofs.Syntax.Reflowing
import PhpGraft.Proofs.Syntax.Words
import PhpGraft.Proofs.Text.Search

/-!
# Tokens over several lines

Comments, strings and heredocs go on behind the end of a line, and so do gaps. In another layout
they get longer or shorter, but they end in the same place. A heredoc does if its label does not end
in white space: such a label is not found any more when what trails a line is dropped.
-/

namespace PhpGraft.Lexer

open Text

variable {tail cs ds : List Char}

/-- The end of a comment is found behind what is no star. -/
theorem indexOf?_starSlash_append {m : List Char} (hm : '*' ∉ m) (cs : List Char) :
    indexOf? starSlash (m ++ cs) = (indexOf? starSlash cs).map (· + m.length) := by
  induction m with
  | nil => simp
  | cons c m ih =>
    obtain ⟨hc, hm⟩ := not_or.1 (mt List.mem_cons.2 hm)
    rw [List.cons_append, indexOf?, if_neg (by simp [starSlash, hc]), ih hm]
    simp [Function.comp_def, Nat.add_assoc]

/-- A character that is no white space is not in white space. -/
theorem not_mem_of_spaces {w : List Char} {c : Char} (hw : w.all isSpace = true)
    (hc : isSpace c = false) : c ∉ w := fun hmem => by
  rw [List.all_eq_true.1 hw c hmem] at hc
  cases hc

/-- Another layout leaves the end of a comment where it is. -/
theorem indexOf?_starSlash_reflows (ht : EndsLine tail) (h : Reflows tail cs ds) {n : Nat}
    (hn : indexOf? starSlash cs = some n) :
    ∃ n', indexOf? starSlash ds = some n' ∧ Reflows tail (cs.drop (n + 2)) (ds.drop (n' + 2)) := by
  induction h generalizing n with
  | @nil w hw =>
    have hskip := indexOf?_starSlash_append (not_mem_of_spaces hw (by decide)) []
    rw [List.append_nil, hn] at hskip
    exact absurd hskip (by simp [indexOf?, starSlash])
  | @cons cs ds c h ih =>
    obtain ⟨l, r, s, rfl, rfl, -, hrs, hcases⟩ := h.exists_line
    obtain ⟨hr, hs⟩ := Reflows.ends_of_cases ht hcases
    have hstart : starSlash.isPrefixOf (c :: (l ++ s)) = starSlash.isPrefixOf (c :: (l ++ r)) := by
      simp only [starSlash, List.isPrefixOf]
      rw [isPrefixOf_ends hr (by decide), isPrefixOf_ends hs (by decide)]
    rw [indexOf?] at hn ⊢
    rw [hstart]
    by_cases hp : starSlash.isPrefixOf (c :: (l ++ r)) = true
    · rw [if_pos hp] at hn ⊢
      obtain rfl := Option.some.inj hn
      have hslash : (l ++ r).head? = some '/' := by
        cases htext : l ++ r with
        | nil => simp [starSlash, htext] at hp
        | cons d more =>
          rw [htext] at hp
          simp only [starSlash, List.isPrefixOf, Bool.and_eq_true, beq_iff_eq] at hp
          rw [← hp.2.1]
          rfl
      have hlong : 1 ≤ l.length := by
        rw [head?_ends hr (by decide)] at hslash
        cases l with
        | nil => cases hslash
        | cons d l => exact Nat.succ_le_succ (Nat.zero_le _)
      exact ⟨0, rfl, hrs.drop_line hlong⟩
    · rw [if_neg hp] at hn ⊢
      obtain ⟨k, hk, rfl⟩ := Option.map_eq_some_iff.1 hn
      obtain ⟨k', hk', hi⟩ := ih hk
      rw [hk']
      exact ⟨k' + 1, rfl, hi⟩
  | @gap w w' cs ds hw hw' h ih =>
    have hbehind (w cs : List Char) (k : Nat) : (w ++ cs).drop (k + w.length + 2) = cs.drop (k + 2) := by
      have hsum : k + w.length + 2 = w.length + (k + 2) := by omega
      rw [hsum, List.drop_length_add_append]
    rw [indexOf?_starSlash_append (not_mem_of_spaces hw.space (by decide))] at hn
    obtain ⟨k, hk, rfl⟩ := Option.map_eq_some_iff.1 hn
    obtain ⟨k', hk', hi⟩ := ih hk
    refine ⟨k' + w'.length, ?_, ?_⟩
    · rw [indexOf?_starSlash_append (not_mem_of_spaces hw'.space (by decide)), hk']
      rfl
    · rwa [hbehind, hbehind]

/-! ## Strings -/

/-- White space belongs to a string in single quotes. -/
theorem singleQuoted?_spaces {m : List Char} (hm : m.all isSpace = true) (cs : List Char) :
    ∃ v, singleQuoted? (m ++ cs) = (singleQuoted? cs).map fun (value, n) => (v ++ value, m.length + n) := by
  induction m with
  | nil => exact ⟨[], by simp⟩
  | cons c m ih =>
    obtain ⟨hspace, hm⟩ := Bool.and_eq_true_iff.1 hm
    obtain ⟨v, hv⟩ := ih hm
    have hc : c ≠ '\\' ∧ c ≠ '\'' := by
      refine ⟨?_, ?_⟩ <;> (rintro rfl; exact absurd hspace (by decide))
    refine ⟨c :: v, ?_⟩
    rw [List.cons_append, singleQuoted?_cons hc.1 hc.2, hv, Option.map_map]
    congr 1
    funext p
    simp only [Function.comp_apply, List.cons_append, List.length_cons, Prod.mk.injEq, true_and]
    omega

/-- A string in single quotes ends where it did. -/
theorem singleQuoted?_reflows (ht : EndsLine tail) {cs ds : List Char} (h : Reflows tail cs ds)
    {v : List Char} {n : Nat} (hs : singleQuoted? cs = some (v, n)) :
    ∃ v' n', singleQuoted? ds = some (v', n') ∧ Reflows tail (cs.drop n) (ds.drop n') := by
  have hspaces {w cs : List Char} (hw : w.all isSpace = true) {v : List Char} {n : Nat}
      (hs : singleQuoted? (w ++ cs) = some (v, n)) :
      ∃ u k, singleQuoted? cs = some (u, k) ∧ n = w.length + k := by
    obtain ⟨u, hu⟩ := singleQuoted?_spaces hw cs
    rw [hu] at hs
    obtain ⟨⟨value, k⟩, hk, he⟩ := Option.map_eq_some_iff.1 hs
    exact ⟨value, k, hk, (Prod.mk.inj he).2.symm⟩
  cases h with
  | nil hw =>
    rw [← List.append_nil cs] at hs
    obtain ⟨u, k, hk, -⟩ := hspaces hw hs
    cases hk
  | @cons cs ds c h =>
    by_cases hq : c = '\''
    · subst hq
      obtain ⟨rfl, rfl⟩ := Prod.mk.inj (Option.some.inj hs)
      exact ⟨_, 1, by rw [singleQuoted?], h⟩
    by_cases hescape : c = '\\' ∧ ∃ d more, cs = d :: more ∧ (d = '\\' ∨ d = '\'')
    · obtain ⟨rfl, d, more, rfl, hd⟩ := hescape
      obtain ⟨es, rfl, hes⟩ := Reflows.exists_cons (by rcases hd with rfl | rfl <;> rfl) h
      have hpair (more : List Char) : singleQuoted? ('\\' :: d :: more) =
          (singleQuoted? more).map fun (value, n) => (d :: value, n + 2) := by
        rcases hd with rfl | rfl <;> rw [singleQuoted?]
      rw [hpair] at hs
      obtain ⟨⟨u, k⟩, hk, he⟩ := Option.map_eq_some_iff.1 hs
      obtain ⟨rfl, rfl⟩ := Prod.mk.inj he
      obtain ⟨v', n', hv, hi⟩ := singleQuoted?_reflows ht hes hk
      exact ⟨_, n' + 2, by rw [hpair, hv]; rfl, hi⟩
    · have hplain : c = '\\' → ∀ d ∈ cs.head?, d ≠ '\\' ∧ d ≠ '\'' := by
        rintro rfl d hd
        obtain ⟨more, rfl⟩ := List.head?_eq_some_iff.1 hd
        exact not_or.1 fun he => hescape ⟨rfl, d, more, rfl, he⟩
      have hplain' : c = '\\' → ∀ d ∈ ds.head?, d ≠ '\\' ∧ d ≠ '\'' := by
        intro hc d hd
        obtain ⟨l, r, s, rfl, rfl, -, -, hcases⟩ := h.exists_line
        obtain ⟨hr, hs⟩ := Reflows.ends_of_cases ht hcases
        have hsame {x : Char} (hx : isStop x = false) (he : d = x) : (l ++ r).head? = some x := by
          rw [head?_ends hr hx, ← head?_ends hs hx, ← he]
          exact hd
        exact ⟨fun he => (hplain hc _ (hsame (by decide) he)).1 rfl,
          fun he => (hplain hc _ (hsame (by decide) he)).2 rfl⟩
      rw [singleQuoted?_plain hq hplain] at hs
      obtain ⟨⟨u, k⟩, hk, he⟩ := Option.map_eq_some_iff.1 hs
      obtain ⟨rfl, rfl⟩ := Prod.mk.inj he
      obtain ⟨v', n', hv, hi⟩ := singleQuoted?_reflows ht h hk
      exact ⟨c :: v', n' + 1, by rw [singleQuoted?_plain hq hplain', hv]; rfl, hi⟩
  | @gap w w' cs ds hw hw' h =>
    have := List.length_pos_iff.2 (List.ne_nil_of_mem hw.newline)
    obtain ⟨u, k, hk, rfl⟩ := hspaces hw.space hs
    obtain ⟨v', k', hk', hi⟩ := singleQuoted?_reflows ht h hk
    obtain ⟨u', hu'⟩ := singleQuoted?_spaces hw'.space ds
    refine ⟨u' ++ v', w'.length + k', by rw [hu', hk']; rfl, ?_⟩
    rwa [List.drop_length_add_append, List.drop_length_add_append]
termination_by cs.length
decreasing_by all_goals (subst_vars; simp only [List.length_cons, List.length_append]; omega)

/-- A character that neither escapes nor ends a string is part of it. -/
theorem doubleQuoted?_plain {q c : Char} (hb : c ≠ '\\') (hq : c ≠ q) (cs : List Char) :
    doubleQuoted? q (c :: cs) = (doubleQuoted? q cs).map fun (plain, n) => (plain && c != '$', n + 1) := by
  rw [doubleQuoted?, if_neg hq]
  · rintro rfl
    exact absurd rfl hb
  · intro d es rfl
    exact absurd rfl hb

/-- White space is part of a string. -/
theorem doubleQuoted?_spaces {q : Char} (hq : isSpace q = false) {m : List Char}
    (hm : m.all isSpace = true) (cs : List Char) :
    doubleQuoted? q (m ++ cs) = (doubleQuoted? q cs).map fun (plain, n) => (plain, m.length + n) := by
  induction m with
  | nil => simp
  | cons c m ih =>
    obtain ⟨hspace, hm⟩ := Bool.and_eq_true_iff.1 hm
    have hc : c ≠ '\\' ∧ c ≠ '$' ∧ c ≠ q := by
      refine ⟨?_, ?_, ?_⟩
      · rintro rfl
        exact absurd hspace (by decide)
      · rintro rfl
        exact absurd hspace (by decide)
      · rintro rfl
        rw [hspace] at hq
        cases hq
    rw [List.cons_append, doubleQuoted?_plain hc.1 hc.2.2, ih hm, Option.map_map]
    congr 1
    funext p
    simp only [Function.comp_apply, List.length_cons, Prod.mk.injEq, bne_iff_ne.2 hc.2.1,
      Bool.and_true, true_and]
    omega

/-- A string up to a quote ends where it did. -/
theorem doubleQuoted?_reflows {q : Char} (hq : isSpace q = false) {cs ds : List Char}
    (h : Reflows tail cs ds) {plain : Bool} {n : Nat} (hs : doubleQuoted? q cs = some (plain, n)) :
    ∃ plain' n', doubleQuoted? q ds = some (plain', n') ∧ Reflows tail (cs.drop n) (ds.drop n') := by
  have hspaces {w cs : List Char} (hw : w.all isSpace = true) {plain : Bool} {n : Nat}
      (hs : doubleQuoted? q (w ++ cs) = some (plain, n)) :
      ∃ k, doubleQuoted? q cs = some (plain, k) ∧ n = w.length + k := by
    rw [doubleQuoted?_spaces hq hw] at hs
    obtain ⟨⟨p, k⟩, hk, he⟩ := Option.map_eq_some_iff.1 hs
    obtain ⟨rfl, rfl⟩ := Prod.mk.inj he
    exact ⟨k, hk, rfl⟩
  have hnone {w : List Char} (hw : w.all isSpace = true) {plain : Bool} {n : Nat} :
      doubleQuoted? q w ≠ some (plain, n) := fun hs => by
    rw [← List.append_nil w] at hs
    obtain ⟨k, hk, -⟩ := hspaces hw hs
    cases hk
  have hpair (d : Char) (more : List Char) : doubleQuoted? q ('\\' :: d :: more) =
      (doubleQuoted? q more).map fun (_, n) => (false, n + 2) := by
    rw [doubleQuoted?]
  cases h with
  | nil hw => exact absurd hs (hnone hw)
  | @cons cs ds c h =>
    by_cases hb : c = '\\'
    · subst hb
      cases h with
      | nil hw =>
        cases cs with
        | nil => cases hs
        | cons d more =>
          rw [hpair] at hs
          obtain ⟨p, hk, -⟩ := Option.map_eq_some_iff.1 hs
          exact absurd hk (hnone (Bool.and_eq_true_iff.1 hw).2)
      | @cons cs ds d h =>
        rw [hpair] at hs
        obtain ⟨⟨u, k⟩, hk, he⟩ := Option.map_eq_some_iff.1 hs
        obtain ⟨rfl, rfl⟩ := Prod.mk.inj he
        obtain ⟨p', n', hv, hi⟩ := doubleQuoted?_reflows hq h hk
        exact ⟨false, n' + 2, by rw [hpair, hv]; rfl, hi⟩
      | @gap w w' cs ds hw hw' h =>
        -- the backslash escapes the first character of the break
        obtain ⟨d, w, rfl⟩ := List.exists_cons_of_ne_nil (List.ne_nil_of_mem hw.newline)
        obtain ⟨d', w', rfl⟩ := List.exists_cons_of_ne_nil (List.ne_nil_of_mem hw'.newline)
        rw [List.cons_append, hpair] at hs
        obtain ⟨⟨u, k⟩, hk, he⟩ := Option.map_eq_some_iff.1 hs
        obtain ⟨rfl, rfl⟩ := Prod.mk.inj he
        obtain ⟨j, hj, rfl⟩ := hspaces (Bool.and_eq_true_iff.1 hw.space).2 hk
        obtain ⟨p', j', hj', hi⟩ := doubleQuoted?_reflows hq h hj
        refine ⟨false, w'.length + j' + 2, ?_, ?_⟩
        · rw [List.cons_append, hpair, doubleQuoted?_spaces hq (Bool.and_eq_true_iff.1 hw'.space).2, hj']
          rfl
        · simp only [List.cons_append, List.drop_succ_cons, List.drop_length_add_append]
          exact hi
    by_cases hc : c = q
    · subst hc
      have hend (cs : List Char) : doubleQuoted? c (c :: cs) = some (true, 1) := by
        simp [doubleQuoted?, hb]
      rw [hend] at hs
      obtain ⟨rfl, rfl⟩ := Prod.mk.inj (Option.some.inj hs)
      exact ⟨true, 1, hend ds, h⟩
    · rw [doubleQuoted?_plain hb hc] at hs
      obtain ⟨⟨u, k⟩, hk, he⟩ := Option.map_eq_some_iff.1 hs
      obtain ⟨rfl, rfl⟩ := Prod.mk.inj he
      obtain ⟨p', n', hv, hi⟩ := doubleQuoted?_reflows hq h hk
      exact ⟨p' && c != '$', n' + 1, by rw [doubleQuoted?_plain hb hc, hv]; rfl, hi⟩
  | @gap w w' cs ds hw hw' h =>
    have := List.length_pos_iff.2 (List.ne_nil_of_mem hw.newline)
    obtain ⟨k, hk, rfl⟩ := hspaces hw.space hs
    obtain ⟨p', k', hk', hi⟩ := doubleQuoted?_reflows hq h hk
    refine ⟨p', w'.length + k', by rw [doubleQuoted?_spaces hq hw'.space, hk']; rfl, ?_⟩
    rwa [List.drop_length_add_append, List.drop_length_add_append]
termination_by cs.length
decreasing_by all_goals (subst_vars; simp only [List.length_cons, List.length_append]; omega)

/-! ## Heredocs -/

/-- White space ahead of the rows that are searched for the end of a heredoc is passed over. -/
theorem closingLength?_spaces {label m : List Char} (hne : label ≠ []) (hm : m.all isSpace = true)
    (cs : List Char) :
    closingLength? label (rows (m ++ cs)) = (closingLength? label (rows cs)).map (m.length + ·) := by
  induction m with
  | nil => simp
  | cons c m ih =>
    obtain ⟨hspace, hm⟩ := Bool.and_eq_true_iff.1 hm
    have hblank := isBlank_of_isSpace hspace
    have hlength : (c :: m).length = m.length + 1 := rfl
    have hsum (k : Option Nat) : (k.map (m.length + ·)).map (1 + ·) = k.map ((c :: m).length + ·) := by
      rw [Option.map_map]
      congr 1
      funext k
      simp only [Function.comp_apply, hlength]
      omega
    have hstart (row : List Char) : trimStart (c :: row) = trimStart row :=
      List.dropWhile_cons_of_pos hblank
    rw [← hsum, ← ih hm, List.cons_append]
    by_cases hc : c = '\n'
    · have hempty : closesRow label ['\n'] = false := by
        cases label with
        | nil => exact absurd rfl hne
        | cons d label => rfl
      rw [rows, if_pos hc, hc, closingLength?_cons, if_neg (by simp [hempty])]
      rfl
    · rw [rows, if_neg hc]
      cases hrows : rows (m ++ cs) with
      | nil =>
        have hrow : closesRow label [c] = false := by
          rw [closesRow, hstart]
          cases label with
          | nil => exact absurd rfl hne
          | cons d label => rfl
        dsimp only
        rw [closingLength?_cons, if_neg (by simp [hrow])]
        rfl
      | cons row rest =>
        have hrow : closesRow label (c :: row) = closesRow label row := by
          rw [closesRow, hstart, closesRow]
        dsimp only
        rw [closingLength?_cons, closingLength?_cons, hrow, List.takeWhile_cons_of_pos hblank,
          List.length_cons, List.length_cons]
        split
        · rw [Option.map_some]
          congr 1
          omega
        · rw [Option.map_map]
          congr 1
          funext k
          simp only [Function.comp_apply]
          omega

/-- A label that does not end in white space. -/
def IsSettled (label : List Char) : Prop := ∀ c ∈ label.getLast?, isBlank c = false

/-- White space behind a row does not change whether the row closes a heredoc. -/
theorem closesRow_spaces {label e : List Char} (hlabel : IsSettled label) (he : e.all isSpace = true)
    (l : List Char) : closesRow label (l ++ e) = closesRow label l := by
  have hblank := blank_of_spaces he
  have hends : Ends e := by
    have := ends_of_spaces he ends_nil
    rwa [List.append_nil] at this
  have hident (r : List Char) : (r ++ e).head?.any isIdentChar = r.head?.any isIdentChar :=
    any_head?_ends hends failsStops_isIdentChar
  have hstart : trimStart (l ++ e) = if (trimStart l).isEmpty then [] else trimStart l ++ e := by
    rw [trimStart, trimStart, List.dropWhile_append]
    split
    · exact dropWhile_blank hblank
    · rfl
  by_cases hnil : (trimStart l).isEmpty = true
  · rw [closesRow, closesRow, hstart, if_pos hnil, List.isEmpty_iff.1 hnil]
  rw [Bool.eq_iff_iff, closesRow_iff, closesRow_iff, hstart, if_neg hnil]
  constructor
  · rintro ⟨after, hrow, hafter⟩
    -- the last character of the label is not in the white space
    obtain ⟨r, hr, hsplit⟩ | ⟨r, rfl, hr⟩ : (∃ r, label = trimStart l ++ r ∧ e = r ++ after) ∨
        ∃ r, after = r ++ e ∧ trimStart l = label ++ r := by
      rcases List.append_eq_append_iff.1 hrow with ⟨r, hr, he⟩ | ⟨r, hr, he⟩
      · exact .inl ⟨r, hr, he⟩
      · exact .inr ⟨r, he, hr⟩
    · cases hlast : r.getLast? with
      | none =>
        rw [List.getLast?_eq_none_iff] at hlast
        subst hlast
        exact ⟨[], by rw [hr, List.append_nil, List.append_nil], rfl⟩
      | some c =>
        have hmem : c ∈ e := by
          rw [hsplit]
          exact List.mem_append_left _ (List.mem_of_getLast? hlast)
        have hnot := hlabel c (by rw [hr, List.getLast?_append, hlast]; rfl)
        rw [List.all_eq_true.1 hblank c hmem] at hnot
        cases hnot
    · exact ⟨r, hr, (hident r).symm.trans hafter⟩
  · rintro ⟨after, hrow, hafter⟩
    exact ⟨after ++ e, by rw [hrow, List.append_assoc], (hident after).trans hafter⟩

/-- The white space at the front of a row that closes a heredoc, and the label, are on the line. -/
theorem takeWhile_closesRow {label l : List Char} (hne : label ≠ []) (h : closesRow label l = true)
    (e : List Char) : (l ++ e).takeWhile isBlank = l.takeWhile isBlank ∧
      (l.takeWhile isBlank).length + label.length ≤ l.length := by
  obtain ⟨after, hrow, -⟩ := closesRow_iff.1 h
  have hlength : (l.takeWhile isBlank).length + (trimStart l).length = l.length := by
    rw [trimStart, ← List.length_append, List.takeWhile_append_dropWhile]
  have hle : label.length ≤ (trimStart l).length := by
    rw [hrow, List.length_append]
    exact Nat.le_add_right ..
  have hpos := List.length_pos_iff.2 hne
  have hshort : (l.takeWhile isBlank).length ≠ l.length := by omega
  exact ⟨by rw [List.takeWhile_append, if_neg hshort], by omega⟩

/-- A text that starts with a line is searched on that line first. -/
theorem closingLength?_line {label l a b : List Char} (hlabel : IsSettled label) (hne : label ≠ [])
    (hl : '\n' ∉ l) (ha : '\n' ∉ a) (hspaces : a.all isSpace = true) (hb : EndsLine b) :
    closingLength? label (rows (l ++ (a ++ b))) =
      if closesRow label l then some ((l.takeWhile isBlank).length + label.length)
      else (closingLength? label (rows (b.drop 1))).map (l.length + a.length + 1 + ·) := by
  have hnone : '\n' ∉ l ++ a := by simp [hl, ha]
  have hrow (row : List Char) (rest : List (List Char)) {e : List Char} (he : e.all isSpace = true)
      (hrow : row = l ++ e) : closingLength? label (row :: rest) =
        if closesRow label l then some ((l.takeWhile isBlank).length + label.length)
        else (closingLength? label rest).map (row.length + ·) := by
    rw [closingLength?_cons, hrow, closesRow_spaces hlabel he]
    split
    · next hclose => rw [(takeWhile_closesRow hne hclose e).1]
    · rfl
  cases b with
  | nil =>
    rw [List.append_nil]
    by_cases hnil : l ++ a = []
    · have hclose : closesRow label l = false := by
        rw [(List.append_eq_nil_iff.1 hnil).1]
        cases label with
        | nil => exact absurd rfl hne
        | cons d label => rfl
      rw [hnil, if_neg (by simp [hclose])]
      rfl
    · rw [rows_of_not_mem hnone hnil, hrow _ _ hspaces rfl]
      rfl
  | cons c b =>
    obtain rfl := hb c rfl
    have htext : l ++ (a ++ '\n' :: b) = (l ++ a) ++ '\n' :: b := (List.append_assoc ..).symm
    have hnewline : (a ++ ['\n']).all isSpace = true := by
      rw [List.all_append, hspaces]
      rfl
    have hlength : (l ++ a ++ ['\n']).length = l.length + a.length + 1 := by
      simp only [List.length_append, List.length_singleton]
    rw [htext, rows_append hnone, hrow _ _ hnewline (List.append_assoc ..), hlength]
    rfl

/-- White space up to its first newline. -/
theorem exists_spaces_line {w : List Char} (hw : w.all isSpace = true) :
    ∃ a b, w = a ++ b ∧ '\n' ∉ a ∧ a.all isSpace = true ∧ b.all isSpace = true ∧ EndsLine b := by
  by_cases hn : '\n' ∈ w
  · obtain ⟨a, b, rfl, ha, hsa, hsb⟩ := IsBreak.exists_newline ⟨hw, hn⟩
    exact ⟨a, '\n' :: b, rfl, ha, hsa, (IsBreak.cons hsb).space, fun c hc => (Option.some.inj hc).symm⟩
  · exact ⟨w, [], (List.append_nil w).symm, hn, hw, rfl, fun c hc => by cases hc⟩

/-- A heredoc ends where it did. -/
theorem closingLength?_reflows (ht : EndsLine tail) {label cs ds : List Char}
    (hlabel : IsSettled label) (hne : label ≠ []) (h : Reflows tail cs ds) {n : Nat}
    (hn : closingLength? label (rows cs) = some n) :
    ∃ n', closingLength? label (rows ds) = some n' ∧ Reflows tail (cs.drop n) (ds.drop n') := by
  obtain ⟨l, r, s, rfl, rfl, hl, hrs, hcases⟩ := h.exists_line
  have hline {a b : List Char} (ha : '\n' ∉ a) (hsa : a.all isSpace = true) (hb : EndsLine b) :=
    closingLength?_line hlabel hne hl ha hsa hb
  have hdrop (hclose : closesRow label l = true) :
      Reflows tail ((l ++ r).drop ((l.takeWhile isBlank).length + label.length))
        ((l ++ s).drop ((l.takeWhile isBlank).length + label.length)) :=
    hrs.drop_line (takeWhile_closesRow hne hclose []).2
  rcases hcases with ⟨hspaces, rfl⟩ | ⟨w, w', r₀, s₀, rfl, rfl, hw, hw', hi⟩
  · -- nothing but white space follows the line, so the line closes the heredoc
    obtain ⟨a, b, rfl, ha, hsa, hsb, hb⟩ := exists_spaces_line hspaces
    have hnone : closingLength? label (rows (b.drop 1)) = none := by
      have hsb' : (b.drop 1).all isSpace = true :=
        List.all_eq_true.2 fun c hc => List.all_eq_true.1 hsb c (List.mem_of_mem_drop hc)
      have hempty := closingLength?_spaces hne hsb' []
      rwa [List.append_nil] at hempty
    have htail := @hline [] s List.not_mem_nil rfl ht
    rw [List.nil_append] at htail
    rw [hline ha hsa hb, hnone] at hn
    rw [htail]
    by_cases hclose : closesRow label l = true
    · rw [if_pos hclose] at hn ⊢
      obtain rfl := Option.some.inj hn
      exact ⟨_, rfl, hdrop hclose⟩
    · rw [if_neg hclose] at hn
      cases hn
  · have hpos := List.length_pos_iff.2 (List.ne_nil_of_mem hw.newline)
    obtain ⟨a, b, rfl, ha, hsa, hsb⟩ := hw.exists_newline
    obtain ⟨a', b', rfl, ha', hsa', hsb'⟩ := hw'.exists_newline
    have hnewline {t : List Char} : EndsLine ('\n' :: t) := fun c hc => (Option.some.inj hc).symm
    have hbehind (a b r₀ : List Char) (k : Nat) :
        (l ++ (a ++ '\n' :: b ++ r₀)).drop (l.length + a.length + 1 + (b.length + k)) = r₀.drop k := by
      have htext : l ++ (a ++ '\n' :: b ++ r₀) = (l ++ a ++ ['\n']) ++ (b ++ r₀) := by simp
      have hlength : l.length + a.length + 1 = (l ++ a ++ ['\n']).length := by
        simp only [List.length_append, List.length_singleton]
      rw [htext, hlength, List.drop_length_add_append, List.drop_length_add_append]
    rw [List.append_assoc, List.cons_append, hline ha hsa hnewline] at hn
    rw [List.append_assoc a', List.cons_append, hline ha' hsa' hnewline]
    by_cases hclose : closesRow label l = true
    · rw [if_pos hclose] at hn ⊢
      obtain rfl := Option.some.inj hn
      refine ⟨_, rfl, ?_⟩
      have := hdrop hclose
      rwa [List.append_assoc a', List.cons_append] at this
    · rw [if_neg hclose, List.drop_one, List.tail_cons, closingLength?_spaces hne hsb] at hn
      rw [if_neg hclose, List.drop_one, List.tail_cons, closingLength?_spaces hne hsb']
      obtain ⟨_, hfound, rfl⟩ := Option.map_eq_some_iff.1 hn
      obtain ⟨k, hk, rfl⟩ := Option.map_eq_some_iff.1 hfound
      obtain ⟨k', hk', hi'⟩ := closingLength?_reflows ht hlabel hne hi hk
      refine ⟨l.length + a'.length + 1 + (b'.length + k'), by rw [hk']; rfl, ?_⟩
      have hfront := hbehind a' b' s₀ k'
      rw [List.append_assoc a', List.cons_append] at hfront
      rw [hbehind, hfront]
      exact hi'
termination_by cs.length
decreasing_by
  subst_vars
  simp only [List.length_append, List.length_cons]
  omega

/-! ## Tokens -/

/-- The label of the heredoc whose first two angle brackets stand ahead of a text. -/
def labelBehind? (cs : List Char) : Option (List Char) :=
  (splitOnce? ['\n'] (cs.drop 2)).map fun p => trimWhile isLabelQuote (trim p.1)

/-- Kinds of tokens that are the same but for the values of strings. -/
def Alike (k k' : TokenKind) : Prop := k' = k ∨ ∃ v v', k = .string v ∧ k' = .string v'

/-- What a scan finds in another layout, given what it found in the text. -/
def Follows (tail cs ds : List Char) (kind : TokenKind) (n : Nat) (s : Scan) : Prop :=
  ∃ kind' n', s = .ok (kind', n') ∧ Alike kind kind' ∧ Reflows tail (cs.drop n) (ds.drop n')

/-- The label of a heredoc is the same with white space behind its first line. -/
theorem label_spaces {e : List Char} (he : e.all isSpace = true) (l : List Char) :
    trimWhile isLabelQuote (trim (l ++ e)) = trimWhile isLabelQuote (trim l) := by
  rw [trim_append_end (blank_of_spaces he)]

/-- A heredoc is a string that ends where it did. -/
theorem scanHeredoc_reflows (ht : EndsLine tail) (h : Reflows tail cs ds)
    (hp : ['<', '<'].isPrefixOf cs = true) (hlabel : ∀ label ∈ labelBehind? cs, IsSettled label)
    {kind : TokenKind} {n : Nat} (hs : scanHeredoc cs = .ok (kind, n)) :
    Follows tail cs ds kind n (scanHeredoc ds) := by
  obtain ⟨body, rfl⟩ := List.isPrefixOf_iff_prefix.1 hp
  obtain ⟨es, rfl, hes⟩ := h.exists_cons (by decide)
  obtain ⟨fs, rfl, hfs⟩ := Reflows.exists_cons (by decide) hes
  obtain ⟨l, r, s, rfl, rfl, hl, -, hcases⟩ := hfs.exists_line
  have htwo (body : List Char) : (['<', '<'] ++ body).drop 2 = body := rfl
  have hsplit {a : List Char} (ha : '\n' ∉ a) (f : List Char) :
      splitOnce? ['\n'] (l ++ (a ++ '\n' :: f)) = some (l ++ a, f) := by
    have htext : l ++ (a ++ '\n' :: f) = (l ++ a) ++ '\n' :: f := (List.append_assoc ..).symm
    rw [htext, (splitOnce?_newline (by simp [hl, ha]) f).1]
  have hfound {a f : List Char} (ha : '\n' ∉ a) (hsa : a.all isSpace = true) :
      scanHeredoc ('<' :: '<' :: (l ++ (a ++ '\n' :: f))) =
        if (trimWhile isLabelQuote (trim l)).isEmpty then fault .missingHeredocLabel 3
        else (closingLength? (trimWhile isLabelQuote (trim l)) (rows f)).elim
          (fault .unterminatedHeredoc 3) fun n => .ok (.string none, 2 + (l ++ a).length + 1 + n) := by
    have hbody : ('<' :: '<' :: (l ++ (a ++ '\n' :: f))).drop 2 = l ++ (a ++ '\n' :: f) := rfl
    rw [scanHeredoc, hbody, hsplit ha f]
    dsimp only
    rw [label_spaces hsa]
    cases closingLength? (trimWhile isLabelQuote (trim l)) (rows f) <;> rfl
  have hbehind (a : List Char) (k : Nat) (f : List Char) :
      ('<' :: '<' :: (l ++ (a ++ '\n' :: f))).drop (2 + (l ++ a).length + 1 + k) = f.drop k := by
    have hfront : '<' :: '<' :: (l ++ (a ++ '\n' :: f)) = ('<' :: '<' :: (l ++ a ++ ['\n'])) ++ f := by
      simp
    have hlength : ('<' :: '<' :: (l ++ a ++ ['\n'])).length = 2 + (l ++ a).length + 1 := by
      simp only [List.length_cons, List.length_append, List.length_nil]
      omega
    rw [hfront, ← hlength, List.drop_length_add_append]
  rcases hcases with ⟨hspaces, -⟩ | ⟨w, w', r₀, s₀, rfl, rfl, hw, hw', hi⟩
  · -- behind the first line there is no row that could close the heredoc
    exfalso
    obtain ⟨a, b, rfl, ha, hsa, hsb, hb⟩ := exists_spaces_line hspaces
    cases b with
    | nil =>
      rw [List.append_nil, scanHeredoc, htwo,
        (splitOnce?_newline (by simp [hl, ha] : '\n' ∉ l ++ a) []).2] at hs
      cases hs
    | cons c b =>
      obtain rfl := hb c rfl
      rw [List.cons_append, List.cons_append, List.nil_append, hfound ha hsa] at hs
      by_cases hempty : (trimWhile isLabelQuote (trim l)).isEmpty = true
      · rw [if_pos hempty] at hs
        cases hs
      · have hnone := closingLength?_spaces (fun hnil => hempty (List.isEmpty_iff.2 hnil))
          (Bool.and_eq_true_iff.1 hsb).2 []
        rw [List.append_nil] at hnone
        rw [if_neg hempty, hnone] at hs
        cases hs
  · obtain ⟨a, b, rfl, ha, hsa, hsb⟩ := hw.exists_newline
    obtain ⟨a', b', rfl, ha', hsa', hsb'⟩ := hw'.exists_newline
    have htext (a b r : List Char) : '<' :: '<' :: (l ++ (a ++ '\n' :: b ++ r)) =
        '<' :: '<' :: (l ++ (a ++ '\n' :: (b ++ r))) := by simp
    rw [List.cons_append, List.cons_append, List.nil_append, htext] at hs hlabel ⊢
    rw [htext]
    rw [hfound ha hsa] at hs
    by_cases hempty : (trimWhile isLabelQuote (trim l)).isEmpty = true
    · rw [if_pos hempty] at hs
      cases hs
    · have hne : trimWhile isLabelQuote (trim l) ≠ [] := fun hnil => hempty (List.isEmpty_iff.2 hnil)
      have hsettled : IsSettled (trimWhile isLabelQuote (trim l)) := by
        refine hlabel _ ?_
        have hbody : ('<' :: '<' :: (l ++ (a ++ '\n' :: (b ++ r₀)))).drop 2 =
            l ++ (a ++ '\n' :: (b ++ r₀)) := rfl
        rw [labelBehind?, hbody, hsplit ha, Option.map_some, label_spaces hsa]
        rfl
      rw [if_neg hempty, closingLength?_spaces hne hsb] at hs
      cases hk : closingLength? (trimWhile isLabelQuote (trim l)) (rows r₀) with
      | none =>
        rw [hk] at hs
        cases hs
      | some k =>
        rw [hk] at hs
        obtain ⟨rfl, rfl⟩ := Prod.mk.inj (Except.ok.inj hs)
        obtain ⟨k', hk', hdrop⟩ := closingLength?_reflows ht hsettled hne hi hk
        refine ⟨.string none, 2 + (l ++ a').length + 1 + (b'.length + k'), ?_, .inl rfl, ?_⟩
        · rw [hfound ha' hsa', if_neg hempty, closingLength?_spaces hne hsb', hk']
          rfl
        · rw [hbehind, hbehind, List.drop_length_add_append, List.drop_length_add_append]
          exact hdrop

/-- A doc comment ends where it did. -/
theorem scanDoc_reflows (ht : EndsLine tail) (h : Reflows tail (cs.drop 2) (ds.drop 2))
    {kind : TokenKind} {n : Nat} (hs : scanDoc cs = .ok (kind, n)) :
    Follows tail cs ds kind n (scanDoc ds) := by
  rw [scanDoc] at hs ⊢
  split at hs
  · next k hk =>
    obtain ⟨rfl, rfl⟩ := Prod.mk.inj (Except.ok.inj hs)
    obtain ⟨k', hk', hdrop⟩ := indexOf?_starSlash_reflows ht h hk
    rw [hk']
    refine ⟨_, k' + 4, rfl, .inl rfl, ?_⟩
    simpa only [List.drop_drop, Nat.add_comm, Nat.add_left_comm, Nat.reduceAdd] using hdrop
  · cases hs

/-- A string in single quotes is one that ends where it did. -/
theorem scanSingleQuoted_reflows (ht : EndsLine tail) (h : Reflows tail cs ds) {kind : TokenKind}
    {n : Nat} (hs : scanSingleQuoted cs = .ok (kind, n)) :
    Follows tail cs ds kind n (scanSingleQuoted ds) := by
  rw [scanSingleQuoted] at hs ⊢
  split at hs
  · next v k hk =>
    obtain ⟨rfl, rfl⟩ := Prod.mk.inj (Except.ok.inj hs)
    obtain ⟨v', k', hk', hdrop⟩ := singleQuoted?_reflows ht h hk
    rw [hk']
    exact ⟨_, k', rfl, .inr ⟨_, _, rfl, rfl⟩, hdrop⟩
  · cases hs

/-- A string up to a quote is one that ends where it did. -/
theorem scanDoubleQuoted_reflows {q : Char} (hq : isSpace q = false) (h : Reflows tail cs ds)
    {kind : TokenKind} {n : Nat} (hs : scanDoubleQuoted q cs = .ok (kind, n)) :
    Follows tail cs ds kind n (scanDoubleQuoted q ds) := by
  rw [scanDoubleQuoted] at hs ⊢
  split at hs
  · next v k hk =>
    obtain ⟨rfl, rfl⟩ := Prod.mk.inj (Except.ok.inj hs)
    obtain ⟨v', k', hk', hdrop⟩ := doubleQuoted?_reflows hq h hk
    rw [hk']
    exact ⟨_, k', rfl, .inr ⟨_, _, rfl, rfl⟩, hdrop⟩
  · cases hs

/-- A token ends where it did. -/
theorem scan_reflows (ht : EndsLine tail) (h : Reflows tail cs ds) {c : Char}
    (hlabel : c = '<' → ['<', '<'].isPrefixOf cs = true → ∀ label ∈ labelBehind? cs, IsSettled label)
    {kind : TokenKind} {n : Nat} (hs : scan c cs = .ok (kind, n)) (hk : kind ≠ .closeTag) :
    Follows tail cs ds kind n (scan c ds) := by
  obtain ⟨l, r, s, hcs, hds, -, hrs, hcases⟩ := h.exists_line
  obtain ⟨hr, hs'⟩ := Reflows.ends_of_cases ht hcases
  have hstart {p : List Char} (hp : p.any isStop = false) : p.isPrefixOf ds = p.isPrefixOf cs := by
    rw [hcs, hds, isPrefixOf_ends hr hp, isPrefixOf_ends hs' hp]
  have hhead {x : Char} (hx : isStop x = false) : ds.head? = some x ↔ cs.head? = some x := by
    rw [hcs, hds, head?_ends hr hx, head?_ends hs' hx]
  have hany : ds.head?.any isIdentStart = cs.head?.any isIdentStart := by
    rw [hcs, hds, any_head?_ends hr failsStops_isIdentStart, any_head?_ends hs' failsStops_isIdentStart]
  have hcut {n : Nat} (hn : n ≤ l.length) : Reflows tail (cs.drop n) (ds.drop n) := by
    rw [hcs, hds]
    exact hrs.drop_line hn
  have hnext {x : Char} (hx : isStop x = false) (hc : cs.head? = some x) : 1 ≤ l.length := by
    rw [hcs, head?_ends hr hx] at hc
    exact List.length_pos_iff.2 fun hnil => by simp [hnil] at hc
  unfold scan at hs ⊢
  rw [hstart (p := ['*', '*']) (by decide), hstart (p := ['<', '<']) (by decide),
    hstart (p := ['.', '.']) (by decide), hany]
  simp only [hhead (x := '[') (by decide), hhead (x := '>') (by decide), hhead (x := ':') (by decide)]
  have hfits {p : List Char} (hp : p.any isStop = false) (hc : p.isPrefixOf cs = true) :
      p.length ≤ l.length := by
    rw [hcs, isPrefixOf_ends hr hp] at hc
    exact (List.isPrefixOf_iff_prefix.1 hc).length_le
  by_cases hdoc : c = '/' ∧ ['*', '*'].isPrefixOf cs = true
  · rw [if_pos hdoc] at hs ⊢
    exact scanDoc_reflows ht (hcut (hfits (p := ['*', '*']) (by decide) hdoc.2)) hs
  rw [if_neg hdoc] at hs ⊢
  by_cases hattribute : c = '#' ∧ cs.head? = some '['
  · rw [if_pos hattribute] at hs ⊢
    obtain ⟨rfl, rfl⟩ := Prod.mk.inj (Except.ok.inj hs)
    exact ⟨_, _, rfl, .inl rfl, hcut (hnext (by decide) hattribute.2)⟩
  rw [if_neg hattribute] at hs ⊢
  by_cases hclose : c = '?' ∧ cs.head? = some '>'
  · rw [if_pos hclose] at hs
    rw [scanCloseTag] at hs
    split at hs
    · exact absurd (Prod.mk.inj (Except.ok.inj hs)).1.symm hk
    · cases hs
  rw [if_neg hclose] at hs ⊢
  by_cases hheredoc : c = '<' ∧ ['<', '<'].isPrefixOf cs = true
  · rw [if_pos hheredoc] at hs ⊢
    exact scanHeredoc_reflows ht h hheredoc.2 (hlabel hheredoc.1 hheredoc.2) hs
  rw [if_neg hheredoc] at hs ⊢
  by_cases harrow : c = '=' ∧ cs.head? = some '>'
  · rw [if_pos harrow] at hs ⊢
    obtain ⟨rfl, rfl⟩ := Prod.mk.inj (Except.ok.inj hs)
    exact ⟨_, _, rfl, .inl rfl, hcut (hnext (by decide) harrow.2)⟩
  rw [if_neg harrow] at hs ⊢
  by_cases hcolon : c = ':' ∧ cs.head? = some ':'
  · rw [if_pos hcolon] at hs ⊢
    obtain ⟨rfl, rfl⟩ := Prod.mk.inj (Except.ok.inj hs)
    exact ⟨_, _, rfl, .inl rfl, hcut (hnext (by decide) hcolon.2)⟩
  rw [if_neg hcolon] at hs ⊢
  by_cases hellipsis : c = '.' ∧ ['.', '.'].isPrefixOf cs = true
  · rw [if_pos hellipsis] at hs ⊢
    obtain ⟨rfl, rfl⟩ := Prod.mk.inj (Except.ok.inj hs)
    exact ⟨_, _, rfl, .inl rfl, hcut (hfits (by decide) hellipsis.2)⟩
  rw [if_neg hellipsis] at hs ⊢
  by_cases hvar : c = '$' ∧ cs.head?.any isIdentStart = true
  · rw [if_pos hvar] at hs ⊢
    obtain ⟨rfl, rfl⟩ := Prod.mk.inj (Except.ok.inj hs)
    rw [hcs, hds, (takeWhile_ends failsStops_isIdentChar hr).1,
      (takeWhile_ends failsStops_isIdentChar hs').1]
    exact ⟨_, _, rfl, .inl rfl, hrs.drop_line (List.takeWhile_sublist _).length_le⟩
  rw [if_neg hvar] at hs ⊢
  by_cases hname : (isIdentStart c || (c == '\\' && cs.head?.any isIdentStart)) = true
  · rw [if_pos hname] at hs ⊢
    obtain ⟨rfl, rfl⟩ := Prod.mk.inj (Except.ok.inj hs)
    rw [hcs, hds, nameLength_ends hr, nameLength_ends hs']
    exact ⟨_, _, rfl, .inl rfl, hrs.drop_line (nameLength_le l)⟩
  rw [if_neg hname] at hs ⊢
  by_cases hdigit : c.isDigit = true
  · rw [if_pos hdigit] at hs ⊢
    rw [hcs, scanNumber_ends _ hr] at hs
    rw [hcs, hds, scanNumber_ends _ hs']
    exact ⟨_, _, hs, .inl rfl, hrs.drop_line (le_of_scanNumber hs)⟩
  rw [if_neg hdigit] at hs ⊢
  by_cases hsingle : c = '\''
  · rw [if_pos hsingle] at hs ⊢
    exact scanSingleQuoted_reflows ht h hs
  rw [if_neg hsingle] at hs ⊢
  by_cases hdouble : c = '"' ∨ c = '`'
  · rw [if_pos hdouble] at hs ⊢
    have hquote : isSpace c = false := by
      rcases hdouble with rfl | rfl <;> rfl
    exact scanDoubleQuoted_reflows hquote h hs
  rw [if_neg hdouble] at hs ⊢
  obtain ⟨rfl, rfl⟩ := Prod.mk.inj (Except.ok.inj hs)
  exact ⟨_, 0, rfl, .inl rfl, h⟩

/-! ## Gaps -/

/-- A plain comment ends where it did. -/
theorem plainComment?_reflows (ht : EndsLine tail) (h : Reflows tail cs ds) {c : Char}
    {length? : Option Nat} (hc : plainComment? c cs = .ok length?) :
    (length? = none ∧ plainComment? c ds = .ok none) ∨
      ∃ n n', length? = some n ∧ plainComment? c ds = .ok (some n') ∧
        Reflows tail (cs.drop n) (ds.drop n') := by
  obtain ⟨l, r, s, hcs, hds, -, hrs, hcases⟩ := h.exists_line
  obtain ⟨hr, hs⟩ := Reflows.ends_of_cases ht hcases
  have hstart {p : List Char} (hp : p.any isStop = false) : p.isPrefixOf ds = p.isPrefixOf cs := by
    rw [hcs, hds, isPrefixOf_ends hr hp, isPrefixOf_ends hs hp]
  have hhead {x : Char} (hx : isStop x = false) : ds.head? = some x ↔ cs.head? = some x := by
    rw [hcs, hds, head?_ends hr hx, head?_ends hs hx]
  have hline := lineComment_reflows ht h
  unfold plainComment? at hc ⊢
  simp only [hstart (p := ['*', '*']) (by decide), hstart (p := ['*', '*', '/']) (by decide),
    hhead (x := '[') (by decide), hhead (x := '/') (by decide), hhead (x := '*') (by decide)]
  by_cases hsharp : c = '#'
  · rw [if_pos hsharp] at hc ⊢
    obtain rfl := Except.ok.inj hc
    split
    · exact .inl ⟨rfl, rfl⟩
    · exact .inr ⟨_, _, rfl, rfl, hline⟩
  rw [if_neg hsharp] at hc ⊢
  by_cases hslash : c = '/' ∧ cs.head? = some '/'
  · rw [if_pos hslash] at hc ⊢
    obtain rfl := Except.ok.inj hc
    exact .inr ⟨_, _, rfl, rfl, hline⟩
  rw [if_neg hslash] at hc ⊢
  by_cases hstar : c = '/' ∧ cs.head? = some '*'
  · rw [if_pos hstar] at hc ⊢
    split at hc
    · obtain rfl := Except.ok.inj hc
      rw [if_pos ‹_›]
      exact .inl ⟨rfl, rfl⟩
    · rw [if_neg ‹_›]
      split at hc
      · next k hk =>
        obtain rfl := Except.ok.inj hc
        have hone : Reflows tail (cs.drop 1) (ds.drop 1) := by
          rw [hcs, hds]
          refine hrs.drop_line (List.length_pos_iff.2 fun hnil => ?_)
          have hnext := hstar.2
          rw [hcs, head?_ends hr (by decide), hnil] at hnext
          cases hnext
        obtain ⟨k', hk', hdrop⟩ := indexOf?_starSlash_reflows ht hone hk
        rw [hk']
        refine .inr ⟨_, k' + 3, rfl, rfl, ?_⟩
        simpa only [List.drop_drop, Nat.add_comm, Nat.add_left_comm, Nat.reduceAdd] using hdrop
      · cases hc
  · rw [if_neg hstar] at hc ⊢
    obtain rfl := Except.ok.inj hc
    exact .inl ⟨rfl, rfl⟩

/-- A gap ends where it did, or else behind the tail's gap. -/
theorem gapLength_reflows (ht : EndsLine tail) {e : Nat} (he : gapLength tail = .ok e)
    {cs ds : List Char} (h : Reflows tail cs ds) {g : Nat} (hg : gapLength cs = .ok g) :
    ∃ g', gapLength ds = .ok g' ∧
      ((∃ c rest rest', cs.drop g = c :: rest ∧ ds.drop g' = c :: rest' ∧ Reflows tail rest rest') ∨
        (cs.drop g = [] ∧ ds.drop g' = tail.drop e)) := by
  obtain ⟨b, es, rfl, hb, hes⟩ := h.exists_blank
  have hsolid {c : Char} {rest : List Char} (hd : cs.dropWhile isBlank = c :: rest) :
      isSpace c = false := Bool.eq_false_iff.2 fun hc => by
    have := isBlank_of_dropWhile hd
    rw [isBlank_of_isSpace hc] at this
    cases this
  have hgap {k : Nat} (hk : gapLength es = .ok k) : gapLength (b ++ es) = .ok (b.length + k) :=
    gapLength_append hb hk
  rcases gapLength_cases hg with ⟨hd, rfl⟩ | ⟨c, rest, hd, hc, rfl⟩ |
    ⟨c, rest, n, more, hd, hc, hm, rfl⟩
  · rw [hd] at hes
    obtain rfl := hes.exists_tail
    refine ⟨_, hgap he, .inr ⟨List.drop_length, ?_⟩⟩
    rw [List.drop_length_add_append]
  · rw [hd] at hes
    obtain ⟨rest', rfl, hi⟩ := hes.exists_cons (hsolid hd)
    have hzero : gapLength (c :: rest') = .ok 0 := by
      obtain ⟨-, hc'⟩ | ⟨_, _, hnone, -⟩ := plainComment?_reflows ht hi hc
      · exact gapLength_cons_token (isBlank_of_dropWhile hd) hc'
      · cases hnone
    refine ⟨_, hgap hzero, .inl ⟨c, rest, rest', ?_, ?_, hi⟩⟩
    · rw [← hd]
      exact drop_takeWhile_add cs 0
    · exact List.drop_length_add_append 0
  · rw [hd] at hes
    obtain ⟨rest', rfl, hi⟩ := hes.exists_cons (hsolid hd)
    obtain ⟨hnone, -⟩ | ⟨k, k', hk, hc', hdrop⟩ := plainComment?_reflows ht hi hc
    · cases hnone
    · obtain rfl := Option.some.inj hk
      obtain ⟨more', hm', hbehind⟩ := gapLength_reflows ht he hdrop hm
      have hcomment : gapLength (c :: rest') = .ok (1 + k' + more') :=
        gapLength_cons_comment (isBlank_of_dropWhile hd) hc' hm'
      have hcs : cs.drop ((cs.takeWhile isBlank).length + (1 + n) + more) = (rest.drop n).drop more := by
        rw [Nat.add_assoc, drop_takeWhile_add, hd, drop_comment]
      have hds : (b ++ c :: rest').drop (b.length + (1 + k' + more')) =
          (rest'.drop k').drop more' := by
        rw [List.drop_length_add_append, drop_comment]
      refine ⟨_, hgap hcomment, ?_⟩
      rw [hcs, hds]
      exact hbehind
termination_by cs.length
decreasing_by
  have := length_dropWhile_le isBlank cs
  rw [hd, List.length_cons] at this
  rw [List.length_drop]
  omega

end PhpGraft.Lexer

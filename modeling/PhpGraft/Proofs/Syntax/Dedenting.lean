import PhpGraft.Proofs.Syntax.Bodies
import PhpGraft.Proofs.Syntax.Reflowing

/-!
# The body of a fragment

The lines of a body are those of the fragment in another layout: the indentation that they have in
common and what trails them is white space, and so are the lines that are dropped. So the body of a
fragment is normal, and written behind margins it is the fragment with other breaks.
-/

namespace PhpGraft

open Lexer Text

/-- A text of ASCII characters without carriage returns. -/
def IsPlainText (cs : List Char) : Prop := ∀ c ∈ cs, c.toNat < 128 ∧ c ≠ '\r'

/-- White space in plain text is white space in ASCII. -/
theorem IsPlainText.spaces {cs w : List Char} (h : IsPlainText cs) (hsub : w ⊆ cs)
    (hw : w.all isBlank = true) : w.all isSpace = true :=
  List.all_eq_true.2 fun c hc => isSpace_of_isBlank (h c (hsub hc)).1 (List.all_eq_true.1 hw c hc)

/-- A text with no white space but that of ASCII at the ends of its lines. -/
def HasPlainEnds (cs : List Char) : Prop :=
  ∀ l ∈ Text.lines cs, (l.takeWhile isBlank).all isSpace = true ∧
    (l.reverse.takeWhile isBlank).all isSpace = true

/-- Plain text has plain ends. -/
theorem IsPlainText.hasPlainEnds {cs : List Char} (h : IsPlainText cs) : HasPlainEnds cs := by
  intro l hl
  have hsub := subset_of_mem_lines hl
  refine ⟨h.spaces ?_ List.all_takeWhile, h.spaces ?_ List.all_takeWhile⟩
  · exact List.Subset.trans (List.takeWhile_sublist _).subset hsub
  · exact fun c hc => hsub (List.mem_reverse.1 ((List.takeWhile_sublist _).subset hc))

namespace HasPlainEnds

variable {cs l b r : List Char}

/-- White space at the front of a line is white space in ASCII. -/
theorem front (h : HasPlainEnds cs) (hl : l ∈ Text.lines cs) (hsplit : l = b ++ r)
    (hb : b.all isBlank = true) : b.all isSpace = true := by
  have hall := (h l hl).1
  rw [hsplit, takeWhile_blank_append hb, List.all_append, Bool.and_eq_true_iff] at hall
  exact hall.1

/-- White space at the end of a line is white space in ASCII. -/
theorem back (h : HasPlainEnds cs) (hl : l ∈ Text.lines cs) (hsplit : l = r ++ b)
    (hb : b.all isBlank = true) : b.all isSpace = true := by
  have hall := (h l hl).2
  rw [hsplit, List.reverse_append, takeWhile_blank_append (by rwa [List.all_reverse]),
    List.all_append, List.all_reverse, Bool.and_eq_true_iff] at hall
  exact hall.1

end HasPlainEnds

/-- A margin is white space in ASCII. -/
theorem Text.IsMargin.spaces {m : List Char} (h : IsMargin m) : m.all isSpace = true :=
  List.all_eq_true.2 fun c hc => by
    rcases h c hc with rfl | rfl <;> rfl

namespace Body

variable {m : List Char} {f : List Char}

/-! ## White space at the ends of a line -/

/-- White space at the end of a text does not matter to what it starts with. -/
theorem isPrefixOf_blank_end {p e : List Char} (hp : ∀ c ∈ p, isBlank c = false)
    (he : e.all isBlank = true) (k : List Char) : p.isPrefixOf (k ++ e) = p.isPrefixOf k := by
  induction p generalizing k with
  | nil => rfl
  | cons c p ih =>
    obtain ⟨hc, hp⟩ := List.forall_mem_cons.1 hp
    cases k with
    | cons d k => rw [List.cons_append, List.isPrefixOf, List.isPrefixOf, ih hp]
    | nil =>
      cases e with
      | nil => rfl
      | cons d e =>
        have hd : isBlank d = true := (Bool.and_eq_true_iff.1 he).1
        have hne : c ≠ d := by
          rintro rfl
          rw [hc] at hd
          cases hd
        simp [List.isPrefixOf, hne]

/-- White space at the end of a line is no part of what the line opens. -/
theorem afterLast?_blank_end {e : List Char} (he : e.all isBlank = true) (k : List Char) :
    afterLast? ['<', '<', '<'] (k ++ e) = (afterLast? ['<', '<', '<'] k).map (· ++ e) := by
  induction k with
  | nil =>
    have hbracket : '<' ∉ e := fun hmem => absurd (List.all_eq_true.1 he _ hmem) (by decide)
    have := afterLast?_append hbracket []
    rwa [List.append_nil] at this
  | cons c k ih =>
    rw [List.cons_append, afterLast?, afterLast?, ih]
    cases afterLast? ['<', '<', '<'] k with
    | some rest => rfl
    | none =>
      have hbracket (d : Char) (hd : d ∈ ['<', '<', '<']) : isBlank d = false := by
        obtain rfl : d = '<' := by simpa using hd
        rfl
      have hprefixed : ['<', '<', '<'].isPrefixOf (c :: k ++ e) = ['<', '<', '<'].isPrefixOf (c :: k) :=
        isPrefixOf_blank_end hbracket he (c :: k)
      show stripPrefix? _ (c :: k ++ e) = (stripPrefix? _ (c :: k)).map (· ++ e)
      rw [stripPrefix?, stripPrefix?, hprefixed]
      split
      · next hfront =>
        have hle := (List.isPrefixOf_iff_prefix.1 hfront).length_le
        rw [List.drop_append_of_le_length hle]
        rfl
      · rfl

/-- A character of an ASCII identifier is no white space. -/
theorem isBlank_of_isAsciiIdentChar {c : Char} (h : isAsciiIdentChar c = true) : isBlank c = false := by
  rw [isAsciiIdentChar_iff] at h
  rw [Bool.eq_false_iff, ne_eq, isBlank_iff (by omega)]
  omega

/-- An identifier holds no white space. -/
theorem isBlank_of_mem_ident {label : List Char} (h : isAsciiIdent label = true) :
    ∀ c ∈ label, isBlank c = false := fun c hc => isBlank_of_isAsciiIdentChar (isAsciiIdentChar_of_mem h c hc)

/-- White space at the end of a text does not continue an identifier. -/
theorem any_head?_blank_end {e : List Char} (he : e.all isBlank = true) (k : List Char) :
    (k ++ e).head?.any isAsciiIdentChar = k.head?.any isAsciiIdentChar := by
  cases k with
  | cons c k => rfl
  | nil =>
    cases e with
    | nil => rfl
    | cons d e =>
      refine Bool.eq_false_iff.2 fun hd => ?_
      have hblank : isBlank d = true := (Bool.and_eq_true_iff.1 he).1
      rw [isBlank_of_isAsciiIdentChar hd] at hblank
      cases hblank

/-- A line opens and closes the same heredocs with white space at its end. -/
theorem twin_end {e : List Char} (he : e.all isBlank = true) (k : List Char) : Twin (k ++ e) k where
  opens := by
    have htrim (rest : List Char) : trim (rest ++ e) = trim rest := trim_append_end he rest
    rw [heredocLabel?, heredocLabel?, afterLast?_blank_end he, Option.bind_map]
    simp only [Function.comp_def, htrim]
  closes label hlabel := by
    by_cases hblank : (k.dropWhile isBlank).isEmpty = true
    · have hk : trimStart k = [] := List.isEmpty_iff.1 hblank
      have hspaces : trimStart (k ++ e) = [] := by
        rw [trimStart, List.dropWhile_append, if_pos hblank, dropWhile_blank he]
      rw [closesHeredoc, closesHeredoc, hk, hspaces]
    · have hspaces : trimStart (k ++ e) = trimStart k ++ e := by
        rw [trimStart, List.dropWhile_append, if_neg hblank]
        rfl
      rw [closesHeredoc, closesHeredoc, hspaces, stripPrefix?, stripPrefix?,
        isPrefixOf_blank_end (isBlank_of_mem_ident hlabel) he]
      by_cases hfront : label.isPrefixOf (trimStart k) = true
      · have hle := (List.isPrefixOf_iff_prefix.1 hfront).length_le
        rw [if_pos hfront, if_pos hfront, List.drop_append_of_le_length hle]
        dsimp only
        rw [any_head?_blank_end he]
      · rw [if_neg hfront, if_neg hfront]

/-- Other white space at the front of a line makes a twin. -/
theorem twin_front {b b' : List Char} (hb : b.all isBlank = true) (hb' : b'.all isBlank = true)
    (l : List Char) : Twin (b ++ l) (b' ++ l) where
  opens := by
    have hopen {b : List Char} (hb : b.all isBlank = true) :
        heredocLabel? (b ++ l) = heredocLabel? l := by
      have hbracket : '<' ∉ b := fun h => absurd (List.all_eq_true.1 hb _ h) (by decide)
      rw [heredocLabel?, afterLast?_append hbracket]
      rfl
    rw [hopen hb, hopen hb']
  closes label _ := by
    have hclose {b : List Char} (hb : b.all isBlank = true) :
        closesHeredoc label (b ++ l) = closesHeredoc label l := by
      have hstart : trimStart (b ++ l) = trimStart l := dropWhile_blank_append hb l
      rw [closesHeredoc, hstart]
      rfl
    rw [hclose hb, hclose hb']

/-- A line opens and closes the same heredocs with other white space at its front and none at its end. -/
theorem twin_ends {b b' c e : List Char} (hb : b.all isBlank = true) (hb' : b'.all isBlank = true)
    (he : e.all isBlank = true) : Twin (b ++ (c ++ e)) (b' ++ c) := by
  have hfront := twin_front hb hb' c
  have hend := twin_end he (b ++ c)
  rw [List.append_assoc] at hend
  exact ⟨hfront.opens.trans hend.opens, fun label hlabel =>
    (hfront.closes label hlabel).trans (hend.closes label hlabel)⟩

/-- A line with other white space at its front, and with none at its end. -/
def Reset (l l' : List Char) : Prop :=
  ∃ b b' c e, b.all isSpace = true ∧ b'.all isSpace = true ∧ e.all isSpace = true ∧
    l = b ++ (c ++ e) ∧ l' = b' ++ c

/-! ## The lines of a fragment -/

/-- The lines of a fragment with their flags. -/
def flagged (f : List Char) : List (List Char × Bool) := (Text.lines f).zip (rawFlags (Text.lines f))

/-- The indentation that the lines of a fragment have in common. -/
def margin (f : List Char) : Nat := commonIndentation (flagged f)

/-- The flags are those of the lines. -/
theorem map_flagged (f : List Char) :
    (flagged f).map Prod.fst = Text.lines f ∧ (flagged f).map Prod.snd = rawFlags (Text.lines f) := by
  have hlength := length_rawFlags (Text.lines f)
  exact ⟨List.map_fst_zip (Nat.le_of_eq hlength.symm), List.map_snd_zip (Nat.le_of_eq hlength)⟩

/-- What is taken off a line is its own indentation. -/
theorem margin_le {p : List Char × Bool} (hp : p ∈ flagged f) (hraw : p.2 = false)
    (hblank : p.1.all isBlank = false) : margin f ≤ indentation p.1 := by
  have hmem : indentation p.1 ∈ widths (flagged f) :=
    List.mem_map.2 ⟨p, List.mem_filter.2 ⟨hp, by rw [hraw, hblank]; rfl⟩, rfl⟩
  change (widths (flagged f)).min?.getD 0 ≤ indentation p.1
  cases hmin : (widths (flagged f)).min? with
  | none =>
    rw [List.min?_eq_none_iff] at hmin
    rw [hmin] at hmem
    cases hmem
  | some w => exact (List.min?_eq_some_iff.1 hmin).2 _ hmem

/-- A line without the white space at its end, with less of the white space at its front. -/
theorem exists_cut {p : List Char × Bool} (hp : p ∈ flagged f) (hraw : p.2 = false) :
    ∃ b c e, p.1 = b ++ (c ++ e) ∧ b.all isBlank = true ∧ e.all isBlank = true ∧
      (∀ x ∈ c.head?, isBlank x = false) ∧ (c = [] → b = []) ∧
      (trimEnd p.1).drop (margin f) = b.drop (margin f) ++ c ∧ (c ≠ [] → margin f ≤ b.length) := by
  by_cases hblank : p.1.all isBlank = true
  · have hnil : trimEnd p.1 = [] := dropTailWhile_eq_nil hblank
    refine ⟨[], [], p.1, rfl, rfl, hblank, fun x hx => (by cases hx), fun _ => rfl, ?_,
      fun h => absurd rfl h⟩
    rw [hnil, List.drop_nil]
    rfl
  · have hsplit : p.1 = p.1.takeWhile isBlank ++ p.1.dropWhile isBlank :=
      List.takeWhile_append_dropWhile.symm
    obtain ⟨e, hend, he⟩ := exists_dropTailWhile isBlank (p.1.dropWhile isBlank)
    have hrest : (p.1.dropWhile isBlank).all isBlank = false := by
      refine Bool.eq_false_iff.2 fun hall => hblank ?_
      rw [hsplit, List.all_append, List.all_takeWhile, hall]
      rfl
    have hle := margin_le hp hraw (Bool.eq_false_iff.2 hblank)
    have hne : trimEnd (p.1.dropWhile isBlank) ≠ [] := by
      intro hnil
      rw [trimEnd] at hnil
      rw [hend, hnil, List.nil_append, he] at hrest
      cases hrest
    refine ⟨p.1.takeWhile isBlank, trimEnd (p.1.dropWhile isBlank), e, ?_, List.all_takeWhile, he, ?_,
      fun h => absurd h hne, ?_, fun _ => hle⟩
    · conv => lhs; rw [hsplit, hend]
      rfl
    · intro x hx
      cases hrow : trimEnd (p.1.dropWhile isBlank) with
      | nil => exact absurd hrow hne
      | cons y more =>
        rw [hrow] at hx
        obtain rfl := Option.some.inj hx
        rw [trimEnd] at hrow
        exact isBlank_of_dropWhile (hend.trans (congrArg (· ++ e) hrow))
    · conv => lhs; rw [hsplit]
      rw [trimEnd, dropTailWhile_append_left hrest, List.drop_append_of_le_length hle]
      rfl

/-- A line of a plain fragment is plain. -/
theorem subset_of_mem_flagged {p : List Char × Bool} (hp : p ∈ flagged f) : p.1 ⊆ f :=
  subset_of_mem_lines (List.of_mem_zip hp).1

/-- A line as it is kept, and written behind a margin, is the line in another layout. -/
theorem reset_written (hf : HasPlainEnds f) (hm : IsMargin m) {p : List Char × Bool}
    (hp : p ∈ flagged f) : Reset p.1 (written m (cutLine (margin f) p)) := by
  obtain ⟨l, raw⟩ := p
  cases raw with
  | true =>
    have hline : written m (cutLine (margin f) (l, true)) = l := String.toList_ofList
    exact ⟨[], [], l, [], rfl, rfl, rfl, (List.append_nil l).symm, hline⟩
  | false =>
    obtain ⟨b, c, e, hl, hb, he, -, hnil, hcut, -⟩ := exists_cut hp rfl
    have hmem := (List.of_mem_zip hp).1
    have hb' := hf.front hmem hl hb
    have he' := hf.back hmem (hl.trans (List.append_assoc ..).symm) he
    have hline : written m (cutLine (margin f) (l, false)) = indented m (b.drop (margin f) ++ c) := by
      rw [← hcut]
      exact congrArg (indented m) String.toList_ofList
    rw [hline]
    by_cases hc : c = []
    · rw [hnil hc, hc, List.drop_nil]
      exact ⟨b, [], [], e, hb', rfl, he', by rw [hl, hc], rfl⟩
    · refine ⟨b, m ++ b.drop (margin f), c, e, hb', ?_, he', hl, ?_⟩
      · rw [List.all_append, hm.spaces, Bool.true_and]
        exact List.all_eq_true.2 fun x hx => List.all_eq_true.1 hb' x (List.mem_of_mem_drop hx)
      · rw [indented, if_neg fun h => hc (List.append_eq_nil_iff.1 h).2, List.append_assoc]

/-! ## The body is normal -/

/-- The lines of a body are lines that were cut, with blank ones ahead of them and behind them. -/
theorem exists_kept (f : List Char) :
    ∃ before kept behind, flagged f = before ++ (kept ++ behind) ∧
      (ofSource f).lines = kept.map (cutLine (margin f)) ∧
      (∀ p ∈ before ++ behind, p.2 = false ∧ p.1.all isBlank = true) ∧
      (∀ l ∈ (ofSource f).lines.head?, l.isDroppable = false) ∧
      ∀ l ∈ (ofSource f).lines.getLast?, l.isDroppable = false := by
  obtain ⟨t, hcut, ht⟩ := exists_dropTailWhile BodyLine.isDroppable (cutLines (Text.lines f))
  let core := dropTailWhile BodyLine.isDroppable (cutLines (Text.lines f))
  have hlines : (ofSource f).lines = core.dropWhile BodyLine.isDroppable := rfl
  have hcore : core.takeWhile BodyLine.isDroppable ++ (ofSource f).lines = core := by
    rw [hlines, List.takeWhile_append_dropWhile]
  have hall : (flagged f).map (cutLine (margin f)) =
      core.takeWhile BodyLine.isDroppable ++ ((ofSource f).lines ++ t) := by
    rw [← List.append_assoc, hcore]
    exact hcut
  obtain ⟨before, rest, hflagged, hbefore, hrest⟩ := List.map_eq_append_iff.1 hall
  obtain ⟨kept, behind, rfl, hkept, hbehind⟩ := List.map_eq_append_iff.1 hrest
  refine ⟨before, kept, behind, hflagged, hkept.symm, ?_, ?_, ?_⟩
  · intro p hp
    have hdrop : (cutLine (margin f) p).isDroppable = true := by
      rcases List.mem_append.1 hp with hp | hp
      · have hall : (core.takeWhile BodyLine.isDroppable).all BodyLine.isDroppable = true :=
          List.all_takeWhile
        refine List.all_eq_true.1 hall _ ?_
        rw [← hbefore]
        exact List.mem_map_of_mem hp
      · refine List.all_eq_true.1 ht _ ?_
        rw [← hbehind]
        exact List.mem_map_of_mem hp
    have hmem : p ∈ flagged f := by
      rw [hflagged]
      rcases List.mem_append.1 hp with hp | hp
      · exact List.mem_append_left _ hp
      · exact List.mem_append_right _ (List.mem_append_right _ hp)
    rw [BodyLine.isDroppable, raw_cutLine, Bool.and_eq_true_iff, Bool.not_eq_true'] at hdrop
    obtain ⟨hraw, hempty⟩ := hdrop
    obtain ⟨b, c, e, hl, hb, he, -, hnil, hcut, -⟩ := exists_cut hmem hraw
    have htext : (cutLine (margin f) p).text = String.ofList (b.drop (margin f) ++ c) := by
      rw [← hcut, cutLine, if_neg (by rw [hraw]; exact Bool.false_ne_true)]
    rw [htext, String.isEmpty_iff, String.ofList_eq_empty_iff, List.append_eq_nil_iff] at hempty
    refine ⟨hraw, ?_⟩
    rw [hl, hnil hempty.2, hempty.2]
    exact he
  · intro l hl
    rw [hlines] at hl
    have := List.head?_dropWhile_not BodyLine.isDroppable core
    rw [Option.mem_def.1 hl] at this
    simpa using this
  · intro l hl
    refine getLast?_dropTailWhile (l := cutLines (Text.lines f)) ?_
    change core.getLast? = some l
    rw [← hcore, List.getLast?_append, Option.mem_def.1 hl]
    rfl

/-- The indentation of a line that was cut is less by what was taken off. -/
theorem widths_cut {ps : List (List Char × Bool)} (h : ∀ p ∈ ps, p ∈ flagged f) :
    (widths (ps.map fun p => ((cutLine (margin f) p).text.toList, p.2))).map (margin f + ·) =
      widths ps := by
  induction ps with
  | nil => rfl
  | cons p ps ih =>
    rw [List.map_cons, widths_cons, widths_cons, ← ih fun p hp => h p (List.mem_cons_of_mem _ hp)]
    cases hraw : p.2 with
    | true => rfl
    | false =>
      obtain ⟨b, c, e, hl, hb, he, hfirst, hnil, hcut, hle⟩ := exists_cut (h p (List.mem_cons_self ..)) hraw
      have htext : (cutLine (margin f) p).text.toList = b.drop (margin f) ++ c := by
        rw [← hcut, cutLine, if_neg (by rw [hraw]; exact Bool.false_ne_true)]
        exact String.toList_ofList
      have hdrop : (b.drop (margin f)).all isBlank = true :=
        List.all_eq_true.2 fun x hx => List.all_eq_true.1 hb x (List.mem_of_mem_drop hx)
      rw [htext, hl]
      cases c with
      | nil =>
        rw [hnil rfl, List.drop_nil]
        simp [he]
      | cons x c =>
        have hx : isBlank x = false := hfirst x rfl
        have hindent {b : List Char} (hb : b.all isBlank = true) (r : List Char) :
            indentation (b ++ x :: r) = b.length := by
          rw [indentation, takeWhile_blank_append hb, List.takeWhile_cons_of_neg (by simp [hx]),
            List.append_nil]
        have hsolid (b r : List Char) : (b ++ x :: r).all isBlank = false := by
          rw [List.all_append, List.all_cons, hx, Bool.false_and, Bool.and_false]
        have hlong := hle (List.cons_ne_nil _ _)
        rw [List.cons_append, hsolid, hsolid, hindent hdrop, hindent hb]
        simp only [Bool.not_false, Bool.and_self, if_true, List.map_cons, List.length_drop]
        congr 1
        omega

/-- No indentation is left that the lines of a body have in common. -/
theorem commonIndentation_kept {kept before behind : List (List Char × Bool)}
    (hflagged : flagged f = before ++ (kept ++ behind))
    (hblank : ∀ p ∈ before ++ behind, p.2 = false ∧ p.1.all isBlank = true) :
    commonIndentation (kept.map fun p => ((cutLine (margin f) p).text.toList, p.2)) = 0 := by
  have hnone {ps : List (List Char × Bool)} (h : ps ⊆ before ++ behind) : widths ps = [] :=
    widths_blank fun p hp => (hblank p (h hp)).2
  have hwidths : widths (flagged f) = widths kept := by
    rw [hflagged, widths_append, widths_append, hnone (List.subset_append_left ..),
      hnone (List.subset_append_right ..), List.append_nil]
    rfl
  have hcut := @widths_cut f kept fun p hp => by
    rw [hflagged]
    exact List.mem_append_right _ (List.mem_append_left _ hp)
  have hmin := congrArg List.min? hcut
  rw [min?_map_add, ← hwidths] at hmin
  change (widths _).min?.getD 0 = 0
  cases h : (widths (kept.map fun p => ((cutLine (margin f) p).text.toList, p.2))).min? with
  | none => rfl
  | some w =>
    rw [h] at hmin
    have hmargin : margin f = margin f + w := by
      conv => lhs; rw [margin, commonIndentation]
      change (widths (flagged f)).min?.getD 0 = margin f + w
      rw [← hmin]
      rfl
    exact Nat.left_eq_add.1 hmargin

/-- Empty lines ahead of the others are not raw. -/
theorem rawFlags_blank_append {α : Type} (xs : List α) (ls : List (List Char)) :
    rawFlags (xs.map (fun _ => []) ++ ls) = xs.map (fun _ => false) ++ rawFlags ls := by
  induction xs with
  | nil => rfl
  | cons x xs ih =>
    rw [List.map_cons, List.map_cons, List.cons_append, List.cons_append, ← ih, rawFlags]
    rfl

/-- A line as it is kept opens and closes the same heredocs. -/
theorem twin_cutLine {p : List Char × Bool} (hp : p ∈ flagged f) :
    Twin p.1 (cutLine (margin f) p).text.toList := by
  cases hraw : p.2 with
  | true =>
    have hline : (cutLine (margin f) p).text.toList = p.1 := by
      rw [cutLine, if_pos hraw]
      exact String.toList_ofList
    rw [hline]
    exact .refl _
  | false =>
    obtain ⟨b, c, e, hl, hb, he, -, -, hcut, -⟩ := exists_cut hp hraw
    have hline : (cutLine (margin f) p).text.toList = b.drop (margin f) ++ c := by
      rw [← hcut, cutLine, if_neg (by rw [hraw]; exact Bool.false_ne_true)]
      exact String.toList_ofList
    rw [hline, hl]
    exact twin_ends hb (List.all_eq_true.2 fun x hx => List.all_eq_true.1 hb x (List.mem_of_mem_drop hx)) he

/-- The flags of the lines of a body are those that they had. -/
theorem rawFlags_kept {kept before behind : List (List Char × Bool)}
    (hflagged : flagged f = before ++ (kept ++ behind))
    (hblank : ∀ p ∈ before ++ behind, p.2 = false ∧ p.1.all isBlank = true) :
    rawFlags (kept.map fun p => (cutLine (margin f) p).text.toList) = kept.map Prod.snd := by
  let text (p : List Char × Bool) : List Char := (cutLine (margin f) p).text.toList
  have htwins : ∀ q ∈ (flagged f).map (fun p => (p.1, text p)), Twin q.1 q.2 := by
    intro q hq
    obtain ⟨p, hp, rfl⟩ := List.mem_map.1 hq
    exact twin_cutLine hp
  have hall := rawFlags_twins (List.forall_mem_nil _) htwins
  rw [List.map_map, List.map_map, List.append_nil, List.map_nil, List.append_nil] at hall
  have hlines : (flagged f).map (Prod.fst ∘ fun p => (p.1, text p)) = Text.lines f := (map_flagged f).1
  rw [hlines, ← (map_flagged f).2, hflagged] at hall
  -- blank lines become empty ones, which are not raw
  have hempty {ps : List (List Char × Bool)} (h : ps ⊆ before ++ behind) :
      ps.map (Prod.snd ∘ fun p => (p.1, text p)) = ps.map (fun _ => []) ∧
        ps.map Prod.snd = ps.map fun _ => false := by
    refine ⟨List.map_congr_left fun p hp => ?_, List.map_congr_left fun p hp => (hblank p (h hp)).1⟩
    obtain ⟨hraw, hb⟩ := hblank p (h hp)
    have hline : cutLine (margin f) p = ⟨"", false⟩ := by
      rw [← cutLine_blank (margin f) hb, ← hraw]
    exact congrArg (fun l => l.text.toList) hline
  obtain ⟨hbefore, hbefore'⟩ := hempty (List.subset_append_left before behind)
  obtain ⟨hbehind, hbehind'⟩ := hempty (List.subset_append_right before behind)
  have hidle := @rawFlags_twins (behind.map fun _ => [])
    (fun t ht => by
      obtain ⟨p, -, rfl⟩ := List.mem_map.1 ht
      exact .refl [])
    (kept.map fun p => (text p, text p))
    (fun q hq => by
      obtain ⟨p, -, rfl⟩ := List.mem_map.1 hq
      exact .refl _)
  simp only [List.map_map, Function.comp_def] at hidle
  simp only [List.map_append, hbefore, hbehind, hbefore', hbehind', rawFlags_blank_append] at hall
  have hrest := List.append_cancel_left hall
  simp only [Function.comp_def] at hrest
  rw [hidle] at hrest
  exact List.append_cancel_right hrest

/-- The body of a fragment without carriage returns is normal. -/
theorem isNormal_ofSource (hf : '\r' ∉ f) : IsNormal (ofSource f) := by
  obtain ⟨before, kept, behind, hflagged, hlines, hblank, hhead, hlast⟩ := exists_kept f
  have hmem {p : List Char × Bool} (hp : p ∈ kept) : p ∈ flagged f := by
    rw [hflagged]
    exact List.mem_append_right _ (List.mem_append_left _ hp)
  have hpairs : (ofSource f).lines.map (fun l => (l.text.toList, l.raw)) =
      kept.map fun p => ((cutLine (margin f) p).text.toList, p.2) := by
    rw [hlines, List.map_map]
    exact List.map_congr_left fun p _ => by rw [Function.comp_apply, raw_cutLine]
  refine ⟨?_, ?_, ?_, ?_⟩
  · have hflags := rawFlags_kept hflagged hblank
    rw [hlines, List.map_map, List.map_map]
    refine hflags.trans (List.map_congr_left fun p _ => ?_)
    rw [Function.comp_apply, raw_cutLine]
  · intro l hl hraw
    rw [hpairs, commonIndentation_kept hflagged hblank, List.drop_zero]
    rw [hlines] at hl
    obtain ⟨p, hp, rfl⟩ := List.mem_map.1 hl
    rw [raw_cutLine] at hraw
    have htext : (cutLine (margin f) p).text.toList = (trimEnd p.1).drop (margin f) := by
      rw [cutLine, if_neg (by rw [hraw]; exact Bool.false_ne_true)]
      exact String.toList_ofList
    rw [htext]
    refine dropTailWhile_eq_self fun x hx => getLast?_dropTailWhile (l := p.1) ?_
    change (trimEnd p.1).getLast? = some x
    rw [← List.take_append_drop (margin f) (trimEnd p.1), List.getLast?_append, Option.mem_def.1 hx]
    rfl
  · rw [dropTailWhile_eq_self hlast]
    cases h : (ofSource f).lines with
    | nil => rfl
    | cons l ls => exact List.dropWhile_cons_of_neg (by simp [hhead l (by rw [h]; rfl)])
  · intro l hl
    rw [hlines] at hl
    obtain ⟨p, hp, rfl⟩ := List.mem_map.1 hl
    have hsub := cutLine_subset (margin f) p
    have hline := List.of_mem_zip (hmem hp)
    refine ⟨fun hn => not_mem_of_mem_lines hline.1 (hsub hn), fun hr => ?_⟩
    exact hf (subset_of_mem_flagged (hmem hp) (hsub (List.mem_of_getLast? hr)))

end Body

end PhpGraft

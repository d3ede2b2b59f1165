import PhpGraft.Proofs.Syntax.Heredocs

/-!
# Tokens ahead of other source

A token that ends within a text is found whatever follows the text, as long as it continues no token
(`local_scan`), and so is the gap ahead of the token (`gapLength_local`).
-/

namespace PhpGraft.Lexer

open Text

variable {u s s' : List Char}

/-! ## Any token -/

/-- A doc comment has an opening and an end. -/
theorem four_le_scanDoc {cs : List Char} {kind : TokenKind} {n : Nat}
    (h : scanDoc cs = .ok (kind, n)) : 4 ≤ n := by
  unfold scanDoc at h
  split at h
  · rw [← (Prod.mk.inj (Except.ok.inj h)).2]
    omega
  · cases h

/-- A close tag is no other token. -/
theorem not_scanCloseTag {cs : List Char} {kind : TokenKind} {n : Nat}
    (h : scanCloseTag cs = .ok (kind, n)) : kind = .closeTag := by
  unfold scanCloseTag at h
  dsimp only at h
  split at h
  · exact (Prod.mk.inj (Except.ok.inj h)).1.symm
  · exact absurd h nofun

/-- A token that is found with a length is not shorter. -/
theorem le_of_pure {kind kind' : TokenKind} {k n : Nat} (h : (pure (kind', k) : Scan) = .ok (kind, n)) :
    k ≤ n := (Prod.mk.inj (Except.ok.inj h)).2 ▸ Nat.le_refl k

/-- Whatever follows that continues no token, the token that starts with a given character is the
same. -/
theorem local_scan (c : Char) : Local (scan c) := by
  have hcloses : Local scanCloseTag :=
    fun _ _ _ _ _ _ h _ hkind => absurd (not_scanCloseTag h) hkind
  have hvar : Local fun cs => pure (.var, (cs.takeWhile isIdentChar).length) := by
    intro u s s' kind n hs h hn _
    obtain ⟨rfl, rfl⟩ := Prod.mk.inj (Except.ok.inj h)
    show (pure (TokenKind.var, ((u ++ s').takeWhile isIdentChar).length) : Scan) = _
    rw [(takeWhile_cut hn).1, (takeWhile_ends failsStops_isIdentChar hs).1]
    rfl
  have hname : Local fun cs => pure (.name, nameLength cs) := by
    intro u s s' kind n hs h hn _
    obtain ⟨rfl, rfl⟩ := Prod.mk.inj (Except.ok.inj h)
    show (pure (TokenKind.name, nameLength (u ++ s')) : Scan) = _
    rw [nameLength_cut hn, nameLength_ends hs]
    rfl
  have hmarks := marks_any failsStops_isIdentStart
  have hstars : Marks 2 fun cs => ['*', '*'].isPrefixOf cs = true :=
    marks_isPrefixOf ['*', '*'] rfl
  have hangles : Marks 2 fun cs => ['<', '<'].isPrefixOf cs = true :=
    marks_isPrefixOf ['<', '<'] rfl
  have hpoints : Marks 2 fun cs => ['.', '.'].isPrefixOf cs = true :=
    marks_isPrefixOf ['.', '.'] rfl
  -- a token of two characters
  have hpair {x : Char} (hx : isStop x = false) {y : Char} {kind : TokenKind}
      {rest : List Char → Scan} (hrest : Local rest) :
      Local fun cs => if c = y ∧ cs.head? = some x then pure (kind, 1) else rest cs :=
    Local.ite ((marks_head hx).and _) (fun _ _ _ _ h _ => le_of_pure h) Local.const hrest
  -- a name that is told by its first character, and one that a backslash starts
  have hnames {rest : List Char → Scan} (hrest : Local rest) : Local fun cs =>
      if isIdentStart c || (c == '\\' && cs.head?.any isIdentStart) then pure (.name, nameLength cs)
      else rest cs := by
    by_cases hc : isIdentStart c = true
    · simpa only [hc, Bool.true_or, if_true] using hname
    · simp only [hc, Bool.false_or, Bool.and_eq_true]
      exact Local.ite (hmarks.and _) (fun cs _ _ hp h _ =>
        Nat.le_trans (one_le_nameLength hp.2) (le_of_pure h)) hname hrest
  have hvars {rest : List Char → Scan} (hrest : Local rest) : Local fun cs =>
      if c = '$' ∧ cs.head?.any isIdentStart then pure (.var, (cs.takeWhile isIdentChar).length)
      else rest cs := by
    refine Local.ite (hmarks.and _) (fun cs _ _ hp h _ => ?_) hvar hrest
    refine Nat.le_trans ?_ (le_of_pure h)
    cases cs with
    | nil => exact absurd hp.2 nofun
    | cons d cs =>
      rw [List.takeWhile_cons_of_pos (isIdentChar_of_start hp.2)]
      exact Nat.le_add_left 1 _
  unfold scan
  refine Local.ite (hstars.and _) (fun _ _ _ _ h _ => Nat.le_of_add_left_le (four_le_scanDoc h)) local_scanDoc ?_
  refine hpair rfl ?_
  refine Local.ite ((marks_head rfl).and _)
    (fun _ _ _ _ h hkind => absurd (not_scanCloseTag h) hkind) hcloses ?_
  refine Local.ite (hangles.and _) (fun _ _ _ _ h _ => two_le_scanHeredoc h) local_scanHeredoc ?_
  refine hpair rfl (hpair rfl ?_)
  refine Local.ite (hpoints.and _) (fun _ _ _ _ h _ => le_of_pure h) Local.const ?_
  refine hvars (hnames ?_)
  refine Local.ite_const (fun _ => local_scanNumber c) ?_
  exact Local.ite_const (fun _ => local_scanSingleQuoted)
    (Local.ite_const (fun _ => local_scanDoubleQuoted c) Local.const)

/-! ## Gaps -/

/-- What starts a token and no comment starts no comment, either, when something else that continues
no token follows behind the token. -/
theorem plainComment?_token {c : Char} {kind : TokenKind} {n : Nat} (hs : Ends s')
    (h : plainComment? c (u ++ s) = .ok none) (hscan : scan c (u ++ s) = .ok (kind, n))
    (hn : n ≤ u.length) : plainComment? c (u ++ s') = .ok none := by
  have hslash : Marks 1 fun cs => cs.head? = some '/' := marks_head rfl
  have hstar : Marks 1 fun cs => cs.head? = some '*' := marks_head rfl
  have hbracket : Marks 1 fun cs => cs.head? = some '[' := marks_head rfl
  unfold plainComment? at h ⊢
  by_cases hsharp : c = '#'
  · -- an attribute list takes its bracket with it
    subst hsharp
    rw [if_pos rfl] at h ⊢
    have hopen : (u ++ s).head? = some '[' := Decidable.byContradiction fun hopen => by
      rw [if_neg hopen] at h
      cases h
    have hone : n = 1 := by
      rw [scan, if_neg fun h => absurd h.1 (by decide), if_pos ⟨rfl, hopen⟩] at hscan
      exact (Prod.mk.inj (Except.ok.inj hscan)).2.symm
    rw [if_pos (hbracket.append (hbracket.cut (hone ▸ hn) hopen) s')]
    rfl
  rw [if_neg hsharp] at h ⊢
  by_cases hline : c = '/' ∧ (u ++ s).head? = some '/'
  · rw [if_pos hline] at h
    cases h
  rw [if_neg hline] at h
  rw [if_neg fun hnext => hline ⟨hnext.1, hslash.append (hslash.ends hs hnext.2) s⟩]
  by_cases hblock : c = '/' ∧ (u ++ s).head? = some '*'
  · -- a doc comment takes its opening with it
    rw [if_pos hblock] at h
    have hdoc : (['*', '*'].isPrefixOf (u ++ s) && !(['*', '*', '/'].isPrefixOf (u ++ s))) = true :=
      Decidable.byContradiction fun hdoc => by
        rw [if_neg hdoc] at h
        split at h <;> cases h
    obtain ⟨hopen, hempty⟩ := Bool.and_eq_true_iff.1 hdoc
    have hlen : 4 ≤ u.length := by
      rw [scan, if_pos ⟨hblock.1, hopen⟩] at hscan
      exact Nat.le_trans (four_le_scanDoc hscan) hn
    have hcut {pat : List Char} (hpat : pat.length ≤ 3) :
        pat.isPrefixOf (u ++ s') = pat.isPrefixOf (u ++ s) :=
      Bool.eq_iff_iff.2 ⟨fun h => isPrefixOf_append (isPrefixOf_cut (by omega) h) s,
        fun h => isPrefixOf_append (isPrefixOf_cut (by omega) h) s'⟩
    rw [if_pos ⟨hblock.1, hstar.append (hstar.cut (by omega) hblock.2) s'⟩, hcut (by decide),
      hcut (by decide), if_pos hdoc]
    rfl
  · rw [if_neg fun hnext => hblock ⟨hnext.1, hstar.append (hstar.ends hs hnext.2) s⟩]
    rfl

/-- A line comment that ends within a text ends there whatever follows, unless it is a close tag that
ends it. -/
theorem lineCommentLength_local (hs : Ends s') (hn : lineCommentLength (u ++ s) < u.length)
    (hclose : ¬ ['?', '>'].isPrefixOf ((u ++ s).drop (lineCommentLength (u ++ s))) = true) :
    lineCommentLength (u ++ s') = lineCommentLength (u ++ s) := by
  have hangle : Marks 1 fun cs => cs.head? = some '>' := marks_head rfl
  induction u with
  | nil => exact absurd hn (Nat.not_lt_zero _)
  | cons c u ih =>
    have hcons (cs : List Char) : lineCommentLength (c :: cs) =
        if c = '\n' ∨ (c = '?' ∧ cs.head? = some '>') then 0 else lineCommentLength cs + 1 := rfl
    simp only [List.cons_append, hcons] at hn hclose ⊢
    by_cases hstop : c = '\n' ∨ (c = '?' ∧ (u ++ s).head? = some '>')
    · rw [if_pos hstop] at hclose ⊢
      rcases hstop with hnewline | ⟨rfl, htag⟩
      · exact if_pos (.inl hnewline)
      · refine absurd ?_ hclose
        cases hrest : u ++ s with
        | nil => rw [hrest] at htag; exact absurd htag nofun
        | cons d r =>
          rw [hrest] at htag
          obtain rfl := Option.some.inj htag
          rfl
    · rw [if_neg hstop] at hn hclose ⊢
      have hgoes : ¬ (c = '\n' ∨ (c = '?' ∧ (u ++ s').head? = some '>')) := by
        rintro (hnewline | ⟨hmark, htag⟩)
        · exact hstop (.inl hnewline)
        · exact hstop (.inr ⟨hmark, hangle.append (hangle.ends hs htag) s⟩)
      rw [if_neg hgoes, ih (by rw [List.length_cons] at hn; omega) hclose]

/-- A line comment goes up to the newline behind it. -/
theorem lineCommentLength_newline (u r : List Char) :
    lineCommentLength (u ++ '\n' :: r) = lineCommentLength u := by
  induction u with
  | nil => exact if_pos (.inl rfl)
  | cons c u ih =>
    have hnext : (u ++ '\n' :: r).head? = some '>' ↔ u.head? = some '>' := by
      cases u with
      | nil => exact ⟨fun h => absurd (Option.some.inj h) (by decide), nofun⟩
      | cons d u => exact Iff.rfl
    simp only [List.cons_append, lineCommentLength, hnext, ih]

/-- A line comment that is all of a text is one by itself. -/
theorem lineCommentLength_whole (h : lineCommentLength (u ++ s) = u.length) :
    lineCommentLength u = u.length := by
  induction u with
  | nil => rfl
  | cons c u ih =>
    rw [List.cons_append, lineCommentLength] at h
    rw [lineCommentLength]
    split at h
    · exact absurd h nofun
    · next hgoes =>
      have hgoes' : ¬ (c = '\n' ∨ (c = '?' ∧ u.head? = some '>')) := by
        rintro (hnewline | ⟨hmark, htag⟩)
        · exact hgoes (.inl hnewline)
        · exact hgoes (.inr ⟨hmark, (marks_head rfl).append htag s⟩)
      rw [if_neg hgoes', ih (Nat.succ.inj h), List.length_cons]

/-- A comment that ends within a text ends there whatever follows, if line comments do. -/
theorem plainComment?_cut {c : Char} {n : Nat} (hs : Ends s')
    (h : plainComment? c (u ++ s) = .ok (some n)) (hn : n ≤ u.length)
    (hline : lineCommentLength (u ++ s) = n → lineCommentLength (u ++ s') = n) :
    plainComment? c (u ++ s') = .ok (some n) := by
  have hslash : Marks 1 fun cs => cs.head? = some '/' := marks_head rfl
  have hstar : Marks 1 fun cs => cs.head? = some '*' := marks_head rfl
  have hbracket : Marks 1 fun cs => cs.head? = some '[' := marks_head rfl
  unfold plainComment? at h ⊢
  by_cases hsharp : c = '#'
  · rw [if_pos hsharp] at h ⊢
    have hopen : ¬ (u ++ s).head? = some '[' := fun hopen => by
      rw [if_pos hopen] at h
      exact absurd h nofun
    rw [if_neg hopen] at h
    obtain hlength := Option.some.inj (Except.ok.inj h)
    rw [if_neg fun hnext => hopen (hbracket.append (hbracket.ends hs hnext) s), hline hlength]
    rfl
  rw [if_neg hsharp] at h ⊢
  by_cases hslashes : c = '/' ∧ (u ++ s).head? = some '/'
  · rw [if_pos hslashes] at h
    obtain hlength := Option.some.inj (Except.ok.inj h)
    -- the second slash is a part of the comment
    have hone : 1 ≤ u.length := by
      refine Nat.le_trans ?_ hn
      rw [← hlength]
      cases hnext : u ++ s with
      | nil => rw [hnext] at hslashes; exact absurd hslashes.2 nofun
      | cons d r =>
        rw [hnext] at hslashes
        obtain rfl := Option.some.inj hslashes.2
        rw [lineCommentLength, if_neg (by simp)]
        exact Nat.le_add_left 1 _
    rw [if_pos ⟨hslashes.1, hslash.append (hslash.cut hone hslashes.2) s'⟩, hline hlength]
    rfl
  rw [if_neg hslashes] at h
  rw [if_neg fun hnext => hslashes ⟨hnext.1, hslash.append (hslash.ends hs hnext.2) s⟩]
  by_cases hblock : c = '/' ∧ (u ++ s).head? = some '*'
  · rw [if_pos hblock] at h
    by_cases hdoc : (['*', '*'].isPrefixOf (u ++ s) && !(['*', '*', '/'].isPrefixOf (u ++ s))) = true
    · rw [if_pos hdoc] at h
      exact absurd h nofun
    · rw [if_neg hdoc] at h
      split at h
      · next k hk =>
        obtain rfl := Option.some.inj (Except.ok.inj h)
        rw [if_pos ⟨hblock.1, hstar.append (hstar.cut (by omega) hblock.2) s'⟩]
        have hcut {pat : List Char} (hpat : pat.length ≤ 3) :
            pat.isPrefixOf (u ++ s') = pat.isPrefixOf (u ++ s) :=
          Bool.eq_iff_iff.2 ⟨fun h => isPrefixOf_append (isPrefixOf_cut (by omega) h) s,
            fun h => isPrefixOf_append (isPrefixOf_cut (by omega) h) s'⟩
        have hdrop (r : List Char) : (u ++ r).drop 1 = u.drop 1 ++ r :=
          List.drop_append_of_le_length (by omega)
        rw [hdrop] at hk
        have hend : indexOf? starSlash ((u ++ s').drop 1) = some k := by
          rw [hdrop]
          refine indexOf?_cut hk ?_ s'
          rw [List.length_drop]
          simp only [starSlash, List.length_cons, List.length_nil]
          omega
        rw [hcut (by decide), hcut (by decide), if_neg hdoc, hend]
        rfl
      · exact absurd h nofun
  · rw [if_neg hblock] at h
    exact absurd h nofun

/-- A comment that ends within a text ends there whatever follows, unless it is a close tag that ends
it. -/
theorem plainComment?_local {c : Char} {n : Nat} (hs : Ends s')
    (h : plainComment? c (u ++ s) = .ok (some n)) (hn : n < u.length)
    (hclose : ¬ ['?', '>'].isPrefixOf ((u ++ s).drop n) = true) :
    plainComment? c (u ++ s') = .ok (some n) := by
  refine plainComment?_cut hs h (Nat.le_of_lt hn) fun hline => ?_
  subst hline
  exact lineCommentLength_local hs hn hclose

/-- What stands at a close tag is a close tag. -/
theorem closeTag_of_scan {cs r : List Char} {c : Char} {kind : TokenKind} {n g : Nat}
    (hclose : ['?', '>'].isPrefixOf cs = true) (hg : gapLength cs = .ok g)
    (hd : cs.drop g = c :: r) (hscan : scan c r = .ok (kind, n)) : kind = .closeTag := by
  obtain ⟨cs, rfl⟩ := List.isPrefixOf_iff_prefix.1 hclose
  have hnogap : gapLength ('?' :: '>' :: cs) = .ok 0 := gapLength_token rfl rfl
  obtain rfl : 0 = g := Except.ok.inj (hnogap.symm.trans hg)
  obtain ⟨rfl, rfl⟩ : '?' = c ∧ '>' :: cs = r := List.cons.inj hd
  rw [scan, if_neg (fun h => absurd h.1 (by decide)), if_neg (fun h => absurd h.1 (by decide)),
    if_pos ⟨rfl, rfl⟩] at hscan
  exact not_scanCloseTag hscan

/-- White space that ends within a text is the same whatever follows. -/
theorem blanks_cut {k : Nat} (hk : ((u ++ s).takeWhile isBlank).length + 1 + k ≤ u.length) :
    ∃ c v, u.dropWhile isBlank = c :: v ∧ k ≤ v.length ∧ isBlank c = false ∧
      ((u ++ s).takeWhile isBlank).length = (u.takeWhile isBlank).length ∧
      ∀ r, (u ++ r).takeWhile isBlank = u.takeWhile isBlank ∧
        (u ++ r).dropWhile isBlank = c :: (v ++ r) := by
  obtain ⟨htake, -⟩ := @takeWhile_cut u s isBlank (by omega)
  have hsplit : (u.takeWhile isBlank).length + (u.dropWhile isBlank).length = u.length := by
    rw [← List.length_append, List.takeWhile_append_dropWhile]
  rw [htake] at hk
  obtain ⟨c, v, hv⟩ := List.exists_cons_of_length_pos
    (by omega : 0 < (u.dropWhile isBlank).length)
  have hlen : v.length + 1 = (u.dropWhile isBlank).length := by rw [hv, List.length_cons]
  have hblank := isBlank_of_dropWhile hv
  have hshort : (u.takeWhile isBlank).length ≠ u.length := by omega
  have hne : ¬ (u.dropWhile isBlank).isEmpty = true := by simp [hv]
  refine ⟨c, v, hv, by omega, hblank, by rw [htake], fun r => ⟨?_, ?_⟩⟩
  · rw [List.takeWhile_append, if_neg hshort]
  · rw [List.dropWhile_append, if_neg hne, hv, List.cons_append]

/-- The gap ahead of a token that ends within a text is the same whatever follows that continues no
token. -/
theorem gapLength_local {u s s' r : List Char} {c : Char} {kind : TokenKind} {g n : Nat} (hs : Ends s')
    (h : gapLength (u ++ s) = .ok g) (hd : (u ++ s).drop g = c :: r)
    (hscan : scan c r = .ok (kind, n)) (hkind : kind ≠ .closeTag) (hn : g + 1 + n ≤ u.length) :
    gapLength (u ++ s') = .ok g := by
  rcases gapLength_cases h with ⟨-, rfl⟩ | ⟨d, rest, hdrop, hc, rfl⟩ |
    ⟨d, rest, m, more, hdrop, hc, hm, rfl⟩
  · rw [List.drop_length] at hd
    exact absurd hd nofun
  · obtain ⟨e, v, -, hv, hblank, hlen, hr⟩ := blanks_cut hn
    obtain ⟨rfl, rfl⟩ := List.cons.inj (hdrop.symm.trans (hr s).2)
    obtain ⟨rfl, rfl⟩ : d = c ∧ v ++ s = r := by
      have hbehind := drop_takeWhile_add (p := isBlank) (u ++ s) 0
      rw [Nat.add_zero, hd, hdrop] at hbehind
      exact (List.cons.inj hbehind).imp Eq.symm Eq.symm
    rw [gapLength_token (hr s').2 (plainComment?_token hs hc hscan hv), hlen, (hr s').1]
  · have hfits : ((u ++ s).takeWhile isBlank).length + 1 + (m + more + 1 + n) ≤ u.length := by omega
    obtain ⟨e, v, hu, hv, hblank, hlen, hr⟩ := blanks_cut hfits
    obtain ⟨rfl, rfl⟩ := List.cons.inj (hdrop.symm.trans (hr s).2)
    have hcut (x : List Char) : (v ++ x).drop m = v.drop m ++ x :=
      List.drop_append_of_le_length (by omega)
    have hbehind : (v.drop m ++ s).drop more = c :: r := by
      rw [← hcut, ← drop_comment d, ← hdrop, ← drop_takeWhile_add, ← hd]
      simp only [Nat.add_assoc]
    rw [hcut] at hm
    have hclose : ¬ ['?', '>'].isPrefixOf ((v ++ s).drop m) = true := fun hclose =>
      hkind (closeTag_of_scan (hcut s ▸ hclose) hm hbehind hscan)
    have hrest := gapLength_local hs hm hbehind hscan hkind (by rw [List.length_drop]; omega)
    rw [← hcut] at hrest
    rw [gapLength_comment (hr s').2 (plainComment?_local hs hc (by omega) hclose) hrest, hlen,
      (hr s').1]
termination_by u.length
decreasing_by
  have := congrArg List.length hu
  have := (List.dropWhile_sublist isBlank (l := u)).length_le
  rw [List.length_drop]
  simp only [List.length_cons] at *
  omega

end PhpGraft.Lexer

import PhpGraft.Proofs.Syntax.Stops
import PhpGraft.Proofs.Text.Ascii

/-!
# Local scans

Comments and strings end at delimiters, and names and numerals end where their characters do: a text
that continues no token changes neither. For names and numerals there are two halves. What fits in a
text is found in the text alone (`nameLength_cut`), and what continues no token adds nothing to what
is found there (`nameLength_ends`).
-/

namespace PhpGraft.Lexer

open Decimal Text

variable {u s s' : List Char}

/-! ## Comments and strings -/

/-- What is found within a text is found there whatever follows. -/
theorem indexOf?_cut {pat : List Char} {n : Nat} (h : indexOf? pat (u ++ s) = some n)
    (hn : n + pat.length ≤ u.length) (s' : List Char) : indexOf? pat (u ++ s') = some n := by
  induction u generalizing n with
  | nil =>
    obtain ⟨rfl, rfl⟩ : n = 0 ∧ pat = [] := by simpa using hn
    cases s' <;> simp [indexOf?]
  | cons c u ih =>
    rw [List.cons_append, indexOf?] at h ⊢
    by_cases hstart : pat.isPrefixOf (c :: (u ++ s)) = true
    · rw [if_pos hstart] at h
      obtain rfl := Option.some.inj h
      have hcut : pat.isPrefixOf (c :: u) = true := isPrefixOf_cut (by simpa using hn) hstart
      have hkept : pat.isPrefixOf (c :: (u ++ s')) = true := isPrefixOf_append hcut s'
      rw [if_pos hkept]
    · rw [if_neg hstart] at h
      obtain ⟨k, hk, rfl⟩ := Option.map_eq_some_iff.1 h
      have hlen : k + pat.length ≤ u.length := by
        rw [List.length_cons] at hn
        omega
      have hnone : ¬ pat.isPrefixOf (c :: (u ++ s')) = true := fun hp => by
        have hcut : pat.isPrefixOf (c :: u) = true :=
          isPrefixOf_cut (by rw [List.length_cons]; omega) hp
        exact hstart (isPrefixOf_append hcut s)
      rw [if_neg hnone, ih hk hlen]
      rfl

/-- A doc comment is found whatever follows. -/
theorem local_scanDoc : Local scanDoc := by
  intro u s s' kind n _ h hn _
  unfold scanDoc at h ⊢
  cases hi : indexOf? starSlash ((u ++ s).drop 2) with
  | none => rw [hi] at h; exact absurd h nofun
  | some k =>
    rw [hi] at h
    obtain ⟨rfl, rfl⟩ := Prod.mk.inj (Except.ok.inj h)
    rw [List.drop_append_of_le_length (by omega)] at hi ⊢
    have hlen : k + starSlash.length ≤ (u.drop 2).length := by
      rw [List.length_drop]
      simp only [starSlash, List.length_cons, List.length_nil]
      omega
    rw [indexOf?_cut hi hlen s']
    rfl

/-- A character that starts no escape belongs to a string in single quotes. -/
theorem singleQuoted?_plain {c : Char} {cs : List Char} (hq : c ≠ '\'')
    (hb : c = '\\' → ∀ d ∈ cs.head?, d ≠ '\\' ∧ d ≠ '\'') :
    singleQuoted? (c :: cs) = (singleQuoted? cs).map fun (value, n) => (c :: value, n + 1) := by
  rw [singleQuoted?]
  · exact hq
  · rintro cs rfl rfl
    exact (hb rfl _ rfl).1 rfl
  · rintro cs rfl rfl
    exact (hb rfl _ rfl).2 rfl

/-- A string in single quotes has a closing quote. -/
theorem singleQuoted?_pos {cs v : List Char} {n : Nat} (h : singleQuoted? cs = some (v, n)) :
    1 ≤ n := by
  fun_induction singleQuoted? cs generalizing v n with
  | case1 => exact absurd h nofun
  | case2 => exact (Prod.mk.inj (Option.some.inj h)).2 ▸ Nat.le_refl 1
  | case3 cs | case4 cs =>
    obtain ⟨⟨w, k⟩, -, he⟩ := Option.map_eq_some_iff.1 h
    exact (Prod.mk.inj he).2 ▸ Nat.le_add_left 1 (k + 1)
  | case5 c cs =>
    obtain ⟨⟨w, k⟩, -, he⟩ := Option.map_eq_some_iff.1 h
    exact (Prod.mk.inj he).2 ▸ Nat.le_add_left 1 k

/-- What stands at the front of a text and ends within it is part of it. -/
theorem exists_append_of_le {a r : List Char} (h : a ++ r = u ++ s) (hlen : a.length ≤ u.length) :
    ∃ w, u = a ++ w ∧ r = w ++ s := by
  obtain ⟨w, rfl⟩ : a <+: u :=
    List.prefix_of_prefix_length_le (h ▸ List.prefix_append a r) (List.prefix_append u s) hlen
  rw [List.append_assoc] at h
  exact ⟨w, rfl, List.append_cancel_left h⟩

/-- A string in single quotes that ends within a text is found whatever follows. -/
theorem singleQuoted?_cut {cs v : List Char} {n : Nat} (h : singleQuoted? cs = some (v, n))
    (hu : cs = u ++ s) (hn : n ≤ u.length) (s' : List Char) :
    singleQuoted? (u ++ s') = some (v, n) := by
  fun_induction singleQuoted? cs generalizing u v n with
  | case1 => exact absurd h nofun
  | case2 cs =>
    obtain ⟨rfl, rfl⟩ := Prod.mk.inj (Option.some.inj h)
    obtain ⟨w, rfl, rfl⟩ := @exists_append_of_le u s ['\''] cs hu hn
    rfl
  | case3 cs ih =>
    obtain ⟨⟨x, k⟩, hk, he⟩ := Option.map_eq_some_iff.1 h
    obtain ⟨rfl, rfl⟩ := Prod.mk.inj he
    obtain ⟨w, rfl, rfl⟩ := @exists_append_of_le u s ['\\', '\\'] cs hu (Nat.le_trans (Nat.le_add_left 2 k) hn)
    have hw : k ≤ w.length := by
      simp only [List.length_append, List.length_cons, List.length_nil] at hn
      omega
    have hrest := ih hk rfl hw
    simp only [List.cons_append, List.nil_append]
    rw [singleQuoted?, hrest]
    rfl
  | case4 cs ih =>
    obtain ⟨⟨x, k⟩, hk, he⟩ := Option.map_eq_some_iff.1 h
    obtain ⟨rfl, rfl⟩ := Prod.mk.inj he
    obtain ⟨w, rfl, rfl⟩ := @exists_append_of_le u s ['\\', '\''] cs hu (Nat.le_trans (Nat.le_add_left 2 k) hn)
    have hw : k ≤ w.length := by
      simp only [List.length_append, List.length_cons, List.length_nil] at hn
      omega
    have hrest := ih hk rfl hw
    simp only [List.cons_append, List.nil_append]
    rw [singleQuoted?, hrest]
    rfl
  | case5 c cs hq hb hbq ih =>
    obtain ⟨⟨x, k⟩, hk, he⟩ := Option.map_eq_some_iff.1 h
    obtain ⟨rfl, rfl⟩ := Prod.mk.inj he
    obtain ⟨w, rfl, rfl⟩ := @exists_append_of_le u s [c] cs hu (Nat.le_trans (Nat.le_add_left 1 k) hn)
    have hw : k ≤ w.length := by
      simp only [List.length_append, List.length_cons, List.length_nil] at hn
      omega
    have hrest := ih hk rfl hw
    -- what is behind a backslash is in the text, as the closing quote is
    obtain ⟨d, w, rfl⟩ := List.exists_cons_of_length_pos (Nat.lt_of_lt_of_le (singleQuoted?_pos hk) hw)
    have hplain : c = '\\' → ∀ e ∈ (d :: w ++ s').head?, e ≠ '\\' ∧ e ≠ '\'' := by
      rintro hc e he
      obtain rfl : d = e := Option.some.inj he
      exact ⟨fun he => hb (w ++ s) hc (by rw [he]; rfl), fun he => hbq (w ++ s) hc (by rw [he]; rfl)⟩
    show singleQuoted? (c :: (d :: w ++ s')) = _
    rw [singleQuoted?_plain hq hplain, hrest]
    rfl

/-- A character that is no backslash ends a string or belongs to it. -/
theorem doubleQuoted?_cons {q c : Char} (hb : c ≠ '\\') (cs : List Char) :
    doubleQuoted? q (c :: cs) =
      if c = q then some (true, 1)
      else (doubleQuoted? q cs).map fun (plain, n) => (plain && c != '$', n + 1) := by
  rw [doubleQuoted?]
  · rintro rfl
    exact absurd rfl hb
  · intro d es rfl
    exact absurd rfl hb

/-- A string up to a quote that ends within a text is found whatever follows. -/
theorem doubleQuoted?_cut {q : Char} {cs : List Char} {plain : Bool} {n : Nat}
    (h : doubleQuoted? q cs = some (plain, n)) (hu : cs = u ++ s) (hn : n ≤ u.length)
    (s' : List Char) : doubleQuoted? q (u ++ s') = some (plain, n) := by
  have ne_backslash {c : Char} {cs : List Char} (hend : c = '\\' → cs = [] → False)
      (hescape : ∀ d es, c = '\\' → cs = d :: es → False) : c ≠ '\\' := fun hc =>
    match cs, hend, hescape with
    | [], hend, _ => hend hc rfl
    | d :: es, _, hescape => hescape d es hc rfl
  fun_induction doubleQuoted? q cs generalizing u plain n with
  | case1 => exact absurd h nofun
  | case2 => exact absurd h nofun
  | case3 c cs ih =>
    obtain ⟨⟨x, k⟩, hk, he⟩ := Option.map_eq_some_iff.1 h
    obtain ⟨rfl, rfl⟩ := Prod.mk.inj he
    obtain ⟨w, rfl, rfl⟩ := @exists_append_of_le u s ['\\', c] cs hu (Nat.le_trans (Nat.le_add_left 2 k) hn)
    have hw : k ≤ w.length := by
      simp only [List.length_append, List.length_cons, List.length_nil] at hn
      omega
    have hrest := ih hk rfl hw
    simp only [List.cons_append, List.nil_append]
    rw [doubleQuoted?, hrest]
    rfl
  | case4 cs hend hescape =>
    obtain ⟨rfl, rfl⟩ := Prod.mk.inj (Option.some.inj h)
    obtain ⟨w, rfl, rfl⟩ := @exists_append_of_le u s [q] cs hu hn
    exact (doubleQuoted?_cons (ne_backslash hend hescape) _).trans (if_pos rfl)
  | case5 c cs hend hescape hc ih =>
    obtain ⟨⟨x, k⟩, hk, he⟩ := Option.map_eq_some_iff.1 h
    obtain ⟨rfl, rfl⟩ := Prod.mk.inj he
    obtain ⟨w, rfl, rfl⟩ := @exists_append_of_le u s [c] cs hu (Nat.le_trans (Nat.le_add_left 1 k) hn)
    have hw : k ≤ w.length := by
      simp only [List.length_append, List.length_cons, List.length_nil] at hn
      omega
    have hrest := ih hk rfl hw
    show doubleQuoted? q (c :: (w ++ s')) = _
    rw [doubleQuoted?_cons (ne_backslash hend hescape), if_neg hc, hrest]
    rfl

/-- A string in single quotes is found whatever follows. -/
theorem local_scanSingleQuoted : Local scanSingleQuoted := by
  intro u s s' kind n _ h hn _
  unfold scanSingleQuoted at h ⊢
  cases hi : singleQuoted? (u ++ s) with
  | none => rw [hi] at h; exact absurd h nofun
  | some p =>
    rw [hi] at h
    obtain ⟨rfl, rfl⟩ := Prod.mk.inj (Except.ok.inj h)
    rw [singleQuoted?_cut hi rfl hn s']
    rfl

/-- A string up to a quote is found whatever follows. -/
theorem local_scanDoubleQuoted (q : Char) : Local (scanDoubleQuoted q) := by
  intro u s s' kind n _ h hn _
  unfold scanDoubleQuoted at h ⊢
  cases hi : doubleQuoted? q (u ++ s) with
  | none => rw [hi] at h; exact absurd h nofun
  | some p =>
    rw [hi] at h
    obtain ⟨rfl, rfl⟩ := Prod.mk.inj (Except.ok.inj h)
    have htake (r : List Char) : (u ++ r).take (p.2 - 1) = u.take (p.2 - 1) :=
      List.take_append_of_le_length (by omega)
    rw [doubleQuoted?_cut hi rfl hn s']
    dsimp only
    rw [htake, htake]
    rfl

/-! ## Names and numerals -/

/-- What is taken from the front and fits in the text is taken from the text. -/
theorem takeWhile_cut {p : Char → Bool} (h : ((u ++ s).takeWhile p).length ≤ u.length) :
    (u ++ s).takeWhile p = u.takeWhile p ∧ (u ++ s).dropWhile p = u.dropWhile p ++ s := by
  induction u with
  | nil =>
    have hnil : s.takeWhile p = [] := List.length_eq_zero_iff.1 (Nat.le_zero.1 h)
    have hall := List.takeWhile_append_dropWhile (p := p) (l := s)
    rw [hnil, List.nil_append] at hall
    exact ⟨hnil, hall⟩
  | cons c u ih =>
    rw [List.cons_append, List.takeWhile_cons, List.dropWhile_cons] at *
    rw [List.takeWhile_cons, List.dropWhile_cons]
    split at h
    · next hc =>
      obtain ⟨htake, hdrop⟩ := ih (Nat.le_of_succ_le_succ h)
      rw [if_pos hc, if_pos hc, if_pos hc, if_pos hc, htake, hdrop]
      exact ⟨rfl, rfl⟩
    · next hc =>
      rw [if_neg hc, if_neg hc, if_neg hc, if_neg hc]
      exact ⟨rfl, rfl⟩

/-- What no stop continues is taken from the text. -/
theorem takeWhile_ends {p : Char → Bool} (hp : FailsStops p) (hs : Ends s) :
    (u ++ s).takeWhile p = u.takeWhile p ∧ (u ++ s).dropWhile p = u.dropWhile p ++ s := by
  refine takeWhile_cut ?_
  induction u with
  | nil =>
    cases s with
    | nil => exact Nat.le_refl 0
    | cons c s =>
      have hnone : (c :: s).takeWhile p = [] :=
        List.takeWhile_cons_of_neg (by simp [hp c (hs c rfl)])
      exact Nat.le_of_eq (congrArg List.length hnone)
  | cons c u ih =>
    rw [List.cons_append, List.takeWhile_cons]
    split
    · exact Nat.succ_le_succ ih
    · exact Nat.zero_le _

/-- What starts a name continues one. -/
theorem one_le_nameLength {cs : List Char} (h : cs.head?.any isIdentStart = true) :
    1 ≤ nameLength cs := by
  cases cs with
  | nil => exact absurd h nofun
  | cons c cs =>
    rw [nameLength, if_pos (by rw [isIdentChar_of_start h]; rfl)]
    exact Nat.le_add_left 1 _

/-- A name is no longer than the text. -/
theorem nameLength_le (l : List Char) : nameLength l ≤ l.length := by
  induction l with
  | nil => exact Nat.le_refl _
  | cons c l ih =>
    rw [nameLength]
    split
    · exact Nat.succ_le_succ ih
    · exact Nat.zero_le _

/-- A name that fits in the text is a name of the text. -/
theorem nameLength_cut (h : nameLength (u ++ s) ≤ u.length) :
    nameLength (u ++ s) = nameLength u := by
  induction u with
  | nil => exact Nat.le_zero.1 h
  | cons c u ih =>
    rw [List.cons_append, nameLength] at h ⊢
    rw [nameLength]
    by_cases hc : (isIdentChar c || c == '\\' && (u ++ s).head?.any isIdentStart) = true
    · rw [if_pos hc] at h ⊢
      have hfits : nameLength (u ++ s) ≤ u.length := Nat.le_of_succ_le_succ h
      have hcut : (isIdentChar c || c == '\\' && u.head?.any isIdentStart) = true := by
        simp only [Bool.or_eq_true, Bool.and_eq_true] at hc ⊢
        refine hc.imp_right fun hback => ⟨hback.1, ?_⟩
        exact (marks_any failsStops_isIdentStart).cut
          (Nat.le_trans (one_le_nameLength hback.2) hfits) hback.2
      rw [if_pos hcut, ih hfits]
    · have hnone : ¬ (isIdentChar c || c == '\\' && u.head?.any isIdentStart) = true := by
        simp only [Bool.or_eq_true, Bool.and_eq_true] at hc ⊢
        exact fun hcut => hc (hcut.imp_right fun hback =>
          ⟨hback.1, (marks_any failsStops_isIdentStart).append hback.2 s⟩)
      rw [if_neg hc, if_neg hnone]

/-- No stop continues a name. -/
theorem nameLength_ends (hs : Ends s) : nameLength (u ++ s) = nameLength u := by
  induction u with
  | nil =>
    cases s with
    | nil => rfl
    | cons c s =>
      have hident : isIdentChar c = false := failsStops_isIdentChar c (hs c rfl)
      have hback : (c == '\\') = false :=
        failsStops_of (· == '\\') (by decide) c (hs c rfl)
      show nameLength (c :: s) = 0
      rw [nameLength, if_neg (by simp [hident, hback])]
  | cons c u ih =>
    have hnext : (u ++ s).head?.any isIdentStart = u.head?.any isIdentStart :=
      Bool.eq_iff_iff.2 ⟨(marks_any failsStops_isIdentStart).ends hs,
        fun h => (marks_any failsStops_isIdentStart).append h s⟩
    rw [List.cons_append, nameLength, nameLength, ih, hnext]

/-- A fraction is a point and what continues a numeral behind it. -/
theorem fractionLength_cons (c : Char) (cs : List Char) :
    fractionLength (c :: cs) = if c = '.' ∧ cs.head?.any Char.isDigit = true
      then 1 + (cs.takeWhile isDigitOrGap).length else 0 := by
  by_cases hc : c = '.'
  · subst hc
    simp only [fractionLength, true_and]
  · rw [if_neg fun h => hc h.1]
    unfold fractionLength
    split
    · next he => exact absurd (List.cons.inj he).1 hc
    · rfl

/-- A digit continues a numeral. -/
theorem one_le_digits {cs : List Char} (h : cs.head?.any Char.isDigit = true) :
    1 ≤ (cs.takeWhile isDigitOrGap).length := by
  cases cs with
  | nil => exact absurd h nofun
  | cons c cs =>
    have hdigit : isDigitOrGap c = true := by
      rw [isDigitOrGap, show c.isDigit = true from h]
      rfl
    rw [List.takeWhile_cons_of_pos hdigit]
    exact Nat.le_add_left 1 _

/-- A fraction that fits in the text is one of the text. -/
theorem fractionLength_cut (h : fractionLength (u ++ s) ≤ u.length) :
    fractionLength (u ++ s) = fractionLength u := by
  cases u with
  | nil => exact Nat.le_zero.1 h
  | cons c u =>
    rw [List.cons_append, fractionLength_cons] at h ⊢
    rw [fractionLength_cons]
    by_cases hc : c = '.' ∧ (u ++ s).head?.any Char.isDigit = true
    · rw [if_pos hc] at h ⊢
      have hfits : ((u ++ s).takeWhile isDigitOrGap).length ≤ u.length := by
        rw [List.length_cons] at h
        omega
      have hcut : u.head?.any Char.isDigit = true := (marks_any failsStops_isDigit).cut
        (Nat.le_trans (one_le_digits hc.2) hfits) hc.2
      rw [if_pos ⟨hc.1, hcut⟩, (takeWhile_cut hfits).1]
    · rw [if_neg hc, if_neg fun hcut => hc ⟨hcut.1, (marks_any failsStops_isDigit).append hcut.2 s⟩]

/-- No stop continues a fraction. -/
theorem fractionLength_ends (hs : Ends s) : fractionLength (u ++ s) = fractionLength u := by
  cases u with
  | nil =>
    cases s with
    | nil => rfl
    | cons c s =>
      have hpoint : c ≠ '.' := fun hc => by
        have hstop := hs c rfl
        rw [hc] at hstop
        exact absurd hstop (by decide)
      exact (fractionLength_cons c s).trans (if_neg fun h => hpoint h.1)
  | cons c u =>
    have hnext : (u ++ s).head?.any Char.isDigit = u.head?.any Char.isDigit :=
      Bool.eq_iff_iff.2 ⟨(marks_any failsStops_isDigit).ends hs,
        fun h => (marks_any failsStops_isDigit).append h s⟩
    rw [List.cons_append, fractionLength_cons, fractionLength_cons, hnext,
      (takeWhile_ends failsStops_isDigitOrGap hs).1]

/-- Whether a sign and a digit come next. -/
def signsDigit (cs : List Char) : Bool :=
  cs.head?.any (fun c => c == '+' || c == '-') && cs.tail.head?.any Char.isDigit

/-- A sign and a digit are two characters. -/
theorem marks_signsDigit : Marks 2 fun cs => signsDigit cs = true where
  cut {u s} hk h := by
    match u, hk with
    | c :: d :: u, _ => exact h
  append {u} h s := by
    match u, h with
    | [c], h => exact absurd h (by simp [signsDigit])
    | c :: d :: u, h => exact h
  ends {u s} hs h := by
    have hsign : FailsStops fun c => c == '+' || c == '-' := failsStops_of _ (by decide)
    rw [signsDigit, Bool.and_eq_true] at h ⊢
    have hfirst := any_head?_of_ends hsign hs h.1
    refine ⟨hfirst, ?_⟩
    cases u with
    | nil => exact absurd hfirst nofun
    | cons c u => exact any_head?_of_ends failsStops_isDigit hs h.2

/-- An exponent is a letter and, with or without a sign, what continues a numeral. -/
theorem exponentLength_cons (e : Char) (cs : List Char) :
    exponentLength (e :: cs) =
      if e = 'e' ∨ e = 'E' then
        if signsDigit cs = true then 2 + (cs.tail.takeWhile isDigitOrGap).length
        else if cs.head?.any Char.isDigit = true then 1 + (cs.takeWhile isDigitOrGap).length
        else 0
      else 0 := by
  cases cs with
  | nil => simp [exponentLength, signsDigit]
  | cons c cs =>
    have hsigned : signsDigit (c :: cs) = true ↔
        (c = '+' ∨ c = '-') ∧ cs.head?.any Char.isDigit = true := by simp [signsDigit]
    by_cases hc : (c = '+' ∨ c = '-') ∧ cs.head?.any Char.isDigit = true
    · simp only [exponentLength, if_pos hc, if_pos (hsigned.2 hc), List.tail_cons]
    · simp only [exponentLength, if_neg hc, if_neg (mt hsigned.1 hc)]
      rfl

/-- An exponent that fits in the text is one of the text. -/
theorem exponentLength_cut (h : exponentLength (u ++ s) ≤ u.length) :
    exponentLength (u ++ s) = exponentLength u := by
  cases u with
  | nil => exact Nat.le_zero.1 h
  | cons e u =>
    rw [List.cons_append, exponentLength_cons] at h ⊢
    rw [exponentLength_cons]
    by_cases he : e = 'e' ∨ e = 'E'
    · rw [if_pos he] at h ⊢
      rw [if_pos he]
      by_cases hsigned : signsDigit (u ++ s) = true
      · rw [if_pos hsigned] at h ⊢
        have hdigits := one_le_digits (Bool.and_eq_true_iff.1 hsigned).2
        have hlen : 2 ≤ u.length := by
          rw [List.length_cons] at h
          omega
        obtain ⟨c, u, rfl⟩ := List.exists_cons_of_length_pos (Nat.lt_of_lt_of_le Nat.two_pos hlen)
        have hfits : ((u ++ s).takeWhile isDigitOrGap).length ≤ u.length := by
          simp only [List.cons_append, List.tail_cons, List.length_cons] at h
          omega
        rw [if_pos (marks_signsDigit.cut hlen hsigned), List.cons_append, List.tail_cons,
          List.tail_cons, (takeWhile_cut hfits).1]
      · rw [if_neg hsigned] at h ⊢
        rw [if_neg fun hcut => hsigned (marks_signsDigit.append hcut s)]
        by_cases hdigit : (u ++ s).head?.any Char.isDigit = true
        · rw [if_pos hdigit] at h ⊢
          have hfits : ((u ++ s).takeWhile isDigitOrGap).length ≤ u.length := by
            rw [List.length_cons] at h
            omega
          have hcut : u.head?.any Char.isDigit = true := (marks_any failsStops_isDigit).cut
            (Nat.le_trans (one_le_digits hdigit) hfits) hdigit
          rw [if_pos hcut, (takeWhile_cut hfits).1]
        · rw [if_neg hdigit, if_neg fun hcut => hdigit ((marks_any failsStops_isDigit).append hcut s)]
    · rw [if_neg he, if_neg he]

/-- No stop continues an exponent. -/
theorem exponentLength_ends (hs : Ends s) : exponentLength (u ++ s) = exponentLength u := by
  cases u with
  | nil =>
    cases s with
    | nil => rfl
    | cons e s =>
      have hletter : ¬ (e = 'e' ∨ e = 'E') := fun he => by
        have hstop := hs e rfl
        rcases he with rfl | rfl <;> exact absurd hstop (by decide)
      exact (exponentLength_cons e s).trans (if_neg hletter)
  | cons e u =>
    have hsigned : signsDigit (u ++ s) = signsDigit u :=
      Bool.eq_iff_iff.2 ⟨marks_signsDigit.ends hs, fun h => marks_signsDigit.append h s⟩
    have hdigit : (u ++ s).head?.any Char.isDigit = u.head?.any Char.isDigit :=
      Bool.eq_iff_iff.2 ⟨(marks_any failsStops_isDigit).ends hs,
        fun h => (marks_any failsStops_isDigit).append h s⟩
    have htail : (u ++ s).tail.takeWhile isDigitOrGap = u.tail.takeWhile isDigitOrGap ∨
        signsDigit u = false := by
      cases u with
      | nil => exact .inr rfl
      | cons c u => exact .inl (takeWhile_ends failsStops_isDigitOrGap hs).1
    rw [List.cons_append, exponentLength_cons, exponentLength_cons, hsigned, hdigit,
      (takeWhile_ends failsStops_isDigitOrGap hs).1]
    rcases htail with htail | hnone
    · rw [htail]
    · simp only [hnone, Bool.false_eq_true, if_false]

/-- No stop is a digit in any base. -/
theorem failsStops_isDigitOf (base : Nat) : FailsStops fun d => isDigitOf base d || d == '_' := by
  have hnone : FailsStops fun d => (digitValue? d).isSome || d == '_' := failsStops_of _ (by decide)
  intro d hd
  obtain ⟨hvalue, hgap⟩ := Bool.or_eq_false_iff.1 (hnone d hd)
  have hdigit : isDigitOf base d = false := by
    unfold isDigitOf
    rw [Option.isNone_iff_eq_none.1 (Option.isSome_eq_false_iff.1 hvalue)]
  show (isDigitOf base d || d == '_') = false
  rw [hdigit, hgap]
  rfl

/-- The base of a numeral is told by one character. -/
theorem bind_baseOf?_ends (hs : Ends s) : (u ++ s).head?.bind baseOf? = u.head?.bind baseOf? := by
  cases u with
  | cons c u => rfl
  | nil =>
    cases s with
    | nil => rfl
    | cons c s =>
      have hnone : FailsStops fun c => (baseOf? c).isSome := failsStops_of _ (by decide)
      simpa using hnone c (hs c rfl)

/-- A fraction is no longer than the text. -/
theorem fractionLength_le (l : List Char) : fractionLength l ≤ l.length := by
  unfold fractionLength
  split
  · split
    · next rest _ =>
      have := (List.takeWhile_sublist isDigitOrGap (l := rest)).length_le
      rw [List.length_cons]
      omega
    · exact Nat.zero_le _
  · exact Nat.zero_le _

/-- An exponent is no longer than the text. -/
theorem exponentLength_le (l : List Char) : exponentLength l ≤ l.length := by
  have htake (cs : List Char) : (cs.takeWhile isDigitOrGap).length ≤ cs.length :=
    (List.takeWhile_sublist isDigitOrGap).length_le
  unfold exponentLength
  split
  · next e rest =>
    split
    · dsimp only
      split
      · next s more =>
        have h₁ := htake more
        have h₂ := htake (s :: more)
        rw [List.length_cons] at h₂
        split
        · simp only [List.length_cons]
          omega
        · split
          · simp only [List.length_cons]
            omega
          · exact Nat.zero_le _
      · exact Nat.zero_le _
    · exact Nat.zero_le _
  · exact Nat.zero_le _

/-- A fraction that is taken off a text, ahead of what continues nothing. -/
theorem take_fraction_ends (hs : Ends s) :
    (u ++ s).take (fractionLength (u ++ s)) = u.take (fractionLength u) ∧
      (u ++ s).drop (fractionLength (u ++ s)) = u.drop (fractionLength u) ++ s := by
  rw [fractionLength_ends hs]
  exact ⟨List.take_append_of_le_length (fractionLength_le u),
    List.drop_append_of_le_length (fractionLength_le u)⟩

/-- No stop continues a numeral. -/
theorem scanNumber_ends (c : Char) (hs : Ends s) : scanNumber c (u ++ s) = scanNumber c u := by
  obtain ⟨hwhole, hbehind⟩ := @takeWhile_ends u s _ failsStops_isDigitOrGap hs
  have hexponent {u : List Char} :
      (u ++ s).take (exponentLength (u ++ s)) = u.take (exponentLength u) := by
    rw [exponentLength_ends hs]
    exact List.take_append_of_le_length (exponentLength_le u)
  unfold scanNumber
  rw [bind_baseOf?_ends hs]
  split
  · next base h =>
    cases u with
    | nil => simp at h
    | cons d u =>
      have hdigits := (@takeWhile_ends u s _ (failsStops_isDigitOf base) hs).1
      simp only [List.cons_append, List.drop_succ_cons, List.drop_zero, hdigits]
  · simp only [hwhole, hbehind, take_fraction_ends hs, hexponent]

/-- An integer is as long as it was found to be. -/
theorem eq_of_integerScan {base n m : Nat} {digits : List Char} {kind : TokenKind}
    (h : integerScan base digits n = .ok (kind, m)) : m = n := by
  rw [integerScan] at h
  split at h
  · exact (Prod.mk.inj (Except.ok.inj h)).2.symm
  · exact absurd h nofun

/-- The length of a numeral in no announced base is that of its parts. -/
theorem length_of_scanNumber {c : Char} {cs : List Char} {kind : TokenKind} {n : Nat}
    (hbase : (if c = '0' then cs.head?.bind baseOf? else none) = none)
    (h : scanNumber c cs = .ok (kind, n)) :
    let behind := cs.dropWhile isDigitOrGap
    n = (cs.takeWhile isDigitOrGap).length + fractionLength behind +
      exponentLength (behind.drop (fractionLength behind)) := by
  have hparts {l : List Char} {k : Nat} (hk : k ≤ l.length) : (l.take k).length = k :=
    List.length_take_of_le hk
  unfold scanNumber at h
  rw [hbase] at h
  dsimp only at h ⊢
  rw [hparts (fractionLength_le _), hparts (exponentLength_le _)] at h
  repeat' split at h
  · exact eq_of_integerScan h
  · exact eq_of_integerScan h
  · exact (Prod.mk.inj (Except.ok.inj h)).2.symm

/-- A numeral is no longer than the text. -/
theorem le_of_scanNumber {c : Char} {l : List Char} {kind : TokenKind} {n : Nat}
    (h : scanNumber c l = .ok (kind, n)) :
    n ≤ l.length := by
  have hsplit (k : Nat) (b : List Char) : (b.take k).length + (b.drop k).length = b.length := by
    rw [← List.length_append, List.take_append_drop]
  have hwhole : (l.takeWhile isDigitOrGap).length + (l.dropWhile isDigitOrGap).length = l.length := by
    rw [← List.length_append, List.takeWhile_append_dropWhile]
  have hfraction := hsplit (fractionLength (l.dropWhile isDigitOrGap)) (l.dropWhile isDigitOrGap)
  have hexponent := hsplit (exponentLength ((l.dropWhile isDigitOrGap).drop
    (fractionLength (l.dropWhile isDigitOrGap)))) ((l.dropWhile isDigitOrGap).drop
      (fractionLength (l.dropWhile isDigitOrGap)))
  unfold scanNumber at h
  split at h
  · next base hbase =>
    rw [eq_of_integerScan h]
    cases l with
    | nil => simp at hbase
    | cons d l =>
      have := (List.takeWhile_sublist (fun d => isDigitOf base d || d == '_') (l := l)).length_le
      rw [List.drop_succ_cons, List.drop_zero, List.length_cons]
      omega
  · dsimp only at h
    repeat' split at h
    · rw [eq_of_integerScan h]
      omega
    · rw [eq_of_integerScan h]
      omega
    · rw [← (Prod.mk.inj (Except.ok.inj h)).2]
      omega

/-- A numeral that fits in the text is one of the text. -/
theorem scanNumber_cut {c : Char} {kind : TokenKind} {n : Nat}
    (h : scanNumber c (u ++ s) = .ok (kind, n)) (hn : n ≤ u.length) :
    scanNumber c u = .ok (kind, n) := by
  cases hbase : (if c = '0' then (u ++ s).head?.bind baseOf? else none) with
  | some base =>
    have hlen : n = 1 + (((u ++ s).drop 1).takeWhile fun d => isDigitOf base d || d == '_').length := by
      unfold scanNumber at h
      rw [hbase] at h
      exact eq_of_integerScan h
    obtain ⟨d, u, rfl⟩ := List.exists_cons_of_length_pos (by omega : 0 < u.length)
    have hdigits := (@takeWhile_cut u s (fun d => isDigitOf base d || d == '_') (by
      simp only [List.cons_append, List.drop_succ_cons, List.drop_zero, List.length_cons] at hlen hn
      omega)).1
    unfold scanNumber at h ⊢
    rw [hbase] at h
    have hsame : (if c = '0' then (d :: u).head?.bind baseOf? else none) = some base := hbase
    rw [hsame]
    simp only [List.cons_append, List.drop_succ_cons, List.drop_zero, hdigits] at h ⊢
    exact h
  | none =>
    have hlen := length_of_scanNumber hbase h
    dsimp only at hlen
    obtain ⟨hwhole, hbehind⟩ := @takeWhile_cut u s isDigitOrGap (by omega)
    have hsplit : (u.takeWhile isDigitOrGap).length + (u.dropWhile isDigitOrGap).length = u.length := by
      rw [← List.length_append, List.takeWhile_append_dropWhile]
    rw [hwhole, hbehind] at hlen
    have hfraction := @fractionLength_cut (u.dropWhile isDigitOrGap) s (by omega)
    rw [hfraction, List.drop_append_of_le_length (fractionLength_le _)] at hlen
    have hexponent := @exponentLength_cut
      ((u.dropWhile isDigitOrGap).drop (fractionLength (u.dropWhile isDigitOrGap))) s
      (by rw [List.length_drop]; omega)
    have hnone : (if c = '0' then u.head?.bind baseOf? else none) = none := by
      cases u with
      | nil => split <;> rfl
      | cons d u => exact hbase
    unfold scanNumber at h ⊢
    rw [hbase] at h
    rw [hnone]
    simp only [hwhole, hbehind, hfraction, hexponent, List.take_append_of_le_length (fractionLength_le _),
      List.drop_append_of_le_length (fractionLength_le _),
      List.take_append_of_le_length (exponentLength_le _)] at h ⊢
    exact h

/-- A numeral is found whatever follows that continues none. -/
theorem local_scanNumber (c : Char) : Local (scanNumber c) := by
  intro u s s' kind n hs h hn _
  rw [scanNumber_ends c hs]
  exact scanNumber_cut h hn

end PhpGraft.Lexer

import Mathlib.Data.List.Forall2
import PhpGraft.Proofs.Syntax.Cutting
import PhpGraft.Proofs.Text.Search

/-!
# Source that is cut and continued

The tokens of a source put together are the source (`spelled_tokens`), and those at its front are found
by themselves: when what stands behind them is replaced by something that starts in the same way, or
that continues no token, they stay the same (`tokens_continue`).
-/

namespace PhpGraft

/-- A token that differs at most in where it starts. -/
def Token.Same (t t' : Token) : Prop := t'.kind = t.kind ∧ t'.gap = t.gap ∧ t'.text = t.text

namespace Lexer

open Text

/-! ## The extent of a token -/

/-- A scan that finds what is in the text and does not end with a newline. -/
def Measured (f : List Char → Scan) : Prop :=
  ∀ ⦃cs kind n⦄, f cs = .ok (kind, n) → n ≤ cs.length ∧ (cs.take n).getLast? ≠ some '\n'

namespace Measured

variable {f g : List Char → Scan}

/-- What is found in either case is measured. -/
theorem ite {p : List Char → Prop} [DecidablePred p]
    (hf : ∀ ⦃cs kind n⦄, p cs → f cs = .ok (kind, n) →
      n ≤ cs.length ∧ (cs.take n).getLast? ≠ some '\n')
    (hg : Measured g) : Measured fun cs => if p cs then f cs else g cs := by
  intro cs kind n h
  dsimp only at h
  by_cases hp : p cs
  · rw [if_pos hp] at h
    exact hf hp h
  · rw [if_neg hp] at h
    exact hg h

/-- What is part of a line does not end with a newline. -/
theorem of_line {l r : List Char} {n : Nat} (hl : '\n' ∉ l) (hn : n ≤ l.length) :
    n ≤ (l ++ r).length ∧ ((l ++ r).take n).getLast? ≠ some '\n' := by
  rw [List.take_append_of_le_length hn, List.length_append]
  exact ⟨by omega, fun h => hl (List.mem_of_mem_take (List.mem_of_getLast? h))⟩

/-- What ends with a certain character does not end with a newline. -/
theorem of_concat {cs a b : List Char} {c : Char} {n : Nat} (hcs : cs = a ++ c :: b)
    (hn : n = a.length + 1) (hc : c ≠ '\n') :
    n ≤ cs.length ∧ (cs.take n).getLast? ≠ some '\n' := by
  subst hcs hn
  have htake : (a ++ c :: b).take (a.length + 1) = a ++ [c] := by
    rw [List.take_length_add_append]
    rfl
  rw [htake, List.getLast?_concat, List.length_append, List.length_cons]
  exact ⟨by omega, fun h => hc (Option.some.inj h)⟩

end Measured

/-- A text is a line and what follows it. -/
theorem exists_line (cs : List Char) : ∃ l r, cs = l ++ r ∧ '\n' ∉ l ∧ ∀ c ∈ r.head?, c = '\n' := by
  by_cases hmem : '\n' ∈ cs
  · obtain ⟨l, r, rfl, hl⟩ := List.eq_append_cons_of_mem hmem
    exact ⟨l, '\n' :: r, rfl, hl, fun c hc => (Option.some.inj hc).symm⟩
  · exact ⟨cs, [], (List.append_nil cs).symm, hmem, nofun⟩

/-- What is found in a text stands there. -/
theorem exists_of_indexOf? {pat cs : List Char} {n : Nat} (h : indexOf? pat cs = some n) :
    ∃ a b, cs = a ++ (pat ++ b) ∧ a.length = n := by
  induction cs generalizing n with
  | nil =>
    rw [indexOf?] at h
    split at h
    · next hp => exact ⟨[], [], by rw [List.isEmpty_iff.1 hp]; rfl, Option.some.inj h⟩
    · cases h
  | cons c cs ih =>
    rw [indexOf?] at h
    split at h
    · next hp =>
      obtain ⟨b, hb⟩ := List.isPrefixOf_iff_prefix.1 hp
      exact ⟨[], b, hb.symm, Option.some.inj h⟩
    · obtain ⟨k, hk, rfl⟩ := Option.map_eq_some_iff.1 h
      obtain ⟨a, b, rfl, rfl⟩ := ih hk
      exact ⟨c :: a, b, rfl, rfl⟩

/-- A string in single quotes ends with its closing quote. -/
theorem exists_of_singleQuoted? {cs v : List Char} {n : Nat} (h : singleQuoted? cs = some (v, n)) :
    ∃ a b, cs = a ++ '\'' :: b ∧ n = a.length + 1 := by
  fun_induction singleQuoted? cs generalizing v n with
  | case1 => cases h
  | case2 cs => exact ⟨[], cs, rfl, (Prod.mk.inj (Option.some.inj h)).2.symm⟩
  | case3 cs ih =>
    obtain ⟨⟨w, k⟩, hk, he⟩ := Option.map_eq_some_iff.1 h
    obtain ⟨a, b, rfl, rfl⟩ := ih hk
    exact ⟨'\\' :: '\\' :: a, b, rfl, (Prod.mk.inj he).2.symm⟩
  | case4 cs ih =>
    obtain ⟨⟨w, k⟩, hk, he⟩ := Option.map_eq_some_iff.1 h
    obtain ⟨a, b, rfl, rfl⟩ := ih hk
    exact ⟨'\\' :: '\'' :: a, b, rfl, (Prod.mk.inj he).2.symm⟩
  | case5 c cs _ _ _ ih =>
    obtain ⟨⟨w, k⟩, hk, he⟩ := Option.map_eq_some_iff.1 h
    obtain ⟨a, b, rfl, rfl⟩ := ih hk
    exact ⟨c :: a, b, rfl, (Prod.mk.inj he).2.symm⟩

/-- A string up to a quote ends with it. -/
theorem exists_of_doubleQuoted? {q : Char} {cs : List Char} {plain : Bool} {n : Nat}
    (h : doubleQuoted? q cs = some (plain, n)) : ∃ a b, cs = a ++ q :: b ∧ n = a.length + 1 := by
  fun_induction doubleQuoted? q cs generalizing plain n with
  | case1 => cases h
  | case2 => cases h
  | case3 c cs ih =>
    obtain ⟨⟨w, k⟩, hk, he⟩ := Option.map_eq_some_iff.1 h
    obtain ⟨a, b, rfl, rfl⟩ := ih hk
    exact ⟨'\\' :: c :: a, b, rfl, (Prod.mk.inj he).2.symm⟩
  | case4 cs => exact ⟨[], cs, rfl, (Prod.mk.inj (Option.some.inj h)).2.symm⟩
  | case5 c cs _ _ _ ih =>
    obtain ⟨⟨w, k⟩, hk, he⟩ := Option.map_eq_some_iff.1 h
    obtain ⟨a, b, rfl, rfl⟩ := ih hk
    exact ⟨c :: a, b, rfl, (Prod.mk.inj he).2.symm⟩

/-- A heredoc ends with its label. -/
theorem exists_of_closingLength? {label : List Char} {ls : List (List Char)} {n : Nat}
    (h : closingLength? label ls = some n) :
    ∃ a b, ls.flatten = a ++ (label ++ b) ∧ n = a.length + label.length := by
  induction ls generalizing n with
  | nil => exact absurd h nofun
  | cons row rest ih =>
    rw [closingLength?_cons] at h
    by_cases hclose : closesRow label row = true
    · rw [if_pos hclose] at h
      obtain ⟨after, hrow, -⟩ := closesRow_iff.1 hclose
      refine ⟨row.takeWhile isBlank, after ++ rest.flatten, ?_, (Option.some.inj h).symm⟩
      rw [List.flatten_cons, ← List.append_assoc label, ← hrow, ← List.append_assoc, trimStart,
        List.takeWhile_append_dropWhile]
    · rw [if_neg hclose] at h
      obtain ⟨k, hk, rfl⟩ := Option.map_eq_some_iff.1 h
      obtain ⟨a, b, hrest, rfl⟩ := ih hk
      refine ⟨row ++ a, b, ?_, ?_⟩
      · rw [List.flatten_cons, hrest, List.append_assoc]
      · rw [List.length_append, Nat.add_assoc]

/-- A doc comment is measured. -/
theorem measured_scanDoc : Measured scanDoc := by
  intro cs kind n h
  unfold scanDoc at h
  cases hend : indexOf? starSlash (cs.drop 2) with
  | none => rw [hend] at h; exact absurd h nofun
  | some k =>
    rw [hend] at h
    obtain ⟨-, rfl⟩ := Prod.mk.inj (Except.ok.inj h)
    obtain ⟨a, b, hdrop, rfl⟩ := exists_of_indexOf? hend
    have hlen : 2 ≤ cs.length := by
      have := congrArg List.length hdrop
      simp only [List.length_drop, List.length_append, starSlash, List.length_cons] at this
      omega
    refine Measured.of_concat (a := cs.take 2 ++ a ++ ['*']) (b := b) (c := '/') ?_ ?_ (by decide)
    · conv => lhs; rw [← List.take_append_drop 2 cs, hdrop]
      simp [starSlash]
    · simp only [List.length_append, List.length_take, List.length_singleton]
      omega

/-- A heredoc is measured: the label that closes it is a part of the line that opens it. -/
theorem measured_scanHeredoc : Measured scanHeredoc := by
  intro cs kind n h
  obtain ⟨header, body, m, hcs, hheader, hne, hclose, -, rfl⟩ := exists_of_scanHeredoc h
  obtain ⟨a, b, hbody, rfl⟩ := exists_of_closingLength? hclose
  rw [flatten_rows] at hbody
  obtain ⟨init, last, hlast⟩ := (List.eq_nil_or_concat _).resolve_left hne
  rw [List.concat_eq_append] at hlast
  have hmem : last ∈ header := by
    have hin : last ∈ trimWhile isLabelQuote (trim header) := by
      rw [hlast]
      exact List.mem_append_right _ (List.mem_singleton_self last)
    exact (trimWhile_sublist _ _).mem ((trimWhile_sublist _ _).mem hin)
  have hlen : 2 ≤ cs.length := by
    have := congrArg List.length hcs
    simp only [List.length_drop, List.length_append, List.length_cons] at this
    omega
  refine Measured.of_concat (a := cs.take 2 ++ (header ++ '\n' :: a) ++ init) (b := b)
    (c := last) ?_ ?_ fun he => hheader (he ▸ hmem)
  · conv => lhs; rw [← List.take_append_drop 2 cs, hcs, hbody, hlast]
    simp
  · rw [hlast]
    simp only [List.length_append, List.length_take, List.length_cons, List.length_nil]
    omega

/-- What is in a line is measured, if it is the same ahead of anything that continues no token. -/
theorem Measured.of_length {kind : TokenKind} {f : List Char → Nat} (hle : ∀ l, f l ≤ l.length)
    (hends : ∀ l r, Ends r → f (l ++ r) = f l) : Measured fun cs => pure (kind, f cs) := by
  intro cs kind n h
  obtain ⟨-, rfl⟩ := Prod.mk.inj (Except.ok.inj h)
  obtain ⟨l, r, rfl, hl, hr⟩ := exists_line cs
  have hstop : Ends r := fun c hc => hr c hc ▸ rfl
  rw [hends l r hstop]
  exact Measured.of_line hl (hle l)

/-- A numeral is measured. -/
theorem measured_scanNumber (c : Char) : Measured (scanNumber c) := by
  intro cs kind n h
  obtain ⟨l, r, rfl, hl, hr⟩ := exists_line cs
  have hstop : Ends r := fun c hc => hr c hc ▸ rfl
  rw [scanNumber_ends c hstop] at h
  exact Measured.of_line hl (le_of_scanNumber h)

/-- A string in single quotes is measured. -/
theorem measured_scanSingleQuoted : Measured scanSingleQuoted := by
  intro cs kind n h
  unfold scanSingleQuoted at h
  split at h
  · next value k hk =>
    obtain ⟨-, rfl⟩ := Prod.mk.inj (Except.ok.inj h)
    obtain ⟨a, b, hcs, hlen⟩ := exists_of_singleQuoted? hk
    exact Measured.of_concat hcs hlen (by decide)
  · exact absurd h nofun

/-- A string between other quotes is measured. -/
theorem measured_scanDoubleQuoted {q : Char} (hq : q ≠ '\n') : Measured (scanDoubleQuoted q) := by
  intro cs kind n h
  unfold scanDoubleQuoted at h
  split at h
  · next plain k hk =>
    obtain ⟨-, rfl⟩ := Prod.mk.inj (Except.ok.inj h)
    obtain ⟨a, b, hcs, hlen⟩ := exists_of_doubleQuoted? hk
    exact Measured.of_concat hcs hlen hq
  · exact absurd h nofun

/-- The token that starts with a character is measured. -/
theorem measured_scan (c : Char) : Measured (scan c) := by
  have hnone {kind : TokenKind} : Measured fun _ => pure (kind, 0) := by
    intro cs kind n h
    obtain ⟨-, rfl⟩ := Prod.mk.inj (Except.ok.inj h)
    exact ⟨Nat.zero_le _, nofun⟩
  -- a token of two characters
  have hpair {x : Char} (hx : x ≠ '\n') {cs : List Char} (hhead : cs.head? = some x) :
      1 ≤ cs.length ∧ (cs.take 1).getLast? ≠ some '\n' := by
    cases cs with
    | nil => exact absurd hhead nofun
    | cons d cs =>
      obtain rfl := Option.some.inj hhead
      exact Measured.of_concat (a := []) rfl rfl hx
  have hlength {kind kind' : TokenKind} {k n : Nat} (h : (pure (kind', k) : Scan) = .ok (kind, n)) :
      k = n := (Prod.mk.inj (Except.ok.inj h)).2
  have hvar : Measured fun cs => pure (.var, (cs.takeWhile isIdentChar).length) :=
    Measured.of_length (fun l => (List.takeWhile_sublist _).length_le)
      fun l r hr => congrArg _ (takeWhile_ends failsStops_isIdentChar hr).1
  have hname : Measured fun cs => pure (.name, nameLength cs) :=
    Measured.of_length nameLength_le fun l r hr => nameLength_ends hr
  unfold scan
  refine Measured.ite (fun _ _ _ _ h => measured_scanDoc h) ?_
  refine Measured.ite (fun _ _ _ hp h => hlength h ▸ hpair (by decide) hp.2) ?_
  refine Measured.ite (fun cs _ n hp h => ?_) ?_
  · unfold scanCloseTag at h
    dsimp only at h
    split at h
    · exact hlength h ▸ hpair (by decide) hp.2
    · exact absurd h nofun
  refine Measured.ite (fun _ _ _ _ h => measured_scanHeredoc h) ?_
  refine Measured.ite (fun _ _ _ hp h => hlength h ▸ hpair (by decide) hp.2) ?_
  refine Measured.ite (fun _ _ _ hp h => hlength h ▸ hpair (by decide) hp.2) ?_
  refine Measured.ite (fun cs _ n hp h => ?_) ?_
  · obtain ⟨b, rfl⟩ := List.isPrefixOf_iff_prefix.1 hp.2
    exact hlength h ▸ Measured.of_concat (a := ['.']) rfl rfl (by decide)
  refine Measured.ite (fun _ _ _ _ h => hvar h) ?_
  refine Measured.ite (fun _ _ _ _ h => hname h) ?_
  refine Measured.ite (fun _ _ _ _ h => measured_scanNumber c h) ?_
  refine Measured.ite (fun _ _ _ _ h => measured_scanSingleQuoted h) ?_
  refine Measured.ite (fun _ _ _ hp h => measured_scanDoubleQuoted ?_ h) hnone
  rcases hp with rfl | rfl <;> decide

/-! ## The extent of a gap -/

/-- White space and what starts the rest of a text, if the gap of the text is not all blank. -/
theorem exists_blanks {w s r : List Char} {c : Char} (hd : (w ++ s).dropWhile isBlank = c :: r)
    (hlen : ((w ++ s).takeWhile isBlank).length < w.length) :
    ∃ v, w.dropWhile isBlank = c :: v ∧ r = v ++ s ∧
      (w ++ s).takeWhile isBlank = w.takeWhile isBlank := by
  obtain ⟨d, v, hv, -, -, -, hsplit⟩ := @blanks_cut w s 0 (by omega)
  obtain ⟨rfl, rfl⟩ := List.cons.inj (hd.symm.trans (hsplit s).2)
  exact ⟨v, hv, rfl, (hsplit s).1⟩

/-- A text is blank if the white space at the front of a longer one goes up to its end. -/
theorem dropWhile_of_le {w s : List Char} (h : w.length ≤ ((w ++ s).takeWhile isBlank).length) :
    w.dropWhile isBlank = [] := by
  have hall : (w.takeWhile isBlank).length = w.length := by
    rw [List.takeWhile_append] at h
    split at h
    · next hall => exact hall
    · exact Nat.le_antisymm (List.takeWhile_sublist isBlank).length_le h
  have hsplit := congrArg List.length (List.takeWhile_append_dropWhile (p := isBlank) (l := w))
  rw [List.length_append, hall] at hsplit
  exact List.eq_nil_of_length_eq_zero (by omega)

/-- A line comment is no longer than the text. -/
theorem lineCommentLength_le (l : List Char) : lineCommentLength l ≤ l.length := by
  induction l with
  | nil => exact Nat.le_refl _
  | cons c l ih =>
    rw [lineCommentLength]
    split
    · exact Nat.zero_le _
    · exact Nat.succ_le_succ ih

/-- A comment is no longer than the text. -/
theorem plainComment?_le {c : Char} {cs : List Char} {n : Nat}
    (h : plainComment? c cs = .ok (some n)) : n ≤ cs.length := by
  unfold plainComment? at h
  split at h
  · split at h
    · exact absurd h nofun
    · exact Option.some.inj (Except.ok.inj h) ▸ lineCommentLength_le cs
  split at h
  · exact Option.some.inj (Except.ok.inj h) ▸ lineCommentLength_le cs
  split at h
  · split at h
    · exact absurd h nofun
    · split at h
      · next k hk =>
        obtain rfl := Option.some.inj (Except.ok.inj h)
        obtain ⟨a, b, hdrop, rfl⟩ := exists_of_indexOf? hk
        have hlen := congrArg List.length hdrop
        simp only [List.length_drop, List.length_append, starSlash, List.length_cons] at hlen
        omega
      · exact absurd h nofun
  · exact absurd h nofun

/-- A gap is no longer than the text. -/
theorem gapLength_le {cs : List Char} {g : Nat} (h : gapLength cs = .ok g) : g ≤ cs.length := by
  have hsplit := congrArg List.length (List.takeWhile_append_dropWhile (p := isBlank) (l := cs))
  rw [List.length_append] at hsplit
  rcases gapLength_cases h with ⟨-, rfl⟩ | ⟨c, rest, -, -, rfl⟩ | ⟨c, rest, n, more, hd, hc, hm, rfl⟩
  · exact Nat.le_refl _
  · omega
  · rw [hd, List.length_cons] at hsplit
    have hn := plainComment?_le hc
    have hshorter : rest.length < cs.length := by omega
    have hrest := gapLength_le hm
    rw [List.length_drop] at hrest
    omega
termination_by cs.length
decreasing_by
  rw [List.length_drop]
  omega

/-- A comment does not end with a newline. -/
theorem le_of_plainComment? {v s : List Char} {c : Char} {n : Nat}
    (h : plainComment? c (v ++ '\n' :: s) = .ok (some n)) (hn : n ≤ v.length + 1) :
    n ≤ v.length := by
  have hline (hlength : lineCommentLength (v ++ '\n' :: s) = n) : n ≤ v.length := by
    rw [← hlength, lineCommentLength_newline]
    exact lineCommentLength_le v
  unfold plainComment? at h
  split at h
  · split at h
    · exact absurd h nofun
    · exact hline (Option.some.inj (Except.ok.inj h))
  split at h
  · exact hline (Option.some.inj (Except.ok.inj h))
  split at h
  · split at h
    · exact absurd h nofun
    · split at h
      · next k hk =>
        obtain rfl := Option.some.inj (Except.ok.inj h)
        refine Nat.le_of_lt_succ (Nat.lt_of_le_of_ne hn fun hlength => ?_)
        -- the slash would stand where the newline does
        obtain ⟨a, b, hdrop, rfl⟩ := exists_of_indexOf? hk
        have hslash : ((v ++ '\n' :: s).drop 1)[a.length + 1]? = some '/' := by
          rw [hdrop]
          simp [starSlash]
        rw [List.getElem?_drop, ← Nat.add_assoc, Nat.add_right_comm] at hslash
        have hindex : 1 + 1 + a.length = v.length := by omega
        rw [hindex, List.getElem?_append_right (Nat.le_refl _), Nat.sub_self] at hslash
        exact absurd (Option.some.inj hslash) (by decide)
      · exact absurd h nofun
  · exact absurd h nofun

/-- A comment is the same one where the gap behind it is cut off. -/
theorem plainComment?_cut_gap {c : Char} {v s : List Char} {n more : Nat}
    (hc : plainComment? c (v ++ s) = .ok (some n)) (hn : n ≤ v.length)
    (hm : gapLength ((v ++ s).drop n) = .ok more) (hle : v.length ≤ n + more) :
    plainComment? c v = .ok (some n) := by
  -- a close tag would end the gap
  have hclose (hlt : n < v.length) : ¬ ['?', '>'].isPrefixOf ((v ++ s).drop n) = true := by
    intro htag
    obtain ⟨r, hr⟩ := List.isPrefixOf_iff_prefix.1 htag
    have hnone : gapLength ('?' :: '>' :: r) = .ok 0 := gapLength_token rfl rfl
    rw [← hr] at hm
    obtain rfl : 0 = more := Except.ok.inj (hnone.symm.trans hm)
    omega
  rw [← List.append_nil v]
  refine plainComment?_cut ends_nil hc hn fun hline => ?_
  rcases Nat.lt_or_eq_of_le hn with hlt | rfl
  · exact (lineCommentLength_local ends_nil (hline ▸ hlt) (hline ▸ hclose hlt)).trans hline
  · rw [List.append_nil]
    exact lineCommentLength_whole hline

/-- A gap is all gap by itself, and it is so, too, without the newline that ends it. -/
theorem gapLength_whole {w s : List Char} {g : Nat} (h : gapLength (w ++ s) = .ok g)
    (hg : g = w.length ∨ g = w.length + 1 ∧ ∃ r, s = '\n' :: r) : gapLength w = .ok w.length := by
  by_cases hblank : w.length ≤ ((w ++ s).takeWhile isBlank).length
  · exact gapLength_blank (dropWhile_of_le hblank)
  rcases gapLength_cases h with ⟨hd, rfl⟩ | ⟨c, rest, -, -, rfl⟩ | ⟨c, rest, n, more, hd, hc, hm, rfl⟩
  · have hall := List.takeWhile_append_dropWhile (p := isBlank) (l := w ++ s)
    rw [hd, List.append_nil] at hall
    rw [hall, List.length_append] at hblank
    omega
  · omega
  · obtain ⟨v, hv, rfl, htake⟩ := exists_blanks hd (by omega)
    have hsplit : (w.takeWhile isBlank).length + (v.length + 1) = w.length := by
      rw [← List.length_cons (a := c), ← hv, ← List.length_append, List.takeWhile_append_dropWhile]
    rw [htake] at hg
    have hn : n ≤ v.length := by
      rcases hg with hg | ⟨hg, r, rfl⟩
      · omega
      · exact le_of_plainComment? hc (by omega)
    have hcomment : plainComment? c v = .ok (some n) := plainComment?_cut_gap hc hn hm (by omega)
    rw [List.drop_append_of_le_length hn] at hm
    have hrest : gapLength (v.drop n) = .ok (v.drop n).length := by
      refine gapLength_whole hm ?_
      rw [List.length_drop]
      rcases hg with hg | ⟨hg, hs⟩
      · exact .inl (by omega)
      · exact .inr ⟨by omega, hs⟩
    rw [gapLength_comment hv hcomment hrest, List.length_drop]
    exact congrArg _ (by omega)
termination_by w.length
decreasing_by
  rw [List.length_drop]
  omega

/-- A gap goes on behind a newline. -/
theorem gapLength_newline {w r : List Char} {k : Nat} (h : gapLength w = .ok w.length)
    (hr : gapLength ('\n' :: r) = .ok k) : gapLength (w ++ '\n' :: r) = .ok (w.length + k) := by
  have hsplit := congrArg List.length (List.takeWhile_append_dropWhile (p := isBlank) (l := w))
  rw [List.length_append] at hsplit
  rcases gapLength_cases h with ⟨hd, -⟩ | ⟨c, v, hd, -, hlength⟩ | ⟨c, v, n, more, hd, hc, hm, hlength⟩
  · refine gapLength_append ?_ hr
    have hall := List.takeWhile_append_dropWhile (p := isBlank) (l := w)
    rw [hd, List.append_nil] at hall
    exact hall ▸ List.all_takeWhile
  · rw [hd, List.length_cons] at hsplit
    omega
  · rw [hd, List.length_cons] at hsplit
    have hshorter : v.length < w.length := by omega
    have hn : n ≤ v.length := by omega
    have hcomment : plainComment? c (v ++ '\n' :: r) = .ok (some n) := by
      refine plainComment?_cut (s := []) (ends_cons rfl r) (by rw [List.append_nil]; exact hc) hn ?_
      rw [List.append_nil, lineCommentLength_newline]
      exact id
    have hwhole : gapLength (v.drop n) = .ok (v.drop n).length := by
      rw [hm, List.length_drop]
      exact congrArg _ (by omega)
    have hrest := gapLength_newline hwhole hr
    rw [← List.drop_append_of_le_length hn] at hrest
    have hne : ¬ (w.dropWhile isBlank).isEmpty = true := by simp [hd]
    have hdrop : (w ++ '\n' :: r).dropWhile isBlank = c :: (v ++ '\n' :: r) := by
      rw [List.dropWhile_append, if_neg hne, hd, List.cons_append]
    have htake : (w ++ '\n' :: r).takeWhile isBlank = w.takeWhile isBlank := by
      rw [List.takeWhile_append, if_neg (by omega)]
    rw [gapLength_comment hdrop hcomment hrest, htake, List.length_drop]
    exact congrArg _ (by omega)
termination_by w.length
decreasing_by
  rw [List.length_drop]
  omega

/-- The gap of a token is all gap. -/
theorem gapLength_gap {start : Nat} {cs : List Char} {t : Token} {more : List Token}
    (h : tokens start cs = .ok (t :: more)) : gapLength t.gap = .ok t.gap.length := by
  obtain ⟨g, hg, hcases⟩ := tokens_cases h
  have hgap : t.gap = cs.take g := by
    rcases hcases with ⟨-, hts⟩ | ⟨_, _, _, _, _, -, -, -, hts⟩ <;> rw [(List.cons.inj hts).1]
  rw [hgap]
  exact gapLength_whole (s := cs.drop g) (by rw [List.take_append_drop]; exact hg)
    (.inl (List.length_take_of_le (gapLength_le hg)).symm)

/-- What stands behind a gap is not blank. -/
theorem isBlank_of_gapLength {cs rest : List Char} {c : Char} {g : Nat} (h : gapLength cs = .ok g)
    (hd : cs.drop g = c :: rest) : isBlank c = false := by
  rcases gapLength_cases h with ⟨-, rfl⟩ | ⟨d, r, hdrop, -, rfl⟩ | ⟨d, r, n, more, hdrop, hc, hm, rfl⟩
  · rw [List.drop_length] at hd
    exact absurd hd nofun
  · have hbehind := drop_takeWhile_add (p := isBlank) cs 0
    rw [Nat.add_zero, hd, List.drop_zero] at hbehind
    exact isBlank_of_dropWhile hbehind.symm
  · have hshorter : r.length < cs.length := by
      have := length_dropWhile_le isBlank cs
      rw [hdrop, List.length_cons] at this
      omega
    refine @isBlank_of_gapLength _ rest c more hm ?_
    rw [← drop_comment d, ← hdrop, ← drop_takeWhile_add, ← hd]
    exact congrArg (cs.drop ·) (by omega)
termination_by cs.length
decreasing_by
  rw [List.length_drop]
  omega

/-- A token has a last character, and it is no newline. -/
theorem exists_getLast?_text {start : Nat} {cs : List Char} {t : Token} {more : List Token}
    (h : tokens start cs = .ok (t :: more)) (hne : t.kind ≠ .eof) :
    ∃ d, t.text.getLast? = some d ∧ d ≠ '\n' := by
  obtain ⟨g, hg, ⟨-, hts⟩ | ⟨c, rest, kind, n, _, hd, hs, -, hts⟩⟩ := tokens_cases h
  · exact absurd (congrArg Token.kind (List.cons.inj hts).1) hne
  · rw [(List.cons.inj hts).1]
    have hlast := (measured_scan c hs).2
    rw [List.getLast?_cons]
    cases hrest : (rest.take n).getLast? with
    | none =>
      refine ⟨c, rfl, ?_⟩
      rintro rfl
      exact absurd (isBlank_of_gapLength hg hd) (by decide)
    | some d =>
      refine ⟨d, rfl, ?_⟩
      rintro rfl
      exact hlast hrest

/-! ## Continuing a source -/

/-- The gaps and texts of the tokens of a source put together are the source. -/
theorem spelled_tokens {start : Nat} {cs : List Char} {ts : List Token}
    (h : tokens start cs = .ok ts) : Token.spelled ts = cs := by
  induction ts generalizing start cs with
  | nil => obtain ⟨_, _, ⟨_, hts⟩ | ⟨_, _, _, _, _, _, _, _, hts⟩⟩ := tokens_cases h <;> exact absurd hts nofun
  | cons t ts ih =>
    obtain ⟨g, -, ⟨hd, hts⟩ | ⟨c, rest, kind, n, more, hd, -, hm, hts⟩⟩ := tokens_cases h
    · obtain ⟨rfl, rfl⟩ := List.cons.inj hts
      simp [Token.spelled, List.take_of_length_le (List.drop_eq_nil_iff.1 hd)]
    · obtain ⟨rfl, rfl⟩ := List.cons.inj hts
      rw [Token.spelled_cons, ih hm, List.cons_append, List.take_append_drop, ← hd,
        List.take_append_drop]

/-- Tokens that differ in where they start are spelled the same way. -/
theorem spelled_same {us us' : List Token} (h : List.Forall₂ Token.Same us us') :
    Token.spelled us' = Token.spelled us := by
  induction h with
  | nil => rfl
  | cons hsame _ ih =>
    obtain ⟨-, hgap, htext⟩ := hsame
    rw [Token.spelled_cons, Token.spelled_cons, ih, hgap, htext]

/-- Tokens that differ in where they start are of the same kinds. -/
theorem kinds_same {us us' : List Token} (h : List.Forall₂ Token.Same us us') :
    us'.map Token.kind = us.map Token.kind := by
  induction h with
  | nil => rfl
  | cons hsame _ ih => rw [List.map_cons, List.map_cons, ih, hsame.1]

/-- The tokens at the front of a source stay the same when what stands behind them, from some place on,
is replaced by what continues no token. -/
theorem tokens_continue {us more ts : List Token} {start start' : Nat} {cs v s s' : List Char}
    (h : tokens start cs = .ok (us ++ more)) (hmore : Token.spelled more = v ++ s) (hne : more ≠ [])
    (hclose : ∀ t ∈ us, t.kind ≠ .closeTag) (hs : Ends s')
    (hts : tokens (start' + byteLength (Token.spelled us)) (v ++ s') = .ok ts) :
    ∃ us', List.Forall₂ Token.Same us us' ∧ (start' = start → us' = us) ∧
      tokens start' (Token.spelled us ++ (v ++ s')) = .ok (us' ++ ts) := by
  induction us generalizing start start' cs with
  | nil => exact ⟨[], .nil, fun _ => rfl, hts⟩
  | cons u us ih =>
    obtain ⟨g, hg, ⟨-, hlast⟩ | ⟨c, rest, kind, n, others, hd, hscan, hm, hcons⟩⟩ := tokens_cases h
    · exact absurd (List.append_eq_nil_iff.1 (List.cons.inj hlast).2).2 hne
    obtain ⟨rfl, rfl⟩ := List.cons.inj hcons
    have hkind : kind ≠ .closeTag := hclose _ (List.mem_cons_self ..)
    -- the text is the gap, the token, the tokens behind it and what stands behind these
    have hbehind : rest.drop n = Token.spelled us ++ (v ++ s) := by
      rw [← spelled_tokens hm, ← hmore]
      exact List.flatMap_append
    have hlength : (rest.take n).length = n := List.length_take_of_le (measured_scan c hscan).1
    have hgap : (cs.take g).length = g := List.length_take_of_le (gapLength_le hg)
    have hrest (r : List Char) : rest.take n ++ (Token.spelled us ++ v) ++ r =
        rest.take n ++ (Token.spelled us ++ (v ++ r)) := by simp only [List.append_assoc]
    have hcs (r : List Char) : cs.take g ++ c :: (rest.take n ++ (Token.spelled us ++ v)) ++ r =
        cs.take g ++ c :: (rest.take n ++ (Token.spelled us ++ (v ++ r))) := by
      simp only [List.append_assoc, List.cons_append]
    have hold : rest.take n ++ (Token.spelled us ++ v) ++ s = rest := by
      rw [hrest, ← hbehind, List.take_append_drop]
    have hfull : cs.take g ++ c :: (rest.take n ++ (Token.spelled us ++ v)) ++ s = cs := by
      rw [hcs, ← hrest, hold, ← hd, List.take_append_drop]
    have hgap' : gapLength (cs.take g ++ c :: (rest.take n ++ (Token.spelled us ++ v)) ++ s') = .ok g := by
      refine gapLength_local (s := s) hs (by rw [hfull]; exact hg) (by rw [hfull]; exact hd) hscan hkind ?_
      simp only [List.length_append, List.length_cons, hgap, hlength]
      omega
    have hscan' : scan c (rest.take n ++ (Token.spelled us ++ (v ++ s'))) = .ok (kind, n) := by
      rw [← hrest]
      refine local_scan c (s := s) hs (by rw [hold]; exact hscan) ?_ hkind
      rw [List.length_append, hlength]
      exact Nat.le_add_right n _
    -- the tokens behind start where the token ends
    have hspelled : Token.spelled (⟨kind, cs.take g, c :: rest.take n, start + byteLength (cs.take g)⟩ :: us) =
        cs.take g ++ c :: rest.take n ++ Token.spelled us := rfl
    rw [hspelled] at hts ⊢
    rw [byteLength_append, byteLength_append, ← Nat.add_assoc, ← Nat.add_assoc] at hts
    obtain ⟨us', hsame, hstart, htokens⟩ := ih hm (fun t h => hclose t (List.mem_cons_of_mem _ h)) hts
    refine ⟨⟨kind, cs.take g, c :: rest.take n, start' + byteLength (cs.take g)⟩ :: us',
      .cons ⟨rfl, rfl, rfl⟩ hsame, fun he => ?_, ?_⟩
    · rw [he] at hstart ⊢
      rw [hstart rfl]
    rw [hcs] at hgap'
    rw [List.append_assoc, List.append_assoc, List.cons_append]
    have htake (r : List Char) : (cs.take g ++ r).take g = cs.take g := by
      conv => lhs; arg 1; rw [← hgap]
      exact List.take_left
    have hdrop (r : List Char) : (cs.take g ++ r).drop g = r := by
      conv => lhs; arg 1; rw [← hgap]
      exact List.drop_left
    have htext (r : List Char) : (rest.take n ++ r).take n = rest.take n ∧ (rest.take n ++ r).drop n = r := by
      constructor
      · conv => lhs; arg 1; rw [← hlength]
        exact List.take_left
      · conv => lhs; arg 1; rw [← hlength]
        exact List.drop_left
    have := @tokens_cons start' _ _ _ _ _ _ _ hgap' (hdrop _) hscan' (by
      rw [htake, (htext _).1, (htext _).2]
      exact htokens)
    rw [htake, (htext _).1] at this
    exact this

end Lexer

end PhpGraft

import PhpGraft.Proofs.Syntax.Heredocs

/-!
# Source in another layout

Source is written line by line with other white space at the ends of its lines, and with a closing
brace on a line of its own behind it. The tokens are those of the source: white space with a newline
in it makes gaps and strings longer or shorter, but a token still ends where it did, as it ends at
the latest with its line or at a delimiter that no white space holds.
-/

namespace PhpGraft

open Decimal Lexer Text

/-- Whether a character is white space in ASCII. -/
def isSpace (c : Char) : Bool :=
  c == ' ' || c == '\t' || c == '\n' || c == '\r' || c == '\x0b' || c == '\x0c'

/-- White space continues no token. -/
theorem isStop_of_isSpace {c : Char} (h : isSpace c = true) : isStop c = true := by
  rw [isSpace] at h
  simp only [isStop, h, Bool.true_or]

/-- White space in ASCII is white space. -/
theorem isBlank_of_isSpace {c : Char} (h : isSpace c = true) : isBlank c = true := by
  simp only [isSpace, Bool.or_eq_true, beq_iff_eq, or_assoc] at h
  rcases h with rfl | rfl | rfl | rfl | rfl | rfl <;> rfl

/-- White space is white space in ASCII. -/
theorem isSpace_of_isBlank {c : Char} (hascii : c.toNat < 128) (h : isBlank c = true) :
    isSpace c = true := by
  simp only [isBlank, Bool.or_eq_true, Bool.and_eq_true, decide_eq_true_eq, beq_iff_eq] at h
  simp only [isSpace, Bool.or_eq_true, beq_iff_eq, char_eq_iff]
  have hcodes : ' '.toNat = 32 ∧ '\t'.toNat = 9 ∧ '\n'.toNat = 10 ∧ '\r'.toNat = 13 ∧
      '\x0b'.toNat = 11 ∧ '\x0c'.toNat = 12 := ⟨rfl, rfl, rfl, rfl, rfl, rfl⟩
  omega

/-- A text of white space is blank. -/
theorem blank_of_spaces {w : List Char} (h : w.all isSpace = true) : w.all isBlank = true :=
  List.all_eq_true.2 fun c hc => isBlank_of_isSpace (List.all_eq_true.1 h c hc)

/-- A text of white space ahead of what continues no token continues none. -/
theorem ends_of_spaces {w s : List Char} (h : w.all isSpace = true) (hs : Ends s) : Ends (w ++ s) := by
  cases w with
  | nil => exact hs
  | cons c w => exact ends_cons (isStop_of_isSpace (Bool.and_eq_true_iff.1 h).1) _

/-- White space with a newline in it. -/
structure IsBreak (w : List Char) : Prop where
  space : w.all isSpace = true
  newline : '\n' ∈ w

namespace IsBreak

variable {w : List Char}

/-- A newline is a break. -/
theorem single : IsBreak ['\n'] := ⟨rfl, List.mem_singleton_self _⟩

/-- A break has a first newline. -/
theorem exists_newline (h : IsBreak w) :
    ∃ a b, w = a ++ '\n' :: b ∧ '\n' ∉ a ∧ a.all isSpace = true ∧ b.all isSpace = true := by
  obtain ⟨a, b, rfl, hnone⟩ := List.eq_append_cons_of_mem h.newline
  have hall := h.space
  rw [List.all_append, List.all_cons, Bool.and_eq_true_iff, Bool.and_eq_true_iff] at hall
  exact ⟨a, b, rfl, hnone, hall.1, hall.2.2⟩

/-- A newline and white space behind it are a break. -/
theorem cons (h : w.all isSpace = true) : IsBreak ('\n' :: w) :=
  ⟨by rw [List.all_cons, h]; rfl, List.mem_cons_self ..⟩

/-- White space ahead of a break and behind it belongs to it. -/
theorem extend {a b : List Char} (ha : a.all isSpace = true) (h : IsBreak w)
    (hb : b.all isSpace = true) : IsBreak (a ++ (w ++ b)) :=
  ⟨by rw [List.all_append, List.all_append, ha, h.space, hb]; rfl,
    List.mem_append_right _ (List.mem_append_left _ h.newline)⟩

end IsBreak

/-- A text that is empty or starts with a newline. -/
def EndsLine (r : List Char) : Prop := ∀ c ∈ r.head?, c = '\n'

/-- The end of a line continues no token. -/
theorem EndsLine.ends {r : List Char} (h : EndsLine r) : Ends r := fun c hc => by
  rw [h c hc]
  rfl

/-- A text with other breaks between its lines, ahead of a tail that stands in the place of the white
space behind the text. -/
inductive Reflows (tail : List Char) : List Char → List Char → Prop where
  | nil {w : List Char} (hw : w.all isSpace = true) : Reflows tail w tail
  | cons {cs ds : List Char} (c : Char) (h : Reflows tail cs ds) : Reflows tail (c :: cs) (c :: ds)
  | gap {w w' cs ds : List Char} (hw : IsBreak w) (hw' : IsBreak w') (h : Reflows tail cs ds) :
    Reflows tail (w ++ cs) (w' ++ ds)

namespace Reflows

variable {tail cs ds : List Char}

/-- A character that is no white space stays as it is. -/
theorem exists_cons {c : Char} (hc : isSpace c = false) (h : Reflows tail (c :: cs) ds) :
    ∃ es, ds = c :: es ∧ Reflows tail cs es := by
  have hnot {w cs' : List Char} (hw : w.all isSpace = true) (hne : w ≠ []) :
      c :: cs ≠ w ++ cs' := by
    intro he
    obtain ⟨d, w, rfl⟩ := List.exists_cons_of_ne_nil hne
    obtain ⟨rfl, -⟩ := List.cons.inj he
    rw [(Bool.and_eq_true_iff.1 hw).1] at hc
    cases hc
  generalize htext : c :: cs = text at h
  cases h with
  | nil hw =>
    subst htext
    rw [(Bool.and_eq_true_iff.1 hw).1] at hc
    cases hc
  | cons d h =>
    obtain ⟨rfl, rfl⟩ := List.cons.inj htext
    exact ⟨_, rfl, h⟩
  | gap hw hw' h => exact absurd htext (hnot hw.space (List.ne_nil_of_mem hw.newline))

/-- The same text may stand ahead of both. -/
theorem append_left (l : List Char) (h : Reflows tail cs ds) : Reflows tail (l ++ cs) (l ++ ds) := by
  induction l with
  | nil => exact h
  | cons c l ih => exact .cons c ih

/-- Nothing but white space is left behind an end. -/
theorem exists_tail (h : Reflows tail [] ds) : ds = tail := by
  generalize htext : [] = text at h
  cases h with
  | nil hw => rfl
  | cons c h => cases htext
  | gap hw hw' h =>
    rw [(List.append_eq_nil_iff.1 htext.symm).1] at hw
    exact absurd hw.newline List.not_mem_nil

/-- The first lines are the same up to white space at their ends. Behind them the text ends, or else
there are breaks. -/
theorem exists_line (h : Reflows tail cs ds) :
    ∃ l r s, cs = l ++ r ∧ ds = l ++ s ∧ '\n' ∉ l ∧ Reflows tail r s ∧
      ((r.all isSpace = true ∧ s = tail) ∨ ∃ w w' r₀ s₀, r = w ++ r₀ ∧ s = w' ++ s₀ ∧ IsBreak w ∧
        IsBreak w' ∧ Reflows tail r₀ s₀) := by
  induction h with
  | @nil w hw => exact ⟨[], w, tail, rfl, rfl, List.not_mem_nil, .nil hw, .inl ⟨hw, rfl⟩⟩
  | @cons cs ds c h ih =>
    by_cases hc : c = '\n'
    · subst hc
      exact ⟨[], _, _, rfl, rfl, List.not_mem_nil, h.cons _,
        .inr ⟨['\n'], ['\n'], cs, ds, rfl, rfl, .single, .single, h⟩⟩
    · obtain ⟨l, r, s, rfl, rfl, hl, hrs, hcases⟩ := ih
      exact ⟨c :: l, r, s, rfl, rfl, by simp [hl, Ne.symm hc], hrs, hcases⟩
  | @gap w w' cs ds hw hw' h ih =>
    exact ⟨[], _, _, rfl, rfl, List.not_mem_nil, .gap hw hw' h,
      .inr ⟨w, w', cs, ds, rfl, rfl, hw, hw', h⟩⟩

/-- What stands behind the first lines continues no token. -/
theorem ends_of_cases {r s : List Char} (ht : EndsLine tail)
    (h : (r.all isSpace = true ∧ s = tail) ∨ ∃ w w' r₀ s₀, r = w ++ r₀ ∧ s = w' ++ s₀ ∧ IsBreak w ∧
      IsBreak w' ∧ Reflows tail r₀ s₀) : Ends r ∧ Ends s := by
  have hbreak {w t : List Char} (hw : IsBreak w) : Ends (w ++ t) := by
    obtain ⟨c, w, rfl⟩ := List.exists_cons_of_ne_nil (List.ne_nil_of_mem hw.newline)
    exact ends_cons (isStop_of_isSpace (Bool.and_eq_true_iff.1 hw.space).1) _
  rcases h with ⟨hr, rfl⟩ | ⟨w, w', r₀, s₀, rfl, rfl, hw, hw', -⟩
  · have := ends_of_spaces hr ends_nil
    rw [List.append_nil] at this
    exact ⟨this, ht.ends⟩
  · exact ⟨hbreak hw, hbreak hw'⟩

/-- What is cut off the first line may be cut off both. -/
theorem drop_line {l r s : List Char} (h : Reflows tail r s) {n : Nat} (hn : n ≤ l.length) :
    Reflows tail ((l ++ r).drop n) ((l ++ s).drop n) := by
  rw [List.drop_append_of_le_length hn, List.drop_append_of_le_length hn]
  exact h.append_left _

/-- White space at the front may be longer or shorter. -/
theorem exists_blank (h : Reflows tail cs ds) :
    ∃ b es, ds = b ++ es ∧ b.all isBlank = true ∧ Reflows tail (cs.dropWhile isBlank) es := by
  induction h with
  | @nil w hw =>
    have hnone := dropWhile_blank (blank_of_spaces hw)
    exact ⟨[], tail, rfl, rfl, hnone ▸ .nil (w := []) rfl⟩
  | @cons cs ds c h ih =>
    by_cases hc : isBlank c = true
    · obtain ⟨b, es, rfl, hb, hes⟩ := ih
      rw [List.dropWhile_cons_of_pos hc]
      exact ⟨c :: b, es, rfl, by rw [List.all_cons, hc, hb, Bool.and_self], hes⟩
    · rw [List.dropWhile_cons_of_neg hc]
      exact ⟨[], _, rfl, rfl, h.cons c⟩
  | @gap w w' cs ds hw hw' h ih =>
    obtain ⟨b, es, rfl, hb, hes⟩ := ih
    rw [dropWhile_blank_append (blank_of_spaces hw.space)]
    refine ⟨w' ++ b, es, (List.append_assoc ..).symm, ?_, hes⟩
    rw [List.all_append, blank_of_spaces hw'.space, hb, Bool.and_self]

end Reflows

namespace Lexer

variable {tail l r cs ds : List Char}

/-- A character that is no stop is next on a line or not at all. -/
theorem head?_ends (hr : Ends r) {x : Char} (hx : isStop x = false) :
    (l ++ r).head? = some x ↔ l.head? = some x :=
  ⟨(marks_head hx).ends hr, fun h => (marks_head hx).append h r⟩

/-- A test that stops fail is passed on the line or not at all. -/
theorem any_head?_ends (hr : Ends r) {p : Char → Bool} (hp : FailsStops p) :
    (l ++ r).head?.any p = l.head?.any p :=
  Bool.eq_iff_iff.2 ⟨any_head?_of_ends hp hr, fun h => (marks_any hp).append h r⟩

/-- A text without stops stands at the front of a line or not at all. -/
theorem isPrefixOf_ends (hr : Ends r) {p : List Char} (hp : p.any isStop = false) :
    p.isPrefixOf (l ++ r) = p.isPrefixOf l :=
  Bool.eq_iff_iff.2 ⟨isPrefixOf_of_ends hp hr, fun h => isPrefixOf_append h r⟩

/-- A line comment ends with its line, or with the white space behind it. -/
theorem lineComment_reflows (ht : EndsLine tail) (h : Reflows tail cs ds) :
    Reflows tail (cs.drop (lineCommentLength cs)) (ds.drop (lineCommentLength ds)) := by
  have hskip {a b : List Char} (hn : '\n' ∉ a) (ha : a.all isSpace = true) :
      lineCommentLength (a ++ '\n' :: b) = a.length := by
    induction a with
    | nil => rfl
    | cons c a ih =>
      obtain ⟨hc, hn⟩ := not_or.1 (mt List.mem_cons.2 hn)
      obtain ⟨hspace, ha⟩ := Bool.and_eq_true_iff.1 ha
      have hquestion : c ≠ '?' := by
        rintro rfl
        exact absurd hspace (by decide)
      rw [List.cons_append, lineCommentLength, if_neg (by simp [Ne.symm hc, hquestion]), ih hn ha]
      rfl
  induction h with
  | @nil w hw =>
    have htail : lineCommentLength tail = 0 := by
      cases tail with
      | nil => rfl
      | cons c tail => exact if_pos (.inl (ht c rfl))
    rw [htail]
    refine .nil (List.all_eq_true.2 fun c hc => ?_)
    exact List.all_eq_true.1 hw c (List.mem_of_mem_drop hc)
  | @cons cs ds c h ih =>
    obtain ⟨l, r, s, rfl, rfl, -, -, hcases⟩ := h.exists_line
    obtain ⟨hr, hs⟩ := Reflows.ends_of_cases ht hcases
    have hnext : (l ++ s).head? = some '>' ↔ (l ++ r).head? = some '>' := by
      rw [head?_ends hr (by decide), head?_ends hs (by decide)]
    by_cases hc : c = '\n' ∨ (c = '?' ∧ (l ++ r).head? = some '>')
    · rw [lineCommentLength, if_pos hc, lineCommentLength, if_pos (by rwa [hnext])]
      exact h.cons c
    · rw [lineCommentLength, if_neg hc, lineCommentLength, if_neg (by rwa [hnext])]
      exact ih
  | @gap w w' cs ds hw hw' h ih =>
    obtain ⟨a, b, rfl, hn, ha, hb⟩ := hw.exists_newline
    obtain ⟨a', b', rfl, hn', ha', hb'⟩ := hw'.exists_newline
    rw [List.append_assoc, List.append_assoc, List.cons_append, List.cons_append, hskip hn ha,
      hskip hn' ha', List.drop_left, List.drop_left]
    exact .gap (.cons hb) (.cons hb') h

end Lexer

end PhpGraft

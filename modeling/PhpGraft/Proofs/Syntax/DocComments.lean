import PhpGraft.Proofs.Syntax.Lexing
import PhpGraft.Proofs.Text.Lines
import PhpGraft.Proofs.Text.Search

/-!
# Doc comments as they are written

A stored doc comment is written line by line with white space ahead of each line. What is written is
one token, it ends at the first star and slash, and it is stored as the same comment again.
-/

namespace PhpGraft

open Lexer Text

/-! ## The end of a comment -/

/-- An end of a comment is a star ahead of a slash. -/
theorem isPrefixOf_starSlash {c : Char} {cs : List Char} :
    starSlash.isPrefixOf (c :: cs) = true ↔ c = '*' ∧ cs.head? = some '/' := by
  rw [List.isPrefixOf_iff_prefix]
  constructor
  · rintro ⟨t, h⟩
    obtain ⟨rfl, rfl⟩ := List.cons.inj h
    exact ⟨rfl, rfl⟩
  · rintro ⟨rfl, h⟩
    cases cs with
    | nil => exact absurd h nofun
    | cons d cs =>
      obtain rfl := Option.some.inj h
      exact ⟨cs, rfl⟩

/-- A text in which no comment ends. -/
def Clear (cs : List Char) : Prop := indexOf? starSlash cs = none

namespace Clear

variable {a b cs : List Char} {c : Char}

/-- A text goes on without an end of a comment where none starts. -/
theorem cons_iff : Clear (c :: cs) ↔ ¬(c = '*' ∧ cs.head? = some '/') ∧ Clear cs := by
  rw [Clear, indexOf?, ← isPrefixOf_starSlash]
  split
  · next h => simp [h]
  · next h => simp [Clear, h]

/-- A text that is no star starts no end of a comment. -/
theorem cons (hc : c ≠ '*') (h : Clear cs) : Clear (c :: cs) :=
  cons_iff.2 ⟨fun hstar => hc hstar.1, h⟩

/-- A character that belongs to no end of a comment keeps two texts apart. -/
theorem append_cons (ha : Clear a) (h₁ : c ≠ '*') (h₂ : c ≠ '/') (hb : Clear b) :
    Clear (a ++ c :: b) := by
  induction a with
  | nil => exact cons h₁ hb
  | cons d a ih =>
    obtain ⟨hstart, ha⟩ := cons_iff.1 ha
    refine cons_iff.2 ⟨fun ⟨hd, hhead⟩ => hstart ⟨hd, ?_⟩, ih ha⟩
    cases a with
    | nil => exact absurd (Option.some.inj hhead) h₂
    | cons e a => exact hhead

/-- No comment ends in a part of a text in which none ends. -/
theorem of_append (h : Clear (a ++ b)) : Clear a ∧ Clear b := by
  induction a with
  | nil => exact ⟨rfl, h⟩
  | cons c a ih =>
    rw [List.cons_append] at h
    obtain ⟨hstart, hrest⟩ := cons_iff.1 h
    obtain ⟨ha, hb⟩ := ih hrest
    refine ⟨cons_iff.2 ⟨fun ⟨hc, hhead⟩ => hstart ⟨hc, ?_⟩, ha⟩, hb⟩
    rw [List.head?_append, hhead, Option.some_or]

/-- A comment ends behind the text in which none ends. -/
theorem indexOf?_append (h : Clear cs) (f : List Char) :
    indexOf? starSlash (cs ++ (starSlash ++ f)) = some cs.length := by
  induction cs with
  | nil => rfl
  | cons c cs ih =>
    obtain ⟨hstart, hcs⟩ := cons_iff.1 h
    have hfirst : ¬starSlash.isPrefixOf (c :: (cs ++ (starSlash ++ f))) = true := by
      rw [isPrefixOf_starSlash]
      cases cs with
      | nil => exact fun h => by simp [starSlash] at h
      | cons d cs => exact hstart
    rw [List.cons_append, indexOf?, if_neg hfirst, ih hcs]
    rfl

end Clear

/-! ## The text of a comment -/

/-- A text that is one doc comment: no slash stands behind the two stars that open it, and it ends at the
first end of a comment behind them. -/
def IsDocText (text : List Char) : Prop :=
  ∃ v, text = '/' :: '*' :: '*' :: (v ++ starSlash) ∧ Clear v ∧ (v ++ starSlash).head? ≠ some '/'

namespace IsDocText

variable {text g f : List Char}

/-- A doc comment is found whatever follows it. -/
theorem exists_scan (h : IsDocText text) : ∃ cs, text = '/' :: cs ∧ ∀ f,
    plainComment? '/' (cs ++ f) = .ok none ∧ scan '/' (cs ++ f) = .ok (.docComment, cs.length) := by
  obtain ⟨v, rfl, hclear, hopen⟩ := h
  refine ⟨_, rfl, fun f => ⟨?_, ?_⟩⟩
  · cases e : v ++ starSlash with
    | nil => simp [starSlash] at e
    | cons c w =>
      have hc : ['/'].isPrefixOf (c :: (w ++ f)) = false := by
        have : c ≠ '/' := by simpa [e] using hopen
        simp [List.isPrefixOf, Ne.symm this]
      simp [plainComment?, hc]
      rfl
  · have hdoc : scan '/' ('*' :: '*' :: (v ++ starSlash) ++ f) =
        scanDoc ('*' :: '*' :: (v ++ starSlash) ++ f) := by
      rw [scan, if_pos ⟨rfl, rfl⟩]
    have hdrop : ('*' :: '*' :: (v ++ starSlash) ++ f).drop 2 = v ++ (starSlash ++ f) := by simp
    rw [hdoc, scanDoc, hdrop, hclear.indexOf?_append]
    simp [starSlash]
    rfl

/-- A doc comment behind white space is one token, and it ends where the text of the comment does. -/
theorem tokens_append (h : IsDocText text) (hg : g.all isBlank = true) {start : Nat} {more : List Token}
    (hm : tokens (start + byteLength g + byteLength text) f = .ok more) :
    tokens start (g ++ (text ++ f)) = .ok (⟨.docComment, g, text, start + byteLength g⟩ :: more) := by
  obtain ⟨cs, rfl, hscan⟩ := h.exists_scan
  obtain ⟨hcomment, hdoc⟩ := hscan f
  exact tokens_text_append hg rfl hcomment hdoc hm

end IsDocText

/-! ## The lines of a comment -/

/-- Lines of which the last one ends in the first end of a comment. -/
def Closes : List (List Char) → Prop
  | [] => False
  | [l] => ∃ v, l = v ++ starSlash ∧ Clear v
  | l :: m :: ls => Clear l ∧ Closes (m :: ls)

/-- The lines of a doc comment as it is stored; `a` is what follows its mark on the first line. -/
structure StoredDoc (a : List Char) (ls : List (List Char)) : Prop where
  closes : Closes (a :: ls)
  open_ : a.head? ≠ some '/'
  first : trim ('/' :: '*' :: '*' :: a) = '/' :: '*' :: '*' :: a
  others : ∀ l ∈ ls, DocComment.continuation l = l
  noNewline : ∀ l ∈ a :: ls, '\n' ∉ l

/-- The text of a stored doc comment. -/
def docText (a : List Char) (ls : List (List Char)) : List Char :=
  joinWith ['\n'] (('/' :: '*' :: '*' :: a) :: ls)

variable {a m : List Char} {ls : List (List Char)}

/-- Lines that are put together end in the first end of a comment. -/
theorem Closes.exists_join (h : Closes ls) :
    ∃ v, joinWith ['\n'] ls = v ++ starSlash ∧ Clear v := by
  induction ls with
  | nil => exact absurd h id
  | cons l ls ih =>
    cases ls with
    | nil => exact h
    | cons k ls =>
      obtain ⟨v, hv, hclear⟩ := ih h.2
      refine ⟨l ++ '\n' :: v, ?_, h.1.append_cons (by decide) (by decide) hclear⟩
      rw [joinWith_cons_cons, hv]
      simp

/-- The last one of such lines is not empty. -/
theorem Closes.getLast?_ne (h : Closes ls) : ls.getLast? ≠ some [] := by
  induction ls with
  | nil => exact absurd h id
  | cons l ls ih =>
    cases ls with
    | nil =>
      obtain ⟨v, rfl, -⟩ := h
      simp [starSlash]
    | cons k ls =>
      rw [List.getLast?_cons_cons]
      exact ih h.2

/-- White space ahead of a text ends no comment. -/
theorem Clear.indent (hm : IsMargin m) {l : List Char} (h : Clear l) : Clear (m ++ l) := by
  induction m with
  | nil => exact h
  | cons c m ih =>
    refine Clear.cons ?_ (ih fun d hd => hm d (List.mem_cons_of_mem _ hd))
    rintro rfl
    exact absurd (hm _ (List.mem_cons_self ..)) (by decide)

/-- A change of lines after which a comment ends where it did. -/
structure KeepsEnd (change : List Char → List Char) : Prop where
  clear : ∀ {l}, Clear l → Clear (change l)
  closing : ∀ {v}, Clear v → ∃ w, change (v ++ starSlash) = w ++ starSlash ∧ Clear w

namespace KeepsEnd

variable {first change : List Char → List Char} {l : List Char}

/-- A line that is left alone ends as it did. -/
theorem id : KeepsEnd fun l => l := ⟨fun h => h, fun h => ⟨_, rfl, h⟩⟩

/-- Margins change nothing about where a comment ends. -/
theorem indented (hm : IsMargin m) : KeepsEnd (indented m) where
  clear h := by
    rw [Text.indented]
    split
    · rfl
    · exact h.indent hm
  closing {v} hv := by
    refine ⟨m ++ v, ?_, hv.indent hm⟩
    rw [Text.indented, if_neg (by simp [starSlash]), List.append_assoc]

/-- The first line of a comment may be changed in a way of its own. -/
theorem closes (hfirst : KeepsEnd first) (hchange : KeepsEnd change) (h : Closes (l :: ls)) :
    Closes (first l :: ls.map change) := by
  induction ls generalizing l first with
  | nil =>
    obtain ⟨v, rfl, hv⟩ := h
    exact hfirst.closing hv
  | cons k ls ih => exact ⟨hfirst.clear h.1, ih hchange h.2⟩

end KeepsEnd

/-- The mark of a doc comment stands ahead of its lines. -/
theorem docText_eq (a : List Char) (ls : List (List Char)) :
    docText a ls = '/' :: '*' :: '*' :: joinWith ['\n'] (a :: ls) := by
  cases ls <;> rfl

/-- A line of a stored comment does not end in white space. -/
theorem not_blank_of_continuation {l : List Char} (h : DocComment.continuation l = l) {c : Char}
    (hc : l.getLast? = some c) : isBlank c = false := by
  rw [← h, DocComment.continuation] at hc
  split at hc
  · next hstar =>
    cases ht : trim l with
    | nil => simp [ht] at hstar
    | cons d t =>
      rw [ht, List.getLast?_cons_cons, ← ht] at hc
      exact getLast?_trim hc
  · exact getLast?_trim hc

/-- A line of a stored comment is stored the same behind a margin. -/
theorem continuation_indented (hm : IsMargin m) (l : List Char) :
    DocComment.continuation (indented m l) = DocComment.continuation l := by
  rw [indented]
  split
  · next h => rw [h]
  · rw [DocComment.continuation, DocComment.continuation, trim_append_front hm.blank]

namespace StoredDoc

/-- The lines of a written comment are what was written. -/
theorem lines_eq (h : StoredDoc a ls) (hm : IsMargin m) :
    lines (docText a (ls.map (indented m))) = ('/' :: '*' :: '*' :: a) :: ls.map (indented m) := by
  have hline (l : List Char) (hl : l ∈ ls) :
      '\n' ∉ indented m l ∧ (indented m l).getLast? ≠ some '\r' := by
    rw [indented]
    split
    · exact ⟨by simp, by simp⟩
    · next hne =>
      refine ⟨?_, fun hr => ?_⟩
      · rw [List.mem_append, not_or]
        exact ⟨hm.noNewline, h.noNewline l (List.mem_cons_of_mem _ hl)⟩
      · obtain ⟨c, hc⟩ : ∃ c, l.getLast? = some c := Option.ne_none_iff_exists'.1 (by simpa using hne)
        rw [List.getLast?_append, hc, Option.some_or, ← hc] at hr
        exact absurd (not_blank_of_continuation (h.others l hl) hr) (by decide)
  refine lines_joinWith (fun l hl => ?_) ?_
  · rcases List.mem_cons.1 hl with rfl | hl
    · refine ⟨by simpa using h.noNewline a (List.mem_cons_self ..), fun hr => ?_⟩
      rw [← h.first] at hr
      exact absurd (getLast?_trim hr) (by decide)
    · obtain ⟨k, hk, rfl⟩ := List.mem_map.1 hl
      exact hline k hk
  · cases ls with
    | nil => simp
    | cons l ls =>
      rw [List.map_cons, List.getLast?_cons_cons]
      exact (KeepsEnd.closes (.indented hm) (.indented hm) h.closes.2).getLast?_ne

/-- A written comment is stored as the one that was written. -/
theorem normalize_eq (h : StoredDoc a ls) (hm : IsMargin m) :
    DocComment.normalize (docText a (ls.map (indented m))) = docText a ls := by
  have hothers : (ls.map (indented m)).map DocComment.continuation = ls := by
    rw [List.map_map]
    refine (List.map_congr_left fun l hl => ?_).trans (List.map_id ls)
    exact (continuation_indented hm l).trans (h.others l hl)
  rw [DocComment.normalize, h.lines_eq hm]
  dsimp only
  rw [h.first, hothers]
  rfl

/-- A stored comment is stored as it is, and its lines are its rows. -/
theorem self_eq (h : StoredDoc a ls) : DocComment.normalize (docText a ls) = docText a ls ∧
    lines (docText a ls) = ('/' :: '*' :: '*' :: a) :: ls := by
  have hm : IsMargin [] := List.forall_mem_nil _
  have hsame : ls.map (indented []) = ls := by
    rw [funext indented_nil, List.map_id']
  have hnormal := h.normalize_eq hm
  have hlines := h.lines_eq hm
  rw [hsame] at hnormal hlines
  exact ⟨hnormal, hlines⟩

/-- A written comment is one doc comment. -/
theorem isDocText (h : StoredDoc a ls) (hm : IsMargin m) : IsDocText (docText a (ls.map (indented m))) := by
  obtain ⟨v, hv, hclear⟩ := (KeepsEnd.id.closes (.indented hm) h.closes).exists_join
  refine ⟨v, by rw [docText_eq, hv], hclear, ?_⟩
  rw [← hv, joinWith_cons]
  cases ha : a with
  | nil => cases ls <;> simp
  | cons c a => simpa [ha] using h.open_

/-- A written comment shows the one that was written. -/
theorem lexes (h : StoredDoc a ls) (hm : IsMargin m) :
    Lexes (docText a (ls.map (indented m))) [.doc (String.ofList (docText a ls))] Anything := by
  intro f qs _ hf start
  obtain ⟨ts, hts, hp⟩ := hf (start + byteLength (docText a (ls.map (indented m))))
  exact ⟨_, (h.isDocText hm).tokens_append (g := []) rfl hts,
    .doc rfl (congrArg String.ofList (h.normalize_eq hm)) rfl hp⟩

end StoredDoc

end PhpGraft

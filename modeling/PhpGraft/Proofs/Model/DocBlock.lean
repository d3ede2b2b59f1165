import PhpGraft.Model.DocBlock
import PhpGraft.Proofs.Syntax.DocComments

/-!
# Doc blocks read back

A doc block is written as a comment that is stored as it is, and the comment is read back as the
block. The lines of the comment are those that the block shows, each behind its star; empty lines at
either end of the free text are what reading drops.
-/

namespace PhpGraft

open Lexer Text

namespace DocBlock

/-! ## Written lines -/

/-- A line inside a comment of several lines, without its newline. -/
def starLine (line : String) : List Char :=
  if line.isEmpty then [' ', '*'] else ' ' :: '*' :: ' ' :: line.toList

/-- The text behind the mark on the first line of a comment, and the other lines. -/
def written : List String → List Char × List (List Char)
  | [line] => (' ' :: (line.toList ++ ' ' :: starSlash), [])
  | lines => ([], lines.map starLine ++ [' ' :: starSlash])

/-- A line of a comment of several lines ends with its newline. -/
theorem toList_starred (line : String) : (starred line).toList = starLine line ++ ['\n'] := by
  rw [starred, starLine]
  split
  · rfl
  · rw [String.toList_append, String.toList_append]
    rfl

/-- A block that shows something is written as a comment of the written lines. -/
theorem render?_eq {b : DocBlock} (h : b.shown ≠ []) :
    b.render? = some (String.ofList (docText (written b.shown).1 (written b.shown).2)) := by
  have hmany (ls : List String) : "/**\n".toList ++ ((String.join (ls.map starred)).toList ++ " */".toList) =
      docText [] (ls.map starLine ++ [' ' :: starSlash]) := by
    have hrest : (String.join (ls.map starred)).toList ++ " */".toList =
        joinWith ['\n'] (ls.map starLine ++ [' ' :: starSlash]) := by
      induction ls with
      | nil => rfl
      | cons l ls ih =>
        rw [List.map_cons, String.join_cons, String.toList_append, List.append_assoc, ih,
          toList_starred, List.map_cons, List.cons_append]
        cases e : ls.map starLine ++ [' ' :: starSlash] with
        | nil => simp at e
        | cons k ks => rw [joinWith_cons_cons, List.append_assoc]
    rw [hrest, docText]
    cases e : ls.map starLine ++ [' ' :: starSlash] with
    | nil => simp at e
    | cons k ks => rw [joinWith_cons_cons]; rfl
  rw [render?]
  split
  · next e => exact absurd e h
  · next line e =>
    rw [e, written]
    refine congrArg some (String.toList_inj.1 ?_)
    rw [String.toList_append, String.toList_append, String.toList_ofList]
    simp [docText, joinWith, starSlash]
  · next hne hsingle =>
    have hwritten : written b.shown = ([], b.shown.map starLine ++ [' ' :: starSlash]) := by
      cases e : b.shown with
      | nil => exact absurd e h
      | cons l ls =>
        cases ls with
        | nil => exact absurd e (hsingle l)
        | cons k ks => rfl
    rw [hwritten, ← hmany]
    refine congrArg some (String.toList_inj.1 ?_)
    rw [String.toList_append, String.toList_append, List.append_assoc]
    exact String.toList_ofList.symm

/-! ## Written comments are stored as they are -/

/-- A line that can be shown: trimmed, and without newlines and ends of comments. -/
structure IsLine (l : String) : Prop where
  trimmed : trim l.toList = l.toList
  noNewline : '\n' ∉ l.toList
  clear : Clear l.toList

/-- Only the first blank of a line behind its star is trimmed off. -/
theorem trim_starLine {l : String} (h : trim l.toList = l.toList) :
    trim (starLine l) = (starLine l).drop 1 := by
  rw [starLine]
  split
  · rfl
  · next hne =>
    have hl : l.toList ≠ [] := by simpa using hne
    have hfront : trim (' ' :: '*' :: ' ' :: l.toList) = trim ('*' :: ' ' :: l.toList) :=
      trim_append_front (g := [' ']) rfl _
    rw [hfront]
    refine trim_eq_self (by rintro c ⟨⟩; rfl) fun c hc => ?_
    rw [List.getLast?_cons_cons, List.getLast?_cons_of_ne_nil hl, ← h] at hc
    exact getLast?_trim hc

/-- A line behind its star is stored as it is. -/
theorem continuation_starLine {l : String} (h : trim l.toList = l.toList) :
    DocComment.continuation (starLine l) = starLine l := by
  rw [DocComment.continuation, trim_starLine h, starLine]
  split <;> simp_all

/-- A line behind its star has no newlines of its own. -/
theorem newline_starLine {l : String} (h : '\n' ∉ l.toList) : '\n' ∉ starLine l := by
  rw [starLine]
  split
  · decide
  · simpa using h

/-- Lines behind their stars go on without an end of a comment up to the last line. -/
theorem closes_starLines {ls : List String} (h : ∀ l ∈ ls, IsLine l) :
    Closes (ls.map starLine ++ [' ' :: starSlash]) := by
  have hline {l : String} (hl : IsLine l) : Clear (starLine l) := by
    rw [starLine]
    split
    · rfl
    · exact (Clear.append_cons (a := [' ', '*']) rfl (by decide) (by decide) hl.clear)
  induction ls with
  | nil => exact ⟨[' '], rfl, rfl⟩
  | cons l ls ih =>
    have hcloses := ih fun k hk => h k (List.mem_cons_of_mem _ hk)
    rw [List.map_cons, List.cons_append]
    cases e : ls.map starLine ++ [' ' :: starSlash] with
    | nil => simp at e
    | cons k ks => exact ⟨hline (h l (List.mem_cons_self ..)), e ▸ hcloses⟩

/-- The written lines of a block are stored as they are. -/
theorem stored_written {ls : List String} (h : ∀ l ∈ ls, IsLine l) :
    StoredDoc (written ls).1 (written ls).2 := by
  have hmany (ls : List String) (h : ∀ l ∈ ls, IsLine l) :
      StoredDoc [] (ls.map starLine ++ [' ' :: starSlash]) := by
    have hcloses := closes_starLines h
    refine ⟨?_, by simp, by decide, fun l hl => ?_, fun l hl => ?_⟩
    · cases e : ls.map starLine ++ [' ' :: starSlash] with
      | nil => simp at e
      | cons k ks => exact ⟨rfl, e ▸ hcloses⟩
    · simp only [List.mem_append, List.mem_map, List.mem_singleton] at hl
      rcases hl with ⟨k, hk, rfl⟩ | rfl
      · exact continuation_starLine (h k hk).trimmed
      · decide
    · simp only [List.mem_cons, List.mem_append, List.mem_map, List.not_mem_nil, or_false] at hl
      rcases hl with rfl | ⟨k, hk, rfl⟩ | rfl
      · simp
      · exact newline_starLine (h k hk).noNewline
      · decide
  have hone (l : String) (h : IsLine l) : StoredDoc (' ' :: (l.toList ++ ' ' :: starSlash)) [] := by
    refine ⟨⟨' ' :: (l.toList ++ [' ']), by simp, ?_⟩, by simp, ?_, nofun, fun k hk => ?_⟩
    · exact Clear.cons (by decide) (h.clear.append_cons (by decide) (by decide) rfl)
    · refine trim_eq_self (by rintro c ⟨⟩; rfl) fun c hc => ?_
      have hlast : ('/' :: '*' :: '*' :: ' ' :: (l.toList ++ ' ' :: starSlash)) =
          ('/' :: '*' :: '*' :: ' ' :: (l.toList ++ [' ', '*'])) ++ ['/'] := by simp [starSlash]
      rw [hlast, List.getLast?_concat] at hc
      obtain rfl := Option.some.inj hc
      rfl
    · rw [List.mem_singleton] at hk
      subst hk
      simpa [starSlash] using h.noNewline
  cases ls with
  | nil => exact hmany [] h
  | cons l ls =>
    cases ls with
    | nil => exact hone l (h l (List.mem_cons_self ..))
    | cons k ks => exact hmany _ h

/-! ## Written comments are read back -/

/-- The text between the marks of a comment. -/
theorem inner_eq (w : List Char) : inner ('/' :: '*' :: '*' :: (w ++ starSlash)) = w := by
  have hlast : '/' :: '*' :: '*' :: (w ++ starSlash) = ('/' :: '*' :: '*' :: (w ++ ['*'])) ++ ['/'] := by
    simp [starSlash]
  have htrim : trim ('/' :: '*' :: '*' :: (w ++ starSlash)) = '/' :: '*' :: '*' :: (w ++ starSlash) := by
    refine trim_eq_self (by rintro c ⟨⟩; rfl) fun c hc => ?_
    rw [hlast, List.getLast?_concat] at hc
    obtain rfl := Option.some.inj hc
    rfl
  have hstrip : stripPrefix? ['/', '*', '*'] ('/' :: '*' :: '*' :: (w ++ starSlash)) =
      some (w ++ starSlash) := by
    simp [stripPrefix?, List.isPrefixOf]
  have hsuffix : ['*', '/'].isSuffixOf (w ++ starSlash) = true := by
    rw [List.isSuffixOf_iff_suffix]
    exact List.suffix_append w starSlash
  rw [inner, htrim, hstrip, Option.getD_some, if_pos hsuffix]
  simp [starSlash]

/-- A line behind its star is read back. -/
theorem unstarred_starLine {l : String} (h : trim l.toList = l.toList) :
    unstarred (starLine l) = l.toList := by
  rw [unstarred, trim_starLine h, starLine]
  split
  · next hempty => rw [String.isEmpty_iff.1 hempty]; decide
  · have hfront : trim (' ' :: l.toList) = l.toList :=
      (trim_append_front (g := [' ']) rfl _).trans h
    simp [hfront]

/-- The lines between the marks of a written comment are read back as the lines that were written,
with empty ones around them where there are several. -/
theorem unstarred_written {ls : List String} (hne : ls ≠ [])
    (h : ∀ l ∈ ls, trim l.toList = l.toList ∧ '\n' ∉ l.toList)
    (hstar : ∀ l, ls = [l] → l.toList.head? ≠ some '*') :
    ∃ n, (lines (inner (docText (written ls).1 (written ls).2))).map unstarred =
      List.replicate n [] ++ ls.map String.toList ++ List.replicate n [] := by
  have hone (l : String) (hl : trim l.toList = l.toList) (hn : '\n' ∉ l.toList)
      (hs : l.toList.head? ≠ some '*') :
      (lines (inner (docText (' ' :: (l.toList ++ ' ' :: starSlash)) []))).map unstarred =
        [l.toList] := by
    have htext : docText (' ' :: (l.toList ++ ' ' :: starSlash)) [] =
        '/' :: '*' :: '*' :: ((' ' :: (l.toList ++ [' '])) ++ starSlash) := by
      simp [docText, joinWith]
    have htrim : trim (' ' :: (l.toList ++ [' '])) = l.toList :=
      (trim_append_front (g := [' ']) rfl _).trans ((trim_append_end (g := [' ']) rfl _).trans hl)
    rw [htext, inner_eq, lines_of_not_mem (by simpa using hn) (List.cons_ne_nil _ _),
      List.map_singleton, unstarred, htrim, if_neg (by simpa using hs)]
  have hmany (ls : List String) (h : ∀ l ∈ ls, trim l.toList = l.toList ∧ '\n' ∉ l.toList) :
      (lines (inner (docText [] (ls.map starLine ++ [' ' :: starSlash])))).map unstarred =
        [] :: ls.map String.toList ++ [[]] := by
    have htext : docText [] (ls.map starLine ++ [' ' :: starSlash]) =
        '/' :: '*' :: '*' :: (joinWith ['\n'] (([] :: ls.map starLine) ++ [[' ']]) ++ starSlash) := by
      rw [docText_eq, ← joinWith_append]
      rfl
    have hlines : lines (joinWith ['\n'] (([] :: ls.map starLine) ++ [[' ']])) =
        ([] :: ls.map starLine) ++ [[' ']] := by
      refine lines_joinWith (fun k hk => ?_) (by rw [List.getLast?_concat]; simp)
      simp only [List.cons_append, List.mem_cons, List.mem_append, List.mem_map, List.not_mem_nil,
        or_false] at hk
      rcases hk with rfl | ⟨l, hl, rfl⟩ | rfl
      · simp
      · obtain ⟨htrim, hn⟩ := h l hl
        exact ⟨newline_starLine hn, fun hr => absurd
          (not_blank_of_continuation (continuation_starLine htrim) hr) (by decide)⟩
      · decide
    rw [htext, inner_eq, hlines, List.map_append, List.map_cons, List.map_map]
    have hmap : ls.map (unstarred ∘ starLine) = ls.map String.toList :=
      List.map_congr_left fun l hl => unstarred_starLine (h l hl).1
    rw [hmap]
    rfl
  cases ls with
  | nil => exact absurd rfl hne
  | cons l ls =>
    cases ls with
    | nil =>
      obtain ⟨hl, hn⟩ := h l (List.mem_cons_self ..)
      exact ⟨0, by rw [written, hone l hl hn (hstar l rfl)]; rfl⟩
    | cons k ks =>
      have hwritten : written (l :: k :: ks) =
          ([], (l :: k :: ks).map starLine ++ [' ' :: starSlash]) := rfl
      exact ⟨1, by rw [hwritten, hmany _ h]; rfl⟩

/-! ## Blocks read back -/

/-- A line of free text that is read as one. -/
structure IsText (l : String) : Prop where
  trimmed : trim l.toList = l.toList
  noNewline : '\n' ∉ l.toList
  noTag : l.toList.head? ≠ some '@'
  noStar : l.toList.head? ≠ some '*'

/-- A tag that is read as one. -/
structure IsTag (tag : String × String) : Prop where
  named : tag.1.toList ≠ []
  noBlank : ∀ c ∈ tag.1.toList, isBlank c = false
  trimmed : trim tag.2.toList = tag.2.toList
  noNewline : '\n' ∉ tag.2.toList

/-- A block that is read back: free text that neither starts nor ends with an empty line, and tags.
-/
structure IsReadable (b : DocBlock) : Prop where
  summary : ∀ l ∈ b.summary, IsText l
  first : b.summary.head? ≠ some ""
  last : b.summary.getLast? ≠ some ""
  tags : ∀ tag ∈ b.tags, IsTag tag

variable {tag : String × String}

/-- The line of a tag is its mark, its name, and its value behind a blank. -/
theorem toList_tagLine (tag : String × String) : (tagLine tag).toList =
    '@' :: (tag.1.toList ++ if tag.2.isEmpty then [] else ' ' :: tag.2.toList) := by
  rw [tagLine]
  split
  · rw [String.toList_append, List.append_nil]
    rfl
  · rw [String.toList_append, String.toList_append, String.toList_append, List.append_assoc]
    rfl

/-- A tag is read back from its line. -/
theorem splitTag_eq (h : IsTag tag) :
    splitTag (tag.1.toList ++ if tag.2.isEmpty then [] else ' ' :: tag.2.toList) = tag := by
  have htake (rest : List Char) (hrest : ∀ c ∈ rest.head?, isBlank c = true) :
      (tag.1.toList ++ rest).takeWhile (!isBlank ·) = tag.1.toList := by
    rw [List.takeWhile_append_of_pos (by simpa using h.noBlank)]
    cases rest with
    | nil => simp
    | cons c rest => simp [hrest c rfl]
  have hsplit (rest : List Char) (hrest : ∀ c ∈ rest.head?, isBlank c = true)
      (htrim : trim rest = tag.2.toList) : splitTag (tag.1.toList ++ rest) = tag := by
    rw [splitTag, htake rest hrest, List.drop_left, htrim, String.ofList_toList, String.ofList_toList]
  split
  · next hempty => exact hsplit [] nofun (by rw [String.isEmpty_iff.1 hempty]; rfl)
  · exact hsplit _ (by rintro c ⟨⟩; rfl) ((trim_append_front (g := [' ']) rfl _).trans h.trimmed)

/-- The line of a tag is trimmed and has no newlines. -/
theorem tagLine_trimmed (h : IsTag tag) :
    trim (tagLine tag).toList = (tagLine tag).toList ∧ '\n' ∉ (tagLine tag).toList := by
  have hname : '\n' ∉ tag.1.toList := fun hn => absurd (h.noBlank _ hn) (by decide)
  refine ⟨trim_eq_self (by rw [toList_tagLine]; rintro c ⟨⟩; rfl) fun c hc => ?_, ?_⟩
  · rw [toList_tagLine] at hc
    split at hc
    · rw [List.append_nil, List.getLast?_cons_of_ne_nil h.named] at hc
      exact h.noBlank c (List.mem_of_getLast? hc)
    · next hne =>
      have hvalue : tag.2.toList ≠ [] := by simpa using hne
      obtain ⟨d, hd⟩ : ∃ d, tag.2.toList.getLast? = some d :=
        Option.ne_none_iff_exists'.1 (by simpa using hvalue)
      have hlast : ('@' :: (tag.1.toList ++ ' ' :: tag.2.toList)).getLast? = some d := by
        rw [List.getLast?_cons_of_ne_nil (by simp), List.getLast?_append,
          List.getLast?_cons_of_ne_nil hvalue, hd]
        rfl
      rw [hlast] at hc
      obtain rfl := Option.some.inj hc
      rw [← h.trimmed] at hd
      exact getLast?_trim hd
  · rw [toList_tagLine]
    have := h.noNewline
    split <;> simp [*]

/-- Ahead of all tags, lines that are none are free text. -/
theorem foldl_text {ls : List String} (h : ∀ l ∈ ls, l.toList.head? ≠ some '@')
    (summary : List String) :
    (ls.map String.toList).foldl addLine ⟨summary, []⟩ = ⟨summary ++ ls, []⟩ := by
  induction ls generalizing summary with
  | nil => rw [List.append_nil]; rfl
  | cons l ls ih =>
    have hl := h l (List.mem_cons_self ..)
    have hline : addLine ⟨summary, []⟩ l.toList = ⟨summary ++ [l], []⟩ := by
      have hstring : String.ofList l.toList = l := String.ofList_toList
      cases e : l.toList with
      | nil => rw [e] at hstring; simp [addLine, hstring]
      | cons c cs =>
        have hc : c ≠ '@' := by simpa [e] using hl
        rw [e] at hstring
        unfold addLine
        split <;> simp_all
    rw [List.map_cons, List.foldl_cons, hline, ih fun k hk => h k (List.mem_cons_of_mem _ hk)]
    simp

/-- The lines of tags are read as tags. -/
theorem foldl_tags {tags : List (String × String)} (h : ∀ tag ∈ tags, IsTag tag)
    (b : DocBlock) :
    ((tags.map tagLine).map String.toList).foldl addLine b =
      ⟨b.summary, tags.reverse ++ b.tags⟩ := by
  induction tags generalizing b with
  | nil => rfl
  | cons tag tags ih =>
    have hline : addLine b (tagLine tag).toList = ⟨b.summary, tag :: b.tags⟩ := by
      rw [toList_tagLine, addLine, splitTag_eq (h tag (List.mem_cons_self ..))]
    rw [List.map_cons, List.map_cons, List.foldl_cons, hline,
      ih fun t ht => h t (List.mem_cons_of_mem _ ht)]
    simp

/-- Empty lines behind tags are passed over. -/
theorem foldl_empty {b : DocBlock} (h : b.tags ≠ []) (n : Nat) :
    (List.replicate n []).foldl addLine b = b := by
  induction n with
  | zero => rfl
  | succ n ih =>
    obtain ⟨summary, _ | ⟨tag, tags⟩⟩ := b
    · exact absurd rfl h
    · rw [List.replicate_succ, List.foldl_cons]
      exact ih

/-- Free text between empty lines is what is left of it. -/
theorem trimmed_summary {ls : List String} (h₁ : ls.head? ≠ some "") (h₂ : ls.getLast? ≠ some "")
    (n k : Nat) :
    (dropTailWhile String.isEmpty (List.replicate n "" ++ ls ++ List.replicate k "")).dropWhile
      String.isEmpty = ls := by
  have hblank (n : Nat) : (List.replicate n "").all String.isEmpty = true := by simp
  rw [dropTailWhile_append (hblank k)]
  cases ls with
  | nil =>
    rw [List.append_nil, dropTailWhile_eq_nil (hblank n)]
    rfl
  | cons l ls =>
    have hlast (x : String) (hx : x ∈ (List.replicate n "" ++ l :: ls).getLast?) :
        x.isEmpty = false := by
      obtain ⟨y, hy⟩ : ∃ y, (l :: ls).getLast? = some y :=
        Option.ne_none_iff_exists'.1 (by simp)
      rw [List.getLast?_append, hy, Option.some_or] at hx
      obtain rfl := Option.some.inj hx
      rw [hy] at h₂
      simpa using h₂
    rw [dropTailWhile_eq_self hlast, List.dropWhile_append_of_pos (by simp),
      List.dropWhile_cons_of_neg (by simpa using h₁)]

/-- A block that shows something is read back from the comment that it is written as. -/
theorem parse_written {b : DocBlock} (h : IsReadable b) (hne : b.shown ≠ []) :
    parse (String.ofList (docText (written b.shown).1 (written b.shown).2)) = b := by
  obtain ⟨summary, tags⟩ := b
  obtain ⟨hsummary, hfirst, hlast, htags⟩ := h
  -- Between the text and the tags there is an empty line, or none.
  obtain ⟨j, hshown⟩ : ∃ j, shown ⟨summary, tags⟩ =
      (summary ++ List.replicate j "") ++ tags.map tagLine := by
    rw [shown]
    split
    · exact ⟨0, rfl⟩
    · exact ⟨1, rfl⟩
  have hlines : ∀ l ∈ shown ⟨summary, tags⟩, trim l.toList = l.toList ∧ '\n' ∉ l.toList := by
    intro l hl
    rw [hshown, List.mem_append, List.mem_append, List.mem_map, List.mem_replicate] at hl
    rcases hl with (hl | ⟨-, rfl⟩) | ⟨tag, ht, rfl⟩
    · exact ⟨(hsummary l hl).trimmed, (hsummary l hl).noNewline⟩
    · exact ⟨rfl, by simp⟩
    · exact tagLine_trimmed (htags tag ht)
  have hstar (l : String) (hl : shown ⟨summary, tags⟩ = [l]) : l.toList.head? ≠ some '*' := by
    have hmem : l ∈ shown ⟨summary, tags⟩ := by rw [hl]; exact List.mem_singleton_self l
    rw [hshown, List.mem_append, List.mem_append, List.mem_map, List.mem_replicate] at hmem
    rcases hmem with (hmem | ⟨-, rfl⟩) | ⟨tag, -, rfl⟩
    · exact (hsummary l hmem).noStar
    · simp
    · rw [toList_tagLine]
      simp
  obtain ⟨n, hwritten⟩ := unstarred_written hne hlines hstar
  have htext (k m : Nat) : ∀ l ∈ List.replicate k "" ++ summary ++ List.replicate m "",
      l.toList.head? ≠ some '@' := by
    intro l hl
    rw [List.mem_append, List.mem_append, List.mem_replicate, List.mem_replicate] at hl
    rcases hl with (⟨-, rfl⟩ | hl) | ⟨-, rfl⟩
    · simp
    · exact (hsummary l hl).noTag
    · simp
  have hblank (k : Nat) : List.replicate k ([] : List Char) =
      (List.replicate k "").map String.toList := by rw [List.map_replicate]; rfl
  obtain ⟨k, hfold⟩ : ∃ k, (List.replicate n [] ++ (shown ⟨summary, tags⟩).map String.toList ++
      List.replicate n []).foldl addLine {} =
      ⟨List.replicate n "" ++ summary ++ List.replicate k "", tags.reverse⟩ := by
    have hfront : (List.replicate n [] ++ (summary ++ List.replicate j "").map String.toList).foldl
        addLine {} = ⟨List.replicate n "" ++ summary ++ List.replicate j "", []⟩ := by
      rw [hblank, ← List.map_append, ← List.append_assoc]
      exact foldl_text (htext n j) []
    rw [hshown, List.map_append, ← List.append_assoc, List.foldl_append, List.foldl_append, hfront,
      foldl_tags htags]
    dsimp only
    rw [List.append_nil]
    cases tags with
    | nil =>
      refine ⟨j + n, ?_⟩
      rw [hblank, List.reverse_nil, foldl_text fun l hl => ?_]
      · rw [List.append_assoc, List.append_assoc, List.replicate_append_replicate,
          List.append_assoc]
      · rw [List.eq_of_mem_replicate hl]
        simp
    | cons tag tags => exact ⟨j, foldl_empty (by simp) n⟩
  rw [parse, String.toList_ofList, hwritten, hfold]
  dsimp only
  rw [trimmed_summary hfirst hlast, List.reverse_reverse]

/-- A block that is not empty shows something. -/
theorem shown_ne_nil {b : DocBlock} (h : b.isEmpty = false) : b.shown ≠ [] := by
  obtain ⟨summary, tags⟩ := b
  intro hshown
  obtain ⟨hfront, htags⟩ := List.append_eq_nil_iff.1 hshown
  obtain ⟨rfl, -⟩ := List.append_eq_nil_iff.1 hfront
  obtain rfl := List.map_eq_nil_iff.1 htags
  exact absurd h (by decide)

/-- A readable block that is not empty is written as a comment, and the comment is read back as the
block. -/
theorem parse_render {b : DocBlock} (h : IsReadable b) (hne : b.isEmpty = false) :
    ∃ comment, b.render? = some comment ∧ parse comment = b := by
  have hshown : b.shown ≠ [] := shown_ne_nil hne
  exact ⟨_, render?_eq hshown, parse_written h hshown⟩

/-- Text around an empty line, with one tag that has a value and one that has none. -/
theorem parse_render_spaced :
    ∃ comment, render? ⟨["A shop.", "", "It sells."], [("param", "int $a"), ("api", "")]⟩ =
        some comment ∧
      parse comment = ⟨["A shop.", "", "It sells."], [("param", "int $a"), ("api", "")]⟩ := by
  have htext : ∀ l ∈ ["A shop.", "", "It sells."], IsText l := by
    simp only [List.forall_mem_cons, List.not_mem_nil, false_imp_iff, implies_true, and_true]
    refine ⟨?_, ?_, ?_⟩ <;> exact ⟨by decide, by decide, by decide, by decide⟩
  have htags : ∀ tag ∈ [("param", "int $a"), ("api", "")], IsTag tag := by
    simp only [List.forall_mem_cons, List.not_mem_nil, false_imp_iff, implies_true, and_true]
    refine ⟨?_, ?_⟩ <;> exact ⟨by decide, noBlank_of_any (by decide), by decide, by decide⟩
  exact parse_render ⟨htext, by decide, by decide, htags⟩ rfl

/-- A readable block is read back from its comment, and an empty one from none. -/
theorem getD_parse_render {b : DocBlock} (h : IsReadable b) : (b.render?.map parse).getD {} = b := by
  cases hempty : b.isEmpty with
  | false =>
    have hshown : b.shown ≠ [] := shown_ne_nil hempty
    rw [render?_eq hshown, Option.map_some, Option.getD_some, parse_written h hshown]
  | true =>
    obtain ⟨summary, tags⟩ := b
    obtain ⟨hsummary, htags⟩ := Bool.and_eq_true_iff.1 hempty
    obtain rfl := List.isEmpty_iff.1 hsummary
    obtain rfl := List.isEmpty_iff.1 htags
    rfl

/-! ## Free text alone -/

/-- The lines of free text that is read back from the comment it is written as. -/
structure IsFreeText (doc : String) (ls : List String) : Prop where
  text : doc = "\n".intercalate ls
  nonempty : ls ≠ []
  readable : IsReadable ⟨ls, []⟩
  clear : ∀ l ∈ ls, Clear l.toList

variable {doc : String} {ls : List String}

/-- Lines that are read back are added one by one from the text that they are. -/
theorem addSummary_intercalate (h : IsReadable ⟨ls, []⟩) :
    addSummary {} ("\n".intercalate ls) = ⟨ls, []⟩ := by
  have hreturn (l : String) (hl : l ∈ ls) : l.toList.getLast? ≠ some '\r' := fun hr => by
    rw [← (h.summary l hl).trimmed] at hr
    exact absurd (getLast?_trim hr) (by decide)
  have hlines : lines ("\n".intercalate ls).toList = ls.map String.toList := by
    rw [toList_intercalate_newline]
    refine lines_joinWith (fun l hl => ?_) fun hlast => h.last ?_
    · obtain ⟨k, hk, rfl⟩ := List.mem_map.1 hl
      exact ⟨(h.summary k hk).noNewline, hreturn k hk⟩
    · rw [List.getLast?_map, Option.map_eq_some_iff] at hlast
      obtain ⟨l, hl, hempty⟩ := hlast
      rw [hl, String.toList_eq_nil_iff.1 hempty]
  have htrim (l : String) (hl : l ∈ ls) : String.ofList (trimEnd l.toList) = l := by
    have hend : trimEnd l.toList = l.toList := dropTailWhile_eq_self fun c hc => by
      rw [← (h.summary l hl).trimmed] at hc
      exact getLast?_trim hc
    rw [hend, String.ofList_toList]
  have hmap : (ls.map String.toList).map (fun l => String.ofList (trimEnd l)) = ls := by
    rw [List.map_map]
    exact (List.map_congr_left htrim).trans (List.map_id ls)
  rw [addSummary, hlines, hmap]
  rfl

/-- Free text is written as a comment that is stored as it is and from which it is read back. -/
theorem IsFreeText.exists_written (h : IsFreeText doc ls) : ∃ a ks, StoredDoc a ks ∧
    render? ⟨ls, []⟩ = some (String.ofList (docText a ks)) ∧
      parse (String.ofList (docText a ks)) = ⟨ls, []⟩ := by
  have hshown : shown ⟨ls, []⟩ = ls := by simp [shown]
  have hne : shown ⟨ls, []⟩ ≠ [] := by rw [hshown]; exact h.nonempty
  have hlines : ∀ l ∈ shown ⟨ls, []⟩, IsLine l := by
    rw [hshown]
    exact fun l hl =>
      ⟨(h.readable.summary l hl).trimmed, (h.readable.summary l hl).noNewline, h.clear l hl⟩
  exact ⟨_, _, stored_written hlines, render?_eq hne, parse_written h.readable hne⟩

/-! ## Free text and tags -/

/-- Free text whose lines are read back; the ends of comments can be in it. -/
def IsDoc (doc : String) : Prop := ∃ ls, doc = "\n".intercalate ls ∧ ls ≠ [] ∧ IsReadable ⟨ls, []⟩

/-- The block of the free text that is there, if any. -/
def ofDoc? : Option String → DocBlock
  | some doc => addSummary {} doc
  | none => {}

/-- The block of free text holds its lines, and with any tags it is read back. -/
theorem exists_summary {doc? : Option String} (h : ∀ doc ∈ doc?, IsDoc doc) : ∃ ls, ofDoc? doc? = ⟨ls, []⟩ ∧
    ∀ tags, (∀ tag ∈ tags, IsTag tag) → IsReadable ⟨ls, tags⟩ ∧ summaryText? ⟨ls, tags⟩ = doc? := by
  cases doc? with
  | none => exact ⟨[], rfl, fun tags htags => ⟨⟨List.forall_mem_nil _, nofun, nofun, htags⟩, rfl⟩⟩
  | some doc =>
    obtain ⟨ls, rfl, hne, hreadable⟩ := h doc rfl
    refine ⟨ls, addSummary_intercalate hreadable, fun tags htags => ⟨?_, ?_⟩⟩
    · exact ⟨hreadable.summary, hreadable.first, hreadable.last, htags⟩
    · rw [summaryText?, if_neg (by simpa using hne)]

end DocBlock

end PhpGraft

import PhpGraft.Proofs.Syntax.Comments
import PhpGraft.Proofs.Syntax.Spans

/-!
# Cutting into tokens loses nothing

Ahead of each token white space and comments are skipped (`Lexer.Skips`). A gap is taken apart into its
comments without what stands behind it, and yet into just those that were skipped (`Lexer.skips_iff`),
although a comment may end with its line at a close tag that is no part of the gap. So the tokens of a
source and the comments in their gaps are all of it but white space (`Lexer.lossless_of_tokens`).
-/

namespace PhpGraft

open Text

/-- What is skipped at the front of a text: plain comments as they stand in it, with white space ahead of
each of them and behind the last one, up to something that is neither. -/
inductive Lexer.Skips : (source : List Char) → List GapComment → (tail rest : List Char) → Prop where
  | stop {w rest : List Char} (hw : w.all isBlank = true)
    (hrest : ∀ c r, rest = c :: r → isBlank c = false ∧ plainComment? c r = .ok none) :
    Skips (w ++ rest) [] w rest
  | comment {w r tail rest : List Char} {c : Char} {n : Nat} {cs : List GapComment}
    (hw : w.all isBlank = true) (hc : isBlank c = false) (hcomment : plainComment? c r = .ok (some n))
    (hn : n ≤ r.length) (h : Skips (r.drop n) cs tail rest) :
    Skips (w ++ c :: r) (⟨w, c :: r.take n⟩ :: cs) tail rest

namespace Lexer

variable {cs w r tail rest : List Char} {comments : List GapComment} {c : Char} {g n : Nat}

/-! ## Comments that are skipped -/

/-- What is skipped are the comments, each behind the white space ahead of it, and the white space behind
the last one. -/
theorem Skips.spelled (h : Skips cs comments tail rest) :
    cs = spelledComments comments ++ (tail ++ rest) ∧ tail.all isBlank = true ∧
      ∀ c ∈ comments, c.lead.all isBlank = true := by
  induction h with
  | stop hw hrest => exact ⟨rfl, hw, List.forall_mem_nil _⟩
  | @comment w r tail rest c n cs hw hc hcomment hn h ih =>
    obtain ⟨hspelled, htail, hleads⟩ := ih
    refine ⟨?_, htail, List.forall_mem_cons.2 ⟨hw, hleads⟩⟩
    conv => lhs; rw [← List.take_append_drop n r, hspelled]
    simp only [spelledComments, List.flatMap_cons, List.append_assoc, List.cons_append]

/-- What is skipped ends ahead of something that is neither white space nor a plain comment. -/
theorem Skips.stops (h : Skips cs comments tail rest) :
    ∀ c r, rest = c :: r → isBlank c = false ∧ plainComment? c r = .ok none := by
  induction h with
  | stop hw hrest => exact hrest
  | comment _ _ _ _ _ ih => exact ih

/-- A text of white space up to something that is no comment has no comments in its gap. -/
theorem gapLength_stop (hw : w.all isBlank = true)
    (hrest : ∀ c r, rest = c :: r → isBlank c = false ∧ plainComment? c r = .ok none) :
    gapLength (w ++ rest) = .ok w.length := by
  refine gapLength_append (g := 0) hw ?_
  cases rest with
  | nil => exact gapLength_blank rfl
  | cons c r =>
    obtain ⟨hc, hnone⟩ := hrest c r rfl
    exact gapLength_cons_token hc hnone

/-- A comment takes part in the gap of a text, and where the gap is cut off it is the same comment. -/
theorem ofGap_take_comment {more : Nat} (hw : w.all isBlank = true) (hc : isBlank c = false)
    (hcomment : plainComment? c r = .ok (some n)) (hm : gapLength (r.drop n) = .ok more) :
    gapLength (w ++ c :: r) = .ok (w.length + (1 + n + more)) ∧
    GapParts.ofGap ((w ++ c :: r).take (w.length + (1 + n + more))) =
      ⟨⟨w, c :: r.take n⟩ :: (GapParts.ofGap ((r.drop n).take more)).comments,
        (GapParts.ofGap ((r.drop n).take more)).tail⟩ := by
  have hn := plainComment?_le hcomment
  -- a close tag that ends the comment stands behind the gap, and the end of the gap ends it as well
  have hcut : plainComment? c (r.take (n + more)) = .ok (some n) := by
    rw [← List.take_append_drop (n + more) r] at hcomment hm
    refine plainComment?_cut_gap hcomment ?_ hm ?_
    · rw [List.length_take]
      omega
    · rw [List.length_take]
      omega
  have hfront : (c :: r).take (1 + n + more) = c :: r.take (n + more) := by
    rw [Nat.add_assoc, Nat.add_comm 1, List.take_succ_cons]
  refine ⟨gapLength_append hw (gapLength_cons_comment hc hcomment hm), ?_⟩
  rw [List.take_length_add_append, hfront, ofGap_comment hw hc hcut, List.take_take,
    Nat.min_eq_left (Nat.le_add_right n more), List.drop_take, Nat.add_sub_cancel_left]

/-- What is skipped at the front of a text is its gap, and the gap by itself has the same comments. -/
theorem Skips.ofGap_eq (h : Skips cs comments tail rest) :
    ∃ g, gapLength cs = .ok g ∧ GapParts.ofGap (cs.take g) = ⟨comments, tail⟩ ∧ cs.drop g = rest := by
  induction h with
  | @stop w rest hw hrest =>
    refine ⟨w.length, gapLength_stop hw hrest, ?_, List.drop_left⟩
    rw [List.take_left, ofGap_blank hw]
  | @comment w r tail rest c n cs hw hc hcomment hn h ih =>
    obtain ⟨more, hm, hparts, hrest⟩ := ih
    obtain ⟨hlength, hgap⟩ := ofGap_take_comment hw hc hcomment hm
    refine ⟨_, hlength, hgap.trans (by rw [hparts]), ?_⟩
    rw [List.drop_length_add_append, drop_comment, hrest]

/-- Something is skipped at the front of a text that has a gap. -/
theorem exists_skips {cs : List Char} {g : Nat} (h : gapLength cs = .ok g) :
    ∃ comments tail rest, Skips cs comments tail rest := by
  have hsplit : cs.takeWhile isBlank ++ cs.dropWhile isBlank = cs := List.takeWhile_append_dropWhile
  have hblank : (cs.takeWhile isBlank).all isBlank = true := List.all_takeWhile
  rcases gapLength_cases h with ⟨hd, -⟩ | ⟨c, r, hd, hnone, -⟩ | ⟨c, r, n, more, hd, hcomment, hm, -⟩
  · rw [hd] at hsplit
    have hskips : Skips _ [] _ [] := .stop hblank nofun
    exact ⟨_, _, _, hsplit ▸ hskips⟩
  · rw [hd] at hsplit
    have hskips : Skips _ [] _ (c :: r) := .stop hblank fun d v hcons => by
      obtain ⟨rfl, rfl⟩ := List.cons.inj hcons
      exact ⟨isBlank_of_dropWhile hd, hnone⟩
    exact ⟨_, _, _, hsplit ▸ hskips⟩
  · rw [hd] at hsplit
    have hshorter : r.length < cs.length := by
      rw [← hsplit, List.length_append, List.length_cons]
      omega
    obtain ⟨comments, tail, rest, hmore⟩ := exists_skips hm
    have hskips := Skips.comment hblank (isBlank_of_dropWhile hd) hcomment (plainComment?_le hcomment)
      hmore
    exact ⟨_, _, _, hsplit ▸ hskips⟩
termination_by cs.length
decreasing_by
  rw [List.length_drop]
  omega

/-- The gap of a text is skipped, and what is skipped are the comments that the gap has by itself. -/
theorem skips_of_gapLength (h : gapLength cs = .ok g) :
    Skips cs (GapParts.ofGap (cs.take g)).comments (GapParts.ofGap (cs.take g)).tail (cs.drop g) := by
  obtain ⟨comments, tail, rest, hskips⟩ := exists_skips h
  obtain ⟨k, hk, hparts, rfl⟩ := hskips.ofGap_eq
  obtain rfl : k = g := Except.ok.inj (hk.symm.trans h)
  rwa [hparts]

/-- Just the gap of a text is skipped, and just the comments that the gap has by itself. -/
theorem skips_iff : Skips cs comments tail rest ↔
    ∃ g, gapLength cs = .ok g ∧ GapParts.ofGap (cs.take g) = ⟨comments, tail⟩ ∧ cs.drop g = rest := by
  refine ⟨Skips.ofGap_eq, ?_⟩
  rintro ⟨g, hg, hparts, rfl⟩
  have hskips := skips_of_gapLength hg
  rwa [hparts] at hskips

/-! ## Close tags -/

/-- Behind a close tag there is only white space. -/
theorem blank_of_scan_closeTag (h : scan c cs = .ok (.closeTag, n)) :
    (cs.drop n).all isBlank = true := by
  -- no other scan finds a close tag
  obtain ⟨rfl, hnext, rfl⟩ : c = '?' ∧ cs.head? = some '>' ∧ n = 1 := naming_scan c cs .closeTag n h
  rw [scan, if_neg (fun hp => absurd hp.1 (by decide)), if_neg (fun hp => absurd hp.1 (by decide)),
    if_pos ⟨rfl, hnext⟩, scanCloseTag] at h
  split at h
  · next hblank => exact hblank
  · cases h

/-- Behind white space there is no token but the end of the source. -/
theorem tokens_of_blank {start : Nat} {ts : List Token} (hblank : cs.all isBlank = true)
    (h : tokens start cs = .ok ts) : ∃ e, ts = [e] ∧ e.kind = .eof := by
  rw [tokens_end (gapLength_blank (dropWhile_blank hblank)) List.drop_length] at h
  exact ⟨_, (Except.ok.inj h).symm, rfl⟩

end Lexer

/-! ## Tokens of a source -/

namespace Token

/-- A token, ahead of others, that keeps what is skipped ahead of it: white space, and comments that are
found in its gap by themselves. -/
structure Kept (t : Token) (vs : List Token) : Prop where
  /-- It is not empty, unless it is the end of the source. -/
  proper : t.kind ≠ .eof → t.text ≠ []
  /-- Behind a close tag there is just the end of the source. -/
  closed : t.kind = .closeTag → ∃ e, vs = [e] ∧ e.kind = .eof
  /-- The gap is its comments, with white space ahead of each of them and behind the last one. -/
  gap : t.gap = spelledComments (GapParts.ofGap t.gap).comments ++ (GapParts.ofGap t.gap).tail ∧
    (GapParts.ofGap t.gap).tail.all isBlank = true ∧
    ∀ c ∈ (GapParts.ofGap t.gap).comments, c.lead.all isBlank = true
  /-- The comments of the gap are those that are skipped where it stands in the source. -/
  skipped : Lexer.Skips (t.gap ++ (t.text ++ spelled vs)) (GapParts.ofGap t.gap).comments
    (GapParts.ofGap t.gap).tail (t.text ++ spelled vs)

/-- Tokens of which nothing is lost of a source: they tile it, and each of them keeps what is skipped ahead
of it. -/
structure Lossless (source : List Char) (ts : List Token) : Prop extends Tile source ts where
  /-- Each token is a part of the source, between characters of it. -/
  within : ∀ ⦃us t vs⦄, ts = us ++ t :: vs →
    ∃ before behind, source = before ++ (t.text ++ behind) ∧ t.start = byteLength before
  /-- Each token starts behind the end of those ahead of it. -/
  ordered : ∀ ⦃us t vs u ws⦄, ts = us ++ t :: (vs ++ u :: ws) → t.start + t.size ≤ u.start
  /-- Each token keeps what is skipped ahead of it. -/
  kept : ∀ ⦃us t vs⦄, ts = us ++ t :: vs → Kept t vs

variable {source : List Char} {ts us vs : List Token} {t : Token}

/-- A token stands in the source behind those ahead of it and its gap. -/
theorem Tile.eq_append (h : Tile source ts) (hts : ts = us ++ t :: vs) :
    source = (Token.spelled us ++ t.gap) ++ (t.text ++ Token.spelled vs) := by
  rw [← h.spelled, hts]
  simp only [Token.spelled, List.flatMap_append, List.flatMap_cons, List.append_assoc]

/-- A token in a tiled source starts behind the end of those ahead of it. -/
theorem Tile.end_le (h : Tile source ts) {u : Token} {ws : List Token}
    (hts : ts = us ++ t :: (vs ++ u :: ws)) : t.start + t.size ≤ u.start := by
  have hsplit : ts = (us ++ t :: vs) ++ u :: ws := by rw [hts, List.append_assoc, List.cons_append]
  have hspelled : Token.spelled (us ++ t :: vs) =
      (Token.spelled us ++ t.gap) ++ (t.text ++ Token.spelled vs) := by
    simp only [Token.spelled, List.flatMap_append, List.flatMap_cons, List.append_assoc]
  rw [h.start hts, h.start hsplit, hspelled, size]
  simp only [Text.byteLength_append]
  omega

/-- What is skipped ahead of a token is its gap. -/
theorem kept_of_skips (hproper : t.kind ≠ .eof → t.text ≠ [])
    (hclosed : t.kind = .closeTag → ∃ e, vs = [e] ∧ e.kind = .eof)
    (hskipped : Lexer.Skips (t.gap ++ (t.text ++ Token.spelled vs)) (GapParts.ofGap t.gap).comments
      (GapParts.ofGap t.gap).tail (t.text ++ Token.spelled vs)) : Kept t vs := by
  obtain ⟨hspelled, htail, hleads⟩ := hskipped.spelled
  rw [← List.append_assoc (spelledComments _)] at hspelled
  exact ⟨hproper, hclosed, ⟨List.append_cancel_right hspelled, htail, hleads⟩, hskipped⟩

/-- Tokens that tile a source lose nothing of it if each of them keeps what is skipped ahead of it. -/
theorem Tile.lossless_of_kept (h : Tile source ts) (hkept : ∀ ⦃us t vs⦄, ts = us ++ t :: vs → Kept t vs) :
    Lossless source ts where
  toTile := h
  within _us _t _vs hts := ⟨_, _, h.eq_append hts, h.start hts⟩
  ordered _us _t _vs _u _ws hts := h.end_le hts
  kept := hkept

end Token

namespace Lexer

variable {cs : List Char} {start : Nat} {us vs ts : List Token} {t : Token}

/-- A token of a text keeps what is skipped ahead of it. -/
theorem kept_tokens (h : tokens start cs = .ok (us ++ t :: vs)) : Token.Kept t vs := by
  obtain ⟨start', cs', hsuffix⟩ := tokens_suffix h (List.cons_ne_nil t vs)
  have hspelled := spelled_tokens hsuffix
  rw [Token.spelled_cons] at hspelled
  -- the gap was measured with all that stands behind it
  have hskipped {g : Nat} (hg : gapLength cs' = .ok g) (hgap : cs'.take g = t.gap) :
      Skips (t.gap ++ (t.text ++ Token.spelled vs)) (GapParts.ofGap t.gap).comments
        (GapParts.ofGap t.gap).tail (t.text ++ Token.spelled vs) := by
    have hrest : cs'.drop g = t.text ++ Token.spelled vs := by
      rw [← List.take_append_drop g cs', hgap] at hspelled
      exact (List.append_cancel_left hspelled).symm
    have hskips := skips_of_gapLength hg
    rwa [hgap, hrest, ← hspelled] at hskips
  obtain ⟨g, hg, ⟨-, hts⟩ | ⟨c, rest, kind, n, more, -, hs, hm, hts⟩⟩ := tokens_cases hsuffix
  · obtain ⟨rfl, rfl⟩ := List.cons.inj hts
    exact Token.kept_of_skips (fun hkind => absurd rfl hkind) nofun (hskipped hg rfl)
  · obtain ⟨rfl, rfl⟩ := List.cons.inj hts
    refine Token.kept_of_skips (fun _ => List.cons_ne_nil c _) (fun hkind => ?_) (hskipped hg rfl)
    obtain rfl : kind = .closeTag := hkind
    exact tokens_of_blank (blank_of_scan_closeTag hs) hm

/-- The open tag keeps the white space ahead of it. -/
theorem kept_openTag {w : List Char} (hw : w.all isBlank = true) (start : Nat) (ts : List Token) :
    Token.Kept ⟨.openTag, w, openTag, start⟩ ts := by
  refine Token.kept_of_skips nofun nofun ?_
  rw [ofGap_blank hw]
  refine .stop hw fun c r hcons => ?_
  obtain ⟨rfl, rfl⟩ : '<' = c ∧ ['?', 'p', 'h', 'p'] ++ Token.spelled ts = r := List.cons.inj hcons
  exact ⟨rfl, rfl⟩

/-- The end of a source that is white space keeps all of it. -/
theorem kept_eof {w : List Char} (hw : w.all isBlank = true) (start : Nat) :
    Token.Kept ⟨.eof, w, [], start⟩ [] := by
  refine Token.kept_of_skips (fun hkind => absurd rfl hkind) nofun ?_
  rw [ofGap_blank hw]
  exact .stop hw nofun

/-- A file without an open tag is white space. -/
theorem blank_of_file {source : String} (h : file source = .ok ts)
    (hnone : splitOnce? openTag source.toList = none) : source.toList.all isBlank = true := by
  unfold file at h
  dsimp only at h
  rw [hnone] at h
  dsimp only at h
  split at h
  · next hblank => exact hblank
  · exact absurd h nofun

/-- Nothing is lost of a source that is cut into tokens, be it a fragment or a file. -/
theorem lossless_of_tokens {source : String} (h : fragment source = .ok ts ∨ file source = .ok ts) :
    Token.Lossless source.toList ts := by
  rcases h with h | h
  · refine (tile_fragment h).lossless_of_kept fun us t vs hts => ?_
    subst hts
    exact kept_tokens h
  · refine (tile_file h).lossless_of_kept fun us t vs hts => ?_
    obtain ⟨before, code, more, -, hbefore, hm, rfl⟩ | ⟨hnone, rfl⟩ := file_cases h
    · -- the first token is the open tag, and the others are those of the code
      obtain ⟨rfl, hcons⟩ | ⟨us, rfl, rfl⟩ := List.cons_eq_append_iff.1 hts
      · obtain ⟨rfl, rfl⟩ := List.cons.inj hcons
        exact kept_openTag hbefore _ _
      · exact kept_tokens hm
    · obtain ⟨rfl, hcons⟩ | ⟨us, rfl, hcons⟩ := List.cons_eq_append_iff.1 hts
      · obtain ⟨rfl, rfl⟩ := List.cons.inj hcons
        exact kept_eof (blank_of_file h hnone) _
      · exact absurd hcons (by simp)

/-- A comment that ends with its line, one that ends at a close tag, and white space at the end. -/
theorem lossless_of_tokens_close_tag :
    (file "<?php # a\n/* b */ f // c ?> " = .ok
      [⟨.openTag, [], "<?php".toList, 0⟩, ⟨.name, " # a\n/* b */ ".toList, "f".toList, 18⟩,
        ⟨.closeTag, " // c ".toList, "?>".toList, 25⟩, ⟨.eof, " ".toList, [], 28⟩]) ∧
      Token.Lossless "<?php # a\n/* b */ f // c ?> ".toList
        [⟨.openTag, [], "<?php".toList, 0⟩, ⟨.name, " # a\n/* b */ ".toList, "f".toList, 18⟩,
          ⟨.closeTag, " // c ".toList, "?>".toList, 25⟩, ⟨.eof, " ".toList, [], 28⟩] :=
  ⟨by decide +kernel, lossless_of_tokens (.inr (by decide +kernel))⟩

end Lexer

end PhpGraft

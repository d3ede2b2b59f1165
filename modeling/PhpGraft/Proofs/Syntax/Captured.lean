import PhpGraft.Proofs.Syntax.Captures
import PhpGraft.Proofs.Syntax.Comments
import PhpGraft.Proofs.Syntax.Keeping
import PhpGraft.Proofs.Syntax.Printing
import PhpGraft.Proofs.Syntax.Provenance

/-!
# Captured code

Blocks, statements and members of no known form, and comments that stand by themselves are taken from
a file as source text. What is printed for them is the text in another layout, so that it has the same
tokens, doc comments apart, where the layout keeps the newlines in them (`addsCode_of_parse`).
-/

namespace PhpGraft

open Lexer Text

variable {f : List Char}

/-! ## Statements as source text -/

namespace Lexer

/-- Behind a gap there is no more of it. -/
theorem gapLength_drop {cs : List Char} {g : Nat} (h : gapLength cs = .ok g) :
    gapLength (cs.drop g) = .ok 0 := by
  rcases gapLength_cases h with ⟨-, rfl⟩ | ⟨c, rest, hd, hc, rfl⟩ | ⟨c, rest, n, more, hd, hc, hm, rfl⟩
  · rw [List.drop_length]
    exact gapLength_blank rfl
  · have hbehind := drop_takeWhile_add (p := isBlank) cs 0
    rw [Nat.add_zero, hd, List.drop_zero] at hbehind
    rw [hbehind]
    exact gapLength_cons_token (isBlank_of_dropWhile hd) hc
  · have hshorter : rest.length < cs.length := by
      have := length_dropWhile_le isBlank cs
      rw [hd, List.length_cons] at this
      omega
    rw [Nat.add_assoc, drop_takeWhile_add, hd, drop_comment]
    exact gapLength_drop hm
termination_by cs.length
decreasing_by
  rw [List.length_drop]
  omega

/-- Without the gap at its front a source has tokens of the same kinds. -/
theorem tokens_drop_gap {start : Nat} {cs : List Char} {t : Token} {more : List Token}
    (h : tokens start cs = .ok (t :: more)) (start' : Nat) :
    ∃ ts, tokens start' (cs.drop t.gap.length) = .ok ts ∧
      ts.map Token.kind = (t :: more).map Token.kind := by
  obtain ⟨g, hg, hcases⟩ := tokens_cases h
  have hlength : (cs.take g).length = g := List.length_take_of_le (gapLength_le hg)
  have hgap := gapLength_drop hg
  rcases hcases with ⟨hd, hcons⟩ | ⟨c, rest, kind, n, others, hd, hs, hm, hcons⟩
  · obtain ⟨rfl, rfl⟩ := List.cons.inj hcons
    rw [hlength]
    exact ⟨_, tokens_end hgap hd, rfl⟩
  · obtain ⟨rfl, rfl⟩ := List.cons.inj hcons
    rw [hlength]
    obtain ⟨ts, hts, hsame⟩ := tokens_start hm (start' + byteLength ((cs.drop g).take 0) +
      byteLength (c :: rest.take n))
    refine ⟨_, tokens_cons hgap hd hs hts, ?_⟩
    rw [List.map_cons, List.map_cons, kinds_same hsame]

end Lexer

namespace Reader

/-- The source text of a statement has tokens, whatever it was taken from. -/
theorem tokens_of_statement {start : Nat} {cs : List Char} {lead : Token}
    {before inner taken rest : List Token} (h : tokens start cs = .ok (before ++ inner))
    (hspan : statementSpan lead 0 inner = .ok (taken, rest)) :
    ∃ ts, tokens 0 (Token.span taken) = .ok ts ∧ ∀ t ∈ ts, t.kind ≠ .closeTag := by
  obtain rfl := append_of_statementSpan hspan
  have hend := isEnd_of_statementSpan hspan
  cases taken with
  | nil =>
    refine ⟨_, tokens_end (gapLength_blank rfl) rfl, List.forall_mem_singleton.2 nofun⟩
  | cons t taken =>
    have hclose : ∀ t' ∈ t :: taken, t'.kind ≠ .closeTag := fun t' ht' hkind => by
      have := hend t' ht'
      rw [Token.isEnd, hkind] at this
      exact absurd this (by simp)
    obtain ⟨start₁, cs₁, htokens⟩ := tokens_suffix h (by simp)
    have hrest : rest ≠ [] := by
      rintro rfl
      obtain ⟨us, e, hsplit, he, -⟩ := tokens_last htokens
      have := hend e (by rw [← List.append_nil (t :: taken), hsplit]; simp)
      rw [Token.isEnd, he] at this
      exact absurd this (by simp)
    obtain ⟨e, hlast, he⟩ : ∃ e, tokens (0 + byteLength (Token.spelled (t :: taken))) [] = .ok [e] ∧
        e.kind = .eof := ⟨_, tokens_end (gapLength_blank rfl) rfl, rfl⟩
    obtain ⟨us, hsame, -, hwhole⟩ :=
      tokens_continue (v := []) htokens rfl hrest hclose ends_nil hlast
    have hkinds := kinds_same hsame
    obtain ⟨t', us, ⟨-, hgap, -⟩, -, rfl⟩ := List.forall₂_cons_left_iff.1 hsame
    obtain ⟨ts, hts, hkinds'⟩ := tokens_drop_gap hwhole 0
    have hspan : (Token.spelled (t :: taken) ++ ([] ++ [])).drop t'.gap.length =
        Token.span (t :: taken) := by
      rw [hgap, List.append_nil, List.append_nil, Token.spelled_cons, List.drop_left]
      rfl
    refine ⟨ts, hspan ▸ hts, fun t₁ ht₁ hkind => ?_⟩
    have hmem : TokenKind.closeTag ∈ ts.map Token.kind := hkind ▸ List.mem_map_of_mem ht₁
    have hall : ts.map Token.kind = (t :: taken).map Token.kind ++ [.eof] := by
      rw [hkinds', ← hkinds, ← he, ← List.map_singleton, ← List.map_append]
      rfl
    rw [hall, List.mem_append] at hmem
    rcases hmem with hmem | hmem
    · obtain ⟨t₂, ht₂, hkind₂⟩ := List.mem_map.1 hmem
      exact hclose t₂ ht₂ hkind₂
    · exact absurd hmem (by simp)

end Reader

/-! ## What is printed -/

/-- The end of a line at which nothing is dropped from source that is written as it stands: what is
ahead of it does not end in white space. -/
def EndsFirm (front : List Char) : Prop := ∀ c ∈ front.getLast?, isBlank c = false

namespace LineBuffer

/-- The lines of source that is written as it stands. -/
def verbatimLines (m : List Char) : List (List Char) → List (List Char)
  | [] => []
  | l :: ls => (m ++ trimEnd l) :: ls.map trimEnd

/-- Source that is written as it stands is written line by line. -/
theorem adds_verbatim (b : LineBuffer) (source : List Char) :
    Adds b (b.verbatim (String.ofList source))
      ((verbatimLines b.margin.toList (Text.lines source)).flatMap (· ++ ['\n'])) := by
  rw [verbatim, String.toList_ofList]
  cases Text.lines source with
  | nil => exact ⟨rfl, rfl, by simp [verbatimLines]⟩
  | cons l ls =>
    have hfirst := b.adds_line (String.ofList (trimEnd l))
    have hrest := adds_foldl (fun _ s => s.toList ++ ['\n']) adds_raw
      (ls.map fun l => String.ofList (trimEnd l)) (b.line (String.ofList (trimEnd l)))
    have hall := hfirst.trans hrest
    rw [List.flatMap_map, ← List.append_assoc] at hall
    simp only [String.toList_ofList] at hall
    rw [verbatimLines, List.flatMap_cons, List.flatMap_map]
    exact hall

/-- The lines of a body are written line by line, one level deeper. -/
theorem adds_block (b : LineBuffer) (body : Body) :
    Adds b (b.block body)
      (body.lines.flatMap fun l => Body.written b.deeper.margin.toList l ++ ['\n']) :=
  (adds_foldl (fun m l => Body.written m l ++ ['\n']) adds_bodyLine body.lines b.deeper).nested

end LineBuffer

namespace Body

/-- Source that is written as it stands is the source in another layout. -/
theorem exists_lays_verbatim {m : List Char} (hf : HasPlainEnds f) (hm : IsMargin m) :
    ∃ u p cs ds, f = u ++ cs ∧ u.all isSpace = true ∧
      '\n' :: (LineBuffer.verbatimLines m (Text.lines f)).flatMap (· ++ ['\n']) = p ++ ds ∧
      p.all isSpace = true ∧
      Lays (fun r => ∃ front, f = front ++ '\n' :: r ∧ EndsFirm front) ['\n'] cs ds := by
  obtain ⟨qs, e, he, hlines, hrows, htext⟩ := exists_rows f
  have hend : e.all isSpace = true := by
    rcases he with rfl | rfl <;> rfl
  have htrim {q : List Char × List Char} (hq : q ∈ qs) :
      ∃ e, e.all isSpace = true ∧ q.2 = trimEnd q.1 ++ e := by
    obtain ⟨e, hsplit, he⟩ := exists_dropTailWhile isBlank q.1
    have hspaces := hf.back (hlines ▸ List.mem_map_of_mem hq) hsplit he
    rcases hrows q hq with hrow | hrow
    · exact ⟨e, hspaces, hrow.trans hsplit⟩
    · refine ⟨e ++ ['\r'], by rw [List.all_append, hspaces]; rfl, ?_⟩
      rw [hrow, ← List.append_assoc]
      exact congrArg (· ++ ['\r']) hsplit
  have hmem {l : List Char} (hl : l ∈ qs.map Prod.snd) : '\n' ∉ l := by
    obtain ⟨q, hq, rfl⟩ := List.mem_map.1 hl
    exact not_mem_of_isRowOf (hrows q hq) (not_mem_of_mem_lines (hlines ▸ List.mem_map_of_mem hq))
  rw [← hlines]
  cases qs with
  | nil =>
    exact @exists_lays f EndsFirm [] [] [] e [] htext (List.forall_mem_nil _) (List.forall_mem_nil _) hend
      (List.forall_mem_nil _) (List.forall_mem_nil _) fun front y z back hsplit => by simp at hsplit
  | cons q qs =>
    let pair (q : List Char × List Char) : List Char × List Char := (q.2, trimEnd q.1)
    have hsource : ((q.2, m ++ trimEnd q.1) :: qs.map pair).map Prod.fst = (q :: qs).map Prod.snd := by
      rw [List.map_cons, List.map_map]
      rfl
    have hwritten : ((q.2, m ++ trimEnd q.1) :: qs.map pair).flatMap (·.2 ++ ['\n']) ++ [] =
        (LineBuffer.verbatimLines m ((q :: qs).map Prod.fst)).flatMap (· ++ ['\n']) := by
      rw [List.append_nil, List.flatMap_cons, List.flatMap_map, List.map_cons, LineBuffer.verbatimLines,
        List.flatMap_cons, List.map_map, List.flatMap_map]
      rfl
    rw [← hwritten]
    refine @exists_lays f EndsFirm [] [] _ e [] ?_ (List.forall_mem_nil _) (List.forall_mem_nil _) hend
      ?_ ?_ fun front y z back hsplit hfirm => ?_
    · rw [hsource, List.append_nil]
      exact htext
    · refine List.forall_mem_cons.2 ⟨?_, fun p hp => ?_⟩
      · obtain ⟨e, he, hrow⟩ := htrim (List.mem_cons_self ..)
        exact ⟨[], m, trimEnd q.1, e, rfl, hm.spaces, he, hrow, rfl⟩
      · obtain ⟨q', hq', rfl⟩ := List.mem_map.1 hp
        obtain ⟨e, he, hrow⟩ := htrim (List.mem_cons_of_mem _ hq')
        exact ⟨[], [], trimEnd q'.1, e, rfl, rfl, he, hrow, rfl⟩
    · intro p hp
      exact hmem (hsource ▸ List.mem_map_of_mem hp)
    · -- only the first line has a margin, and it is behind no newline
      have hz : z ∈ qs.map pair := by
        cases front with
        | nil => exact (List.cons.inj hsplit).2 ▸ List.mem_cons_self ..
        | cons x front => exact (List.cons.inj hsplit).2 ▸ by simp
      obtain ⟨q', hq', rfl⟩ := List.mem_map.1 hz
      refine ⟨.inr fun c hc => ?_, htrim (List.mem_cons_of_mem _ hq')⟩
      have hlast := hfirm c (by rw [List.getLast?_append, Option.mem_def.1 hc]; rfl)
      exact Bool.eq_false_iff.2 fun hspace => by
        rw [isBlank_of_isSpace hspace] at hlast
        cases hlast

end Body

namespace LineBuffer

variable {b b' : LineBuffer}

/-- A buffer in which lines are written behind another one, with the code of some source in these
lines. -/
def AddsCode (source : List Char) (b b' : LineBuffer) : Prop :=
  ∃ cs, Adds b b' cs ∧ KeepsCode source cs

/-- What is written behind a buffer is determined by both of them. -/
theorem Adds.unique {cs ds : List Char} (h : Adds b b' cs) (h' : Adds b b' ds) : cs = ds :=
  List.append_cancel_left (h.text.symm.trans h'.text)

/-- A block keeps its tokens, doc comments apart, if they do not end in white space and their newlines
are in the text of heredocs or ahead of it. -/
theorem addsCode_block {start : Nat} {cs block : List Char} {before inner rest : List Token}
    (hcode : tokens start cs = .ok (before ++ inner))
    (hblock : Reader.blockSource? 0 inner = some (block, rest)) (hends : HasPlainEnds block)
    (hfirm : IsFirm (Body.KeepsNewline block) block) (b : LineBuffer) :
    AddsCode block b (b.block (Body.ofSource block)) := by
  obtain ⟨us, e, hts, he, hclose, -⟩ := Body.tokens_of_block hcode hblock 0
  obtain ⟨u, p, cs, ds, hsource, hu, hprinted, hp, hl⟩ :=
    Body.exists_lays_ofSource hends b.deeper.isMargin_margin []
  rw [List.append_nil] at hprinted
  refine ⟨_, b.adds_block _, keepsCode_of_lays hts ?_ hfirm hsource hu hprinted hp hl⟩
  refine List.forall_mem_append.2 ⟨hclose, List.forall_mem_singleton.2 ?_⟩
  rw [he]
  exact nofun

/-- Source that is written as it stands keeps its tokens, doc comments apart, if they do not end in
white space and there is none ahead of the newlines in them. -/
theorem addsCode_verbatim {ts : List Token} (hts : tokens 0 f = .ok ts)
    (hclose : ∀ t ∈ ts, t.kind ≠ .closeTag) (hends : HasPlainEnds f) (hfirm : IsFirm EndsFirm f)
    (b : LineBuffer) : AddsCode f b (b.verbatim (String.ofList f)) := by
  obtain ⟨u, p, cs, ds, hsource, hu, hprinted, hp, hl⟩ :=
    Body.exists_lays_verbatim hends b.isMargin_margin
  exact ⟨_, b.adds_verbatim _, keepsCode_of_lays hts hclose hfirm hsource hu hprinted hp hl⟩

end LineBuffer

/-- The tokens of a file behind some of those at its front are at the end of the tokens of its code. -/
theorem Lexer.exists_of_suffix {source : String} {ts inner : List Token}
    (hfile : Lexer.file source = .ok ts) (hinner : inner <:+ ts.tail) (hne : inner ≠ []) :
    ∃ start cs before, tokens start cs = .ok (before ++ inner) := by
  obtain ⟨before, hbefore⟩ := hinner
  cases ts with
  | nil => exact absurd (List.append_eq_nil_iff.1 hbefore).2 hne
  | cons first ts =>
    obtain rfl : before ++ inner = ts := hbefore
    have hall : Lexer.file source = .ok ((first :: before) ++ inner) := hfile
    exact Body.exists_of_file hall (List.cons_ne_nil _ _) hne

/-- Source text that was read in a file has tokens. -/
theorem IsTakenText.exists_tokens {source : String} {ts : List Token} {text : List Char}
    (h : IsTakenText ts.tail text) (hfile : Lexer.file source = .ok ts) :
    ∃ us, tokens 0 text = .ok us ∧ ∀ t ∈ us, t.kind ≠ .closeTag := by
  cases h with
  | statement hinner hspan =>
    obtain ⟨start, cs, before, hcode⟩ := Lexer.exists_of_suffix hfile hinner
      (by rintro rfl; exact absurd hspan nofun)
    exact Reader.tokens_of_statement hcode hspan
  | @comments inner afterItem _ hinner htext =>
    have hgap : gapLength text = .ok text.length := by
      by_cases hne : inner = []
      · subst hne
        exact @gapLength_of_detached 0 [] text [_] [] (tokens_end (gapLength_blank rfl) rfl) afterItem
          htext
      · obtain ⟨start, cs, before, hcode⟩ := Lexer.exists_of_suffix hfile hinner hne
        exact gapLength_of_detached hcode htext
    exact ⟨_, tokens_end hgap (List.drop_length ..), List.forall_mem_singleton.2 nofun⟩

/-- All source text that the nodes of a file hold was read in the file, and what is printed for it has
its tokens, doc comments apart, if they do not end in white space and the printer keeps their newlines,
and if white space at the ends of lines is ASCII.

* The block of a method, or of the traits that a class uses, keeps the newlines in the text of its
  heredocs and ahead of it.
* A statement or a member that is source text, or comments that stand by themselves, keep newlines
  without white space ahead of them. -/
theorem addsCode_of_parse {source : String} {file : Outline} (h : Outline.parse source = .ok file)
    (b : LineBuffer) : ∃ ts, Lexer.file source = .ok ts ∧ file.IsTaken ts.tail ∧ file.All fun n =>
      (∀ body ∈ n.kind.block?, ∀ block, body.IsTaken ts.tail block → HasPlainEnds block →
        IsFirm (Body.KeepsNewline block) block → b.AddsCode block (b.block body)) ∧
      ∀ text ∈ n.kind.text?, HasPlainEnds text.toList → IsFirm EndsFirm text.toList →
        b.AddsCode text.toList (b.verbatim text) := by
  obtain ⟨ts, hfile, htaken⟩ := Outline.isTaken_of_parse h
  refine ⟨ts, hfile, htaken, htaken.mono fun n hn => ⟨?_, fun text htext hends hfirm => ?_⟩⟩
  · rintro body - block ⟨inner, rest, hinner, hblock, rfl⟩ hends hfirm
    obtain ⟨start, cs, before, hcode⟩ := Lexer.exists_of_suffix hfile hinner
      (by rintro rfl; exact absurd hblock nofun)
    exact LineBuffer.addsCode_block hcode hblock hends hfirm b
  · obtain ⟨us, hus, hclose⟩ := (hn.text text htext).exists_tokens hfile
    have hadds := LineBuffer.addsCode_verbatim hus hclose hends hfirm b
    rwa [String.ofList_toList] at hadds

/-- Heredocs are kept in a statement and in the body of a method, and a comment is no code. -/
theorem addsCode_heredoc :
    (LineBuffer.empty (.spaces 4)).AddsCode "# x\n# y".toList
      ((LineBuffer.empty (.spaces 4)).verbatim "# x\n# y") ∧
    (LineBuffer.empty (.spaces 4)).AddsCode "<<<E\nx\nE;".toList
      ((LineBuffer.empty (.spaces 4)).verbatim "<<<E\nx\nE;") ∧
    (LineBuffer.empty (.spaces 4)).AddsCode "\n<<<E\nx\nE;\n".toList
      ((LineBuffer.empty (.spaces 4)).block (Body.ofSource "\n<<<E\nx\nE;\n".toList)) := by
  -- the heredoc and the semicolon behind it
  let heredoc : List Char := ['<', '<', '<', 'E', '\n', 'x', '\n', 'E']
  let code (gap : List Char) (start : Nat) : List Token :=
    [⟨.string none, gap, heredoc, start⟩, ⟨.punct ';', [], [';'], start + 8⟩]
  let block : List Char := "\n<<<E\nx\nE;\n".toList
  let source : String := "<?php\n# x\n# y\n\n<<<E\nx\nE;\n" ++
    "class A \x7b function m() \x7b\n<<<E\nx\nE;\n\x7d \x7d"
  let head : List Token := [⟨.openTag, [], openTag, 0⟩] ++ code "\n# x\n# y\n\n".toList 15 ++
    [⟨.name, ['\n'], "class".toList, 25⟩, ⟨.name, [' '], ['A'], 31⟩, ⟨.punct '{', [' '], ['{'], 33⟩,
      ⟨.name, [' '], "function".toList, 35⟩, ⟨.name, [' '], ['m'], 44⟩, ⟨.punct '(', [], ['('], 45⟩,
      ⟨.punct ')', [], [')'], 46⟩, ⟨.punct '{', [' '], ['{'], 48⟩]
  let inner : List Token := code ['\n'] 50 ++
    [⟨.punct '}', ['\n'], ['}'], 60⟩, ⟨.punct '}', [' '], ['}'], 62⟩, ⟨.eof, [], [], 63⟩]
  have htokens : (Lexer.file source).toOption = some (head ++ inner) := by decide +kernel
  have hnodes : ((Outline.parse source).toOption.map fun file => file.children.map fun o =>
      (o.node.kind.text?, o.children.map fun o => o.node.kind.block?)) =
      some [(some "# x\n# y", []), (some "<<<E\nx\nE;", []), (none, [some (Body.ofSource block)])] := by
    decide +kernel
  obtain ⟨file, hparse, hnodes⟩ := Option.map_eq_some_iff.1 hnodes
  obtain ⟨ts, hts, -, hall⟩ :=
    addsCode_of_parse (Body.eq_ok_of_toOption hparse) (LineBuffer.empty (.spaces 4))
  obtain rfl : ts = head ++ inner := Except.ok.inj (hts.symm.trans (Body.eq_ok_of_toOption htokens))
  obtain ⟨comment, _, hcs, hcomment, hnodes⟩ := List.map_eq_cons_iff.1 hnodes
  obtain ⟨statement, _, rfl, hstatement, hnodes⟩ := List.map_eq_cons_iff.1 hnodes
  obtain ⟨decl, rfl, hdecl⟩ := List.map_eq_singleton_iff.1 hnodes
  obtain ⟨method, hmethods, hmethod⟩ := List.map_eq_singleton_iff.1 (Prod.mk.inj hdecl).2
  have hfirm {kept : List Char → Prop} {front gap source : List Char} {n k : Nat}
      (hts : (tokens 0 source).toOption = some (code front n ++ [⟨.eof, gap, [], k⟩]))
      (hfirst : kept (front ++ heredoc.take 4)) (hsecond : kept (front ++ heredoc.take 6)) :
      IsFirm kept source := by
    have hnewline : ∀ j < 8, heredoc[j]? = some '\n' → j = 4 ∨ j = 6 := by decide
    refine isFirm_of_tokens (Body.eq_ok_of_toOption hts) fun i _ t ht _ => ?_
    match i, ht with
    | 0, ht =>
      obtain rfl := Option.some.inj ht
      refine ⟨fun c hc => by cases hc; rfl, fun j hj hn => ?_⟩
      rcases hnewline j hj hn with rfl | rfl
      · exact hfirst
      · exact hsecond
    | 1, ht =>
      obtain rfl := Option.some.inj ht
      exact ⟨fun c hc => by cases hc; rfl, fun j _ hj => absurd (List.mem_of_getElem? hj) (by simp)⟩
    | 2, ht =>
      obtain rfl := Option.some.inj ht
      exact ⟨nofun, nofun⟩
  have hends {f : List Char} (h : f = block ∨ f = "<<<E\nx\nE;".toList ∨ f = "# x\n# y".toList) :
      HasPlainEnds f := by
    unfold HasPlainEnds
    rcases h with rfl | rfl | rfl <;> decide +kernel
  refine ⟨?_, ?_, ?_⟩
  · have hts : (tokens 0 "# x\n# y".toList).toOption = some [⟨.eof, "# x\n# y".toList, [], 7⟩] := by
      decide +kernel
    refine (hall.children comment (by rw [hcs]; simp)).node.2 _ (Prod.mk.inj hcomment).1
      (hends (.inr (.inr rfl))) (isFirm_of_tokens (Body.eq_ok_of_toOption hts) fun i _ t ht _ => ?_)
    obtain rfl := List.mem_singleton.1 (List.mem_of_getElem? ht)
    exact ⟨nofun, nofun⟩
  · have hts : (tokens 0 "<<<E\nx\nE;".toList).toOption = some (code [] 0 ++ [⟨.eof, [], [], 9⟩]) := by
      decide +kernel
    exact (hall.children statement (by rw [hcs]; simp)).node.2 _ (Prod.mk.inj hstatement).1
      (hends (.inr (.inl rfl))) (hfirm hts (fun c hc => by cases hc; rfl) fun c hc => by cases hc; rfl)
  · have hts : (tokens 0 block).toOption = some (code ['\n'] 1 ++ [⟨.eof, ['\n'], [], 11⟩]) := by
      decide +kernel
    have htaken : (Body.ofSource block).IsTaken (head ++ inner).tail block :=
      ⟨inner, inner.drop 3, List.suffix_append _ _, by decide +kernel, rfl⟩
    have hkept {front : List Char} {c : Char} (hlast : front.getLast? = some c) (hc : isBlank c = false)
        (hflag : (Body.rawFlags (Text.lines block))[newlineCount front + 1]? = some true) :
        Body.KeepsNewline block front := by
      refine ⟨hflag, fun d hd hblank => ?_⟩
      obtain rfl := Option.some.inj (hlast.symm.trans hd)
      rw [hc] at hblank
      cases hblank
    have hdecl := hall.children decl (by rw [hcs]; simp)
    exact (hdecl.children method (by rw [hmethods]; simp)).node.1 _ hmethod _ htaken (hends (.inl rfl))
      (hfirm hts (hkept (c := 'E') rfl rfl (by decide +kernel))
        (hkept (c := 'x') rfl rfl (by decide +kernel)))

/-- A heredoc whose label is no ASCII identifier is not kept in the body of a method. -/
theorem not_addsCode_label : ¬ ∀ (source : String) (file : Outline) (ts : List Token) (b : LineBuffer),
    Outline.parse source = .ok file → Lexer.file source = .ok ts → file.All fun n =>
      ∀ body ∈ n.kind.block?, ∀ block, body.IsTaken ts.tail block → b.AddsCode block (b.block body) := by
  intro hall
  let source : String := "<?php\nclass A\n\x7b\n    function m()\n    \x7b\n" ++
    "        return <<<É\nx  \nÉ;\n    \x7d\n\x7d\n"
  let head : List Token :=
    [⟨.openTag, [], openTag, 0⟩, ⟨.name, ['\n'], "class".toList, 6⟩, ⟨.name, [' '], ['A'], 12⟩,
      ⟨.punct '{', ['\n'], ['{'], 14⟩, ⟨.name, "\n    ".toList, "function".toList, 20⟩,
      ⟨.name, [' '], ['m'], 29⟩, ⟨.punct '(', [], ['('], 30⟩, ⟨.punct ')', [], [')'], 31⟩,
      ⟨.punct '{', "\n    ".toList, ['{'], 37⟩]
  let inner : List Token :=
    [⟨.name, "\n        ".toList, "return".toList, 47⟩, ⟨.string none, [' '], "<<<É\nx  \nÉ".toList, 54⟩,
      ⟨.punct ';', [], [';'], 66⟩, ⟨.punct '}', "\n    ".toList, ['}'], 72⟩,
      ⟨.punct '}', ['\n'], ['}'], 74⟩, ⟨.eof, ['\n'], [], 76⟩]
  let block : List Char := "\n        return <<<É\nx  \nÉ;\n    ".toList
  let printed : List Char := "                return <<<É\n        x\n        É;\n".toList
  let b : LineBuffer := (LineBuffer.empty (.spaces 4)).deeper
  have htokens : (Lexer.file source).toOption = some (head ++ inner) := by decide +kernel
  have hnodes : ((Outline.parse source).toOption.map fun file => file.children.map fun o =>
      o.children.map fun o => o.node.kind.block?) = some [[some (Body.ofSource block)]] := by
    decide +kernel
  have htaken : (Body.ofSource block).IsTaken (head ++ inner).tail block :=
    ⟨inner, inner.drop 4, List.suffix_append _ _, by decide +kernel, rfl⟩
  have hprinted : ((Body.ofSource block).lines.flatMap fun l =>
      Body.written b.deeper.margin.toList l ++ ['\n']) = printed := by decide +kernel
  have hcode : (tokens 0 block).toOption.map Token.code ≠ (tokens 0 printed).toOption.map Token.code := by
    decide +kernel
  obtain ⟨file, hparse, hnodes⟩ := Option.map_eq_some_iff.1 hnodes
  obtain ⟨decl, hdecls, hnodes⟩ := List.map_eq_singleton_iff.1 hnodes
  obtain ⟨method, hmethods, hmethod⟩ := List.map_eq_singleton_iff.1 hnodes
  have hdecl := (hall source file _ b (Body.eq_ok_of_toOption hparse)
    (Body.eq_ok_of_toOption htokens)).children decl (by rw [hdecls]; simp)
  obtain ⟨cs, hadds, ts, ts', hts, hts', hsame⟩ :=
    (hdecl.children method (by rw [hmethods]; simp)).node _ hmethod _ htaken
  obtain rfl : cs = printed := (hadds.unique (b.adds_block _)).trans hprinted
  rw [hts, hts'] at hcode
  exact hcode (congrArg some hsame.symm)

end PhpGraft

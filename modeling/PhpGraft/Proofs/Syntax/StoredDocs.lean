import PhpGraft.Proofs.Syntax.Lossless
import PhpGraft.Proofs.Syntax.Printing

/-!
# Doc comments that are stored

A doc comment of a source ends at the first star and slash behind the stars that open it
(`Lexer.isDocText_of_source`). No line of it ends there but the last one, and none does once the lines are
trimmed, so what is kept of it is a stored doc comment (`IsDocText.exists_stored`): it is stored as it is,
and written at any depth it is one token, from which it is stored again
(`DocComment.stable_of_source`).
-/

namespace PhpGraft

open Lexer Text

/-! ## Doc comments of a source -/

namespace Lexer

variable {c : Char} {cs : List Char} {n : Nat} {ts : List Token}

/-- No comment ends ahead of the place that is found. -/
theorem clear_of_indexOf? {v s : List Char} (h : indexOf? starSlash (v ++ s) = some v.length) : Clear v := by
  cases hv : indexOf? starSlash v with
  | none => exact hv
  | some k =>
    obtain ⟨a, b, hsplit, rfl⟩ := exists_of_indexOf? hv
    have hlength : a.length + starSlash.length ≤ v.length := by
      rw [hsplit, List.length_append, List.length_append]
      omega
    have hfirst : indexOf? starSlash (v ++ s) = some a.length :=
      indexOf?_cut (s := []) (by rw [List.append_nil]; exact hv) hlength s
    have hsame := Option.some.inj (h.symm.trans hfirst)
    simp only [starSlash, List.length_cons] at hlength
    omega

/-- Whether a token of a kind is something else than a doc comment. -/
def NoDoc : TokenKind → Prop
  | .docComment => False
  | _ => True

/-- A doc comment is found where a slash stands ahead of two stars. -/
theorem scanDoc_of_scan (h : scan c cs = .ok (.docComment, n)) :
    c = '/' ∧ ['*', '*'].isPrefixOf cs = true ∧ scanDoc cs = .ok (.docComment, n) := by
  rw [scan] at h
  by_cases hdoc : c = '/' ∧ ['*', '*'].isPrefixOf cs = true
  · rw [if_pos hdoc] at h
    exact ⟨hdoc.1, hdoc.2, h⟩
  · rw [if_neg hdoc] at h
    have hclose : Finds NoDoc (scanCloseTag cs) := .ite (.ok trivial) fun _ _ he => by cases he
    -- no other scan finds a doc comment
    refine ((?_ : Finds NoDoc _) _ _ h).elim
    refine .ite (.ok trivial) (.ite hclose (.ite (.scanHeredoc trivial) (.ite (.ok trivial) ?_)))
    refine .ite (.ok trivial) (.ite (.ok trivial) (.ite (.ok trivial) (.ite (.ok trivial) ?_)))
    refine .ite (.scanNumber (fun _ _ => trivial) (fun _ => trivial) fun _ _ _ => trivial) ?_
    exact .ite (.scanSingleQuoted fun _ => trivial) (.ite (.scanDoubleQuoted fun _ => trivial) (.ok trivial))

/-- What is found as a doc comment, where no plain comment starts, is one. -/
theorem isDocText_of_scan (hc : plainComment? c cs = .ok none) (hs : scan c cs = .ok (.docComment, n)) :
    IsDocText (c :: cs.take n) := by
  obtain ⟨rfl, hstars, hdoc⟩ := scanDoc_of_scan hs
  obtain ⟨w, rfl⟩ := List.isPrefixOf_iff_prefix.1 hstars
  have hdrop : (['*', '*'] ++ w).drop 2 = w := rfl
  rw [scanDoc, hdrop] at hdoc
  cases hend : indexOf? starSlash w with
  | none => rw [hend] at hdoc; cases hdoc
  | some k =>
    rw [hend] at hdoc
    obtain ⟨-, rfl⟩ := Prod.mk.inj (Except.ok.inj hdoc)
    obtain ⟨v, b, rfl, rfl⟩ := exists_of_indexOf? hend
    have htext : (['*', '*'] ++ (v ++ (starSlash ++ b))).take (v.length + 4) =
        '*' :: '*' :: (v ++ starSlash) := by
      have hlength : ('*' :: '*' :: (v ++ starSlash)).length = v.length + 4 := by simp [starSlash]
      have hassoc : ['*', '*'] ++ (v ++ (starSlash ++ b)) = '*' :: '*' :: (v ++ starSlash) ++ b := by simp
      rw [hassoc, ← hlength, List.take_left]
    refine ⟨v, by rw [htext], clear_of_indexOf? hend, fun hslash => ?_⟩
    -- with a slash behind its stars the comment would be a plain one
    obtain ⟨r, hr⟩ := List.head?_eq_some_iff.1 hslash
    rw [← List.append_assoc v, hr] at hc
    have hplain : plainComment? '/' ('*' :: '*' :: '/' :: (r ++ b)) = .ok (some 3) := rfl
    cases hplain.symm.trans hc

/-- The doc comments among the tokens of a text are doc comments. -/
theorem isDocText_of_tokens {start : Nat} (h : tokens start cs = .ok ts) :
    ∀ t ∈ ts, t.kind = .docComment → IsDocText t.text := by
  induction ts generalizing start cs with
  | nil => exact List.forall_mem_nil _
  | cons t ts ih =>
    obtain ⟨g, hg, ⟨-, hts⟩ | ⟨c, rest, kind, n, more, hd, hs, hm, hts⟩⟩ := tokens_cases h
    · rw [hts]
      exact List.forall_mem_singleton.2 nofun
    · obtain ⟨rfl, rfl⟩ := List.cons.inj hts
      refine List.forall_mem_cons.2 ⟨fun hkind => ?_, ih hm⟩
      obtain rfl : kind = .docComment := hkind
      exact isDocText_of_scan ((skips_of_gapLength hg).stops c rest hd).2 hs

/-- The doc comments among the tokens of a source, be it a fragment or a file, are doc comments. -/
theorem isDocText_of_source {source : String} (h : fragment source = .ok ts ∨ file source = .ok ts) :
    ∀ t ∈ ts, t.kind = .docComment → IsDocText t.text := by
  rcases h with h | h
  · exact isDocText_of_tokens h
  · obtain ⟨before, code, more, -, -, hm, rfl⟩ | ⟨-, rfl⟩ := file_cases h
    · exact List.forall_mem_cons.2 ⟨nofun, isDocText_of_tokens hm⟩
    · exact List.forall_mem_singleton.2 nofun

end Lexer

/-! ## What is stored of a comment -/

variable {a l r d : List Char} {ls rs : List (List Char)}

namespace KeepsEnd

variable {change after : List Char → List Char}

/-- One change after another. -/
theorem comp (hafter : KeepsEnd after) (h : KeepsEnd change) : KeepsEnd fun l => after (change l) where
  clear hl := hafter.clear (h.clear hl)
  closing hv := by
    obtain ⟨w, hw, hclear⟩ := h.closing hv
    rw [hw]
    exact hafter.closing hclear

/-- No comment ends in the white space at the front of a line. -/
theorem trimStart : KeepsEnd trimStart where
  clear {l} h := by
    rw [← List.takeWhile_append_dropWhile (p := isBlank) (l := l)] at h
    exact h.of_append.2
  closing {v} h := by
    refine ⟨Text.trimStart v, ?_, ?_⟩
    · rw [Text.trimStart, Text.trimStart, List.dropWhile_append]
      split
      · next hnil =>
        rw [List.isEmpty_iff.1 hnil]
        rfl
      · rfl
    · rw [← List.takeWhile_append_dropWhile (p := isBlank) (l := v)] at h
      exact h.of_append.2

/-- The end of a comment is not trimmed off. -/
theorem trimEnd : KeepsEnd trimEnd where
  clear {l} h := by
    obtain ⟨t, ht, -⟩ := exists_dropTailWhile isBlank l
    rw [ht] at h
    exact h.of_append.1
  closing {v} h := by
    refine ⟨v, dropTailWhile_eq_self fun c hc => ?_, h⟩
    rw [List.getLast?_append] at hc
    obtain rfl : '/' = c := Option.some.inj hc
    rfl

/-- A line that is stored ends a comment where it did: the space that it may get ahead of it is no part of
an end. -/
theorem continuation : KeepsEnd DocComment.continuation := by
  have htrim : KeepsEnd trim := trimEnd.comp trimStart
  refine ⟨fun {l} h => ?_, fun {v} h => ?_⟩
  · rw [DocComment.continuation]
    split
    · exact (htrim.clear h).cons (by decide)
    · exact htrim.clear h
  · obtain ⟨w, hw, hclear⟩ := htrim.closing h
    rw [DocComment.continuation, hw]
    split
    · exact ⟨' ' :: w, rfl, hclear.cons (by decide)⟩
    · exact ⟨w, rfl, hclear⟩

end KeepsEnd

/-- A line as it stands in its text is stored as the line is. -/
theorem trim_of_isRowOf (h : IsRowOf l r) : trim l = trim r := by
  rcases h with rfl | rfl
  · rfl
  · exact (trim_append_end rfl l).symm

/-- A stored line is stored as it is. -/
theorem continuation_continuation (l : List Char) :
    DocComment.continuation (DocComment.continuation l) = DocComment.continuation l := by
  have htrim : trim (DocComment.continuation l) = trim l := by
    rw [DocComment.continuation]
    split
    · exact (trim_append_front (g := [' ']) rfl (trim l)).trans (trim_trim l)
    · exact trim_trim l
  conv => lhs; rw [DocComment.continuation, htrim]
  rfl

/-- A stored line has no newline if the line has none. -/
theorem not_mem_continuation (h : '\n' ∉ l) : '\n' ∉ DocComment.continuation l := by
  have htrim : '\n' ∉ trim l := fun hmem => h ((trimWhile_sublist isBlank l).mem hmem)
  rw [DocComment.continuation]
  split
  · exact fun hmem => (List.mem_cons.1 hmem).elim (by decide) htrim
  · exact htrim

/-- The mark of a doc comment is not trimmed off. -/
theorem trim_mark (a : List Char) :
    trim ('/' :: '*' :: '*' :: a) = '/' :: '*' :: '*' :: trimEnd a := by
  have hstart : trimStart ('/' :: '*' :: '*' :: a) = '/' :: '*' :: '*' :: a := rfl
  rw [trim, hstart]
  by_cases ha : a.all isBlank = true
  · have hnil : trimEnd a = [] := dropTailWhile_eq_nil ha
    rw [hnil]
    exact dropTailWhile_append (l := ['/', '*', '*']) ha
  · exact dropTailWhile_append_left (by simpa using ha) ['/', '*', '*']

/-- Where a text of several lines ends in the first end of a comment, its lines do. -/
theorem closes_of_join {v : List Char} (h : joinWith ['\n'] (l :: ls) = v ++ starSlash) (hv : Clear v) :
    Closes (l :: ls) := by
  induction ls generalizing l v with
  | nil => exact ⟨v, h, hv⟩
  | cons k ls ih =>
    rw [joinWith_cons_cons] at h
    obtain ⟨u, rfl, hrest⟩ := exists_of_append_end h (by decide)
    obtain ⟨hl, hu⟩ := hv.of_append
    exact ⟨hl, ih hrest (Clear.cons_iff.1 hu).2⟩

/-- A text that does not end in a newline is stored by its lines as they stand in it. -/
theorem exists_normalize (hd : d.getLast? = some '/') : ∃ r rs, d = joinWith ['\n'] (r :: rs) ∧
    (∀ l ∈ r :: rs, '\n' ∉ l) ∧
    DocComment.normalize d = joinWith ['\n'] (trim r :: rs.map DocComment.continuation) := by
  obtain ⟨qs, e, he, hlines, hrows, htext⟩ := exists_rows d
  obtain rfl : e = [] := he.resolve_right fun hnewline => by
    rw [htext, hnewline, List.getLast?_concat] at hd
    exact absurd hd (by decide)
  rw [List.append_nil] at htext
  cases qs with
  | nil => rw [htext] at hd; exact absurd hd nofun
  | cons q qs =>
    refine ⟨q.2, qs.map Prod.snd, htext, ?_, ?_⟩
    · rw [← List.map_cons (f := Prod.snd), List.forall_mem_map]
      intro p hp
      have hline : p.1 ∈ lines d := hlines ▸ List.mem_map_of_mem hp
      exact not_mem_of_isRowOf (hrows p hp) (not_mem_of_mem_lines hline)
    · have hothers : (qs.map Prod.fst).map DocComment.continuation =
          (qs.map Prod.snd).map DocComment.continuation := by
        rw [List.map_map, List.map_map]
        refine List.map_congr_left fun p hp => ?_
        have htrim := trim_of_isRowOf (hrows p (List.mem_cons_of_mem _ hp))
        simp only [Function.comp_apply, DocComment.continuation, htrim]
      rw [DocComment.normalize, ← hlines, List.map_cons]
      dsimp only
      rw [hothers, trim_of_isRowOf (hrows q (List.mem_cons_self ..))]

/-- What is stored of a doc comment is a stored doc comment. -/
theorem IsDocText.exists_stored (h : IsDocText d) :
    ∃ a ls, StoredDoc a ls ∧ DocComment.normalize d = docText a ls := by
  obtain ⟨v, hd, hclear, hopen⟩ := h
  have hlast : d.getLast? = some '/' := by
    have hsplit : d = ('/' :: '*' :: '*' :: v) ++ starSlash := hd
    rw [hsplit, List.getLast?_append]
    rfl
  obtain ⟨r, rs, htext, hlines, hnormal⟩ := exists_normalize hlast
  -- the mark stands on the first line
  obtain ⟨a, rfl, hjoin⟩ : ∃ a, r = '/' :: '*' :: '*' :: a ∧ joinWith ['\n'] (a :: rs) = v ++ starSlash := by
    rw [hd] at htext
    cases rs with
    | nil => exact ⟨v ++ starSlash, htext.symm, rfl⟩
    | cons k rs =>
      rw [joinWith_cons_cons] at htext
      obtain ⟨a, hr, hrest⟩ := exists_of_append_front (p := ['/', '*', '*']) htext (by decide)
      exact ⟨a, hr, by rw [joinWith_cons_cons]; exact hrest.symm⟩
  obtain ⟨t, ht, -⟩ := exists_dropTailWhile isBlank a
  have hslash : (trimEnd a).head? ≠ some '/' := fun hslash => hopen (by
    rw [← hjoin, joinWith_cons, ht, List.append_assoc, List.head?_append, ← trimEnd, hslash, Option.some_or])
  have hfirst : '\n' ∉ trimEnd a := fun hmem =>
    hlines _ (List.mem_cons_self ..) (by simpa using (dropTailWhile_sublist isBlank a).mem hmem)
  have hothers : ∀ l ∈ rs.map DocComment.continuation,
      DocComment.continuation l = l ∧ '\n' ∉ l := List.forall_mem_map.2 fun k hk =>
    ⟨continuation_continuation k, not_mem_continuation (hlines k (List.mem_cons_of_mem _ hk))⟩
  refine ⟨trimEnd a, rs.map DocComment.continuation, ?_, by rw [hnormal, trim_mark]; rfl⟩
  exact
    { closes := KeepsEnd.trimEnd.closes .continuation (closes_of_join hjoin hclear)
      open_ := hslash
      first := by rw [← trim_mark, trim_trim]
      others := fun l hl => (hothers l hl).1
      noNewline := List.forall_mem_cons.2 ⟨hfirst, fun l hl => (hothers l hl).2⟩ }

/-! ## Stored comments that are written -/

/-- A doc comment that is stored as it is, and that is written, at any depth and with any indentation, as
one token behind the margin, from which it is stored again. -/
structure DocComment.Stable (d : String) : Prop where
  /-- It is stored as it is. -/
  stored : DocComment.normalized d = d
  /-- Its lines are written as a text behind the margin, with a newline at the end. The text is stored as the
  comment, it is the only token of what is written, and it is that token ahead of any other source, too. -/
  written : ∀ b : LineBuffer, ∃ text : String,
    (b.lines (linesOf d)).text = b.text ++ (b.margin ++ text ++ "\n") ∧
    DocComment.normalized text = d ∧
    fragment (b.margin ++ text ++ "\n") =
      .ok [⟨.docComment, b.margin.toList, text.toList, byteLength b.margin.toList⟩,
        ⟨.eof, ['\n'], [], byteLength (b.margin ++ text ++ "\n").toList⟩] ∧
    ∀ start rest more,
      tokens (start + byteLength b.margin.toList + byteLength text.toList) rest = .ok more →
      tokens start (b.margin.toList ++ (text.toList ++ rest)) =
        .ok (⟨.docComment, b.margin.toList, text.toList, start + byteLength b.margin.toList⟩ :: more)

/-- A stored doc comment is stable. -/
theorem IsStored.stable {d : String} (h : IsStored d) : DocComment.Stable d := by
  obtain ⟨a, ls, hstored, hd⟩ := h
  have hself : DocComment.normalized d = d := by
    rw [DocComment.normalized, hd, hstored.self_eq.1, ← hd, String.ofList_toList]
  refine ⟨hself, fun b => ?_⟩
  obtain ⟨text, htext⟩ : ∃ text : String, text.toList = docText a (ls.map (indented b.margin.toList)) :=
    ⟨_, String.toList_ofList⟩
  have hwhole : (b.margin ++ text ++ "\n").toList = b.margin.toList ++ (text.toList ++ ['\n']) := by
    rw [String.toList_append, String.toList_append, List.append_assoc]
    rfl
  have htokens (start : Nat) (rest : List Char) (more : List Token)
      (hm : tokens (start + byteLength b.margin.toList + byteLength text.toList) rest = .ok more) :
      tokens start (b.margin.toList ++ (text.toList ++ rest)) =
        .ok (⟨.docComment, b.margin.toList, text.toList, start + byteLength b.margin.toList⟩ :: more) := by
    rw [htext] at hm ⊢
    exact (hstored.isDocText b.isMargin_margin).tokens_append b.isMargin_margin.blank hm
  refine ⟨text, String.toList_inj.1 ?_, ?_, ?_, htokens⟩
  · rw [String.toList_append, hwhole, (b.adds_doc hstored hd).text, htext]
  · rw [DocComment.normalized, htext, hstored.normalize_eq b.isMargin_margin, ← hd, String.ofList_toList]
  · have hnewline : gapLength ['\n'] = .ok 1 := gapLength_blank rfl
    rw [fragment, hwhole, htokens 0 ['\n'] _ (tokens_end hnewline rfl), byteLength_append, byteLength_append,
      Nat.zero_add, ← Nat.add_assoc]
    rfl

/-- What is stored of the doc comments of a source is stable. -/
theorem DocComment.stable_of_source {source : String} {ts : List Token} {t : Token}
    (h : fragment source = .ok ts ∨ file source = .ok ts) (ht : t ∈ ts) (hkind : t.kind = .docComment) :
    DocComment.Stable (DocComment.normalized (String.ofList t.text)) := by
  obtain ⟨a, ls, hstored, htext⟩ := (isDocText_of_source h t ht hkind).exists_stored
  refine IsStored.stable ⟨a, ls, hstored, ?_⟩
  rw [DocComment.normalized, String.toList_ofList, String.toList_ofList, htext]

/-- A comment with stray carriage returns, an empty line and a last line without a star of its own. -/
theorem DocComment.stable_stray_lines :
    fragment "/**  a \r\n\r\n  * b\r\n\tx **/ f" = .ok
        [⟨.docComment, [], "/**  a \r\n\r\n  * b\r\n\tx **/".toList, 0⟩, ⟨.name, [' '], ['f'], 25⟩,
          ⟨.eof, [], [], 26⟩] ∧
      DocComment.normalized "/**  a \r\n\r\n  * b\r\n\tx **/" = "/**  a\n\n * b\nx **/" ∧
      DocComment.Stable "/**  a\n\n * b\nx **/" := by
  have htokens : fragment "/**  a \r\n\r\n  * b\r\n\tx **/ f" = .ok
      [⟨.docComment, [], "/**  a \r\n\r\n  * b\r\n\tx **/".toList, 0⟩, ⟨.name, [' '], ['f'], 25⟩,
        ⟨.eof, [], [], 26⟩] := by decide +kernel
  have hnormal : DocComment.normalized "/**  a \r\n\r\n  * b\r\n\tx **/" = "/**  a\n\n * b\nx **/" := by
    decide +kernel
  have hstable := DocComment.stable_of_source (.inl htokens) (List.mem_cons_self ..) rfl
  rw [String.ofList_toList, hnormal] at hstable
  exact ⟨htokens, hnormal, hstable⟩

end PhpGraft

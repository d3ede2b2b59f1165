import Mathlib.Data.List.Forall2
import PhpGraft.Proofs.Syntax.Margins
import PhpGraft.Proofs.Syntax.Heredocs
import PhpGraft.Proofs.Syntax.Lexing
import PhpGraft.Proofs.Syntax.Multiline

/-!
# Blocks in braces

The body of a fragment whose brackets match is written in braces, line by line behind margins. What
is written is the fragment in another layout, so that it has the tokens of the fragment, its brackets
match as they did, and the brace behind the last line is the first one that closes nothing: the block
is read back as the body.
-/

namespace PhpGraft

open Lexer Text

namespace Reader

variable {us us' rest : List Token} {t close : Token} {depth : Nat}

/-- The depth of nesting behind some tokens, if none of them ends the source or closes a bracket that
is not open. -/
def depthBehind? (depth : Nat) : List Token → Option Nat
  | [] => some depth
  | t :: ts =>
    if t.isEnd then none
    else if t.isOpener then depthBehind? (depth + 1) ts
    else if t.closer?.isSome then
      if depth = 0 then none else depthBehind? (depth - 1) ts
    else depthBehind? depth ts

/-- A closing delimiter neither ends the source nor opens a bracket. -/
theorem isEnd_of_closer (h : t.closer?.isSome = true) : t.isEnd = false ∧ t.isOpener = false := by
  obtain ⟨kind, gap, text, start⟩ := t
  cases kind with
  | punct c =>
    have hc : c = ')' ∨ c = ']' ∨ c = '}' := by
      by_contra hc
      simp only [Token.closer?] at h
      rw [if_neg hc] at h
      cases h
    rcases hc with rfl | rfl | rfl <;> exact ⟨rfl, rfl⟩
  | _ => cases h

/-- None of the tokens of a depth ends the source. -/
theorem isEnd_of_depth {d : Nat} (h : depthBehind? depth us = some d) : ∀ t ∈ us, t.isEnd = false := by
  induction us generalizing depth with
  | nil => exact List.forall_mem_nil _
  | cons t us ih =>
    unfold depthBehind? at h
    by_cases hend : t.isEnd = true
    · rw [if_pos hend] at h
      cases h
    · refine List.forall_mem_cons.2 ⟨Bool.eq_false_iff.2 hend, ?_⟩
      rw [if_neg hend] at h
      split at h
      · exact ih h
      · split at h
        · split at h
          · cases h
          · exact ih h
        · exact ih h

/-- A block ends with the first delimiter that closes nothing. -/
theorem blockSource?_of_depth (h : depthBehind? depth us = some 0) (hclose : close.closer?.isSome = true)
    (rest : List Token) :
    blockSource? depth (us ++ close :: rest) = some (Token.spelled us ++ close.gap, rest) := by
  induction us generalizing depth with
  | nil =>
    obtain rfl := Option.some.inj h
    obtain ⟨hend, hopen⟩ := isEnd_of_closer hclose
    rw [List.nil_append, blockSource?, if_neg (by simp [hend]), if_neg (by simp [hopen]), if_pos hclose,
      if_pos rfl]
    rfl
  | cons t us ih =>
    have hspelled : Token.spelled (t :: us) ++ close.gap =
        t.gap ++ t.text ++ (Token.spelled us ++ close.gap) := by
      simp only [Token.spelled_cons, List.append_assoc]
    have hstep {d : Nat} (h : depthBehind? d us = some 0) :
        (blockSource? d (us ++ close :: rest)).map (consSource t) =
          some (Token.spelled (t :: us) ++ close.gap, rest) := by
      rw [ih h, hspelled, Option.map_some, consSource]
    unfold depthBehind? at h
    rw [List.cons_append, blockSource?]
    split at h
    · cases h
    · next hend =>
      rw [if_neg hend]
      split at h
      · next hopen =>
        rw [if_pos hopen]
        exact hstep h
      · next hopen =>
        rw [if_neg hopen]
        split at h
        · next hcloser =>
          rw [if_pos hcloser]
          split at h
          · cases h
          · next hdepth =>
            rw [if_neg hdepth]
            exact hstep h
        · next hcloser =>
          rw [if_neg hcloser]
          exact hstep h

/-- Kinds that are the same but for the values of strings open and close the same brackets. -/
theorem isOpener_alike {t' : Token} (h : Alike t.kind t'.kind) :
    t'.isEnd = t.isEnd ∧ t'.isOpener = t.isOpener ∧ t'.closer? = t.closer? := by
  obtain ⟨kind, gap, text, start⟩ := t
  obtain ⟨kind', gap', text', start'⟩ := t'
  obtain rfl | ⟨v, v', rfl, rfl⟩ := h <;> exact ⟨rfl, rfl, rfl⟩

/-- Tokens that are the same but for the values of strings lead to the same depth. -/
theorem depthBehind?_alike (h : List.Forall₂ (fun t t' => Alike t.kind t'.kind) us us') (depth : Nat) :
    depthBehind? depth us' = depthBehind? depth us := by
  induction h generalizing depth with
  | nil => rfl
  | cons halike _ ih =>
    obtain ⟨hend, hopen, hclose⟩ := isOpener_alike halike
    rw [depthBehind?, depthBehind?, hend, hopen, hclose, ih, ih, ih]

/-- Balanced tokens without attribute lists close what is open, and nothing else. -/
theorem depthBehind?_of_balanced {openers : List Token} {e : Token} (he : e.kind = .eof)
    (heof : ∀ t ∈ us, t.kind ≠ .eof) (hattribute : ∀ t ∈ us, t.kind ≠ .attributeOpen)
    (h : balanced openers (us ++ [e]) = .ok ()) : depthBehind? openers.length us = some 0 := by
  induction us generalizing openers with
  | nil =>
    obtain ⟨kind, gap, text, start⟩ := e
    obtain rfl := he
    cases openers with
    | nil => rfl
    | cons o openers => cases h
  | cons t us ih =>
    have hrest {openers : List Token} (h : balanced openers (us ++ [e]) = .ok ()) :
        depthBehind? openers.length us = some 0 :=
      ih (fun t ht => heof t (List.mem_cons_of_mem _ ht))
        (fun t ht => hattribute t (List.mem_cons_of_mem _ ht)) h
    have hlist : (t.kind == .attributeOpen) = false :=
      beq_false_of_ne (hattribute t (List.mem_cons_self ..))
    rw [List.cons_append] at h
    unfold balanced at h
    by_cases htag : (t.kind == .closeTag) = true
    · rw [if_pos htag] at h
      cases h
    have hend : ¬ t.isEnd = true := by
      rw [Token.isEnd, Bool.or_eq_true, not_or]
      exact ⟨by simpa using heof t (List.mem_cons_self ..), htag⟩
    rw [if_neg htag] at h
    rw [depthBehind?, if_neg hend, Token.isOpener, hlist, Bool.or_false]
    by_cases hopen : (t.isPunct '(' || t.isPunct '[' || t.isPunct '{') = true
    · rw [if_pos hopen] at h ⊢
      exact hrest h
    rw [if_neg hopen] at h ⊢
    cases hclose : t.closer? with
    | none =>
      rw [hclose] at h
      exact hrest h
    | some c =>
      rw [hclose] at h
      cases openers with
      | nil => cases h
      | cons o openers =>
        rw [Option.isSome_some, if_pos rfl, List.length_cons, if_neg (Nat.succ_ne_zero _)]
        exact hrest h

/-- White space ahead of the first token of a block is white space at the front of its source. -/
theorem blockSource?_widen (depth : Nat) (b : List Char) (t : Token) (ts : List Token) :
    blockSource? depth ({ t with gap := b ++ t.gap } :: ts) =
      (blockSource? depth (t :: ts)).map fun p => (b ++ p.1, p.2) := by
  have hcons (p : List Char × List Token) : consSource { t with gap := b ++ t.gap } p =
      (b ++ (consSource t p).1, (consSource t p).2) := by
    simp only [consSource, List.append_assoc]
  unfold blockSource?
  rw [show ({ t with gap := b ++ t.gap } : Token).isEnd = t.isEnd from rfl,
    show ({ t with gap := b ++ t.gap } : Token).isOpener = t.isOpener from rfl,
    show ({ t with gap := b ++ t.gap } : Token).closer? = t.closer? from rfl]
  repeat' split
  · rfl
  · rw [Option.map_map]
    exact congrArg (Option.map · _) (funext hcons)
  · rfl
  · rw [Option.map_map]
    exact congrArg (Option.map · _) (funext hcons)
  · rw [Option.map_map]
    exact congrArg (Option.map · _) (funext hcons)

end Reader

/-! ## Heredocs and their labels -/

/-- The label of a heredoc as it stands between the quotes on its first line. -/
def Token.label? (t : Token) : Option (List Char) :=
  if ['<', '<', '<'].isPrefixOf t.text then labelBehind? (t.text.drop 1) else none

/-- A token that is no heredoc whose label ends in white space. -/
def Token.IsTidy (t : Token) : Prop := ∀ label ∈ t.label?, IsSettled label

/-- The label of a heredoc stands in its text. -/
theorem labelBehind?_take {cs : List Char} {kind : TokenKind} {n : Nat}
    (h : scanHeredoc cs = .ok (kind, n)) (hp : ['<', '<'].isPrefixOf cs = true) :
    labelBehind? (cs.take n) = labelBehind? cs := by
  obtain ⟨body, rfl⟩ := List.isPrefixOf_iff_prefix.1 hp
  have htwo (body : List Char) : (['<', '<'] ++ body).drop 2 = body := rfl
  rw [scanHeredoc, htwo] at h
  cases hsplit : splitOnce? ['\n'] body with
  | none =>
    rw [hsplit] at h
    cases h
  | some p =>
    obtain ⟨header, rest⟩ := p
    rw [hsplit] at h
    dsimp only at h
    obtain ⟨rfl, hn⟩ := exists_of_splitOnce? hsplit
    split at h
    · cases h
    · split at h
      · next k hk =>
        obtain ⟨rfl, rfl⟩ := Prod.mk.inj (Except.ok.inj h)
        have hlong : ((['<', '<'] ++ (header ++ '\n' :: rest)).take (2 + header.length + 1 + k)) =
            ['<', '<'] ++ (header ++ '\n' :: rest.take k) := by
          have htext (r : List Char) : ['<', '<'] ++ (header ++ '\n' :: r) =
              ('<' :: '<' :: (header ++ ['\n'])) ++ r := by simp
          have hlength : ('<' :: '<' :: (header ++ ['\n'])).length = 2 + header.length + 1 := by
            simp only [List.length_cons, List.length_append, List.length_nil]
            omega
          rw [htext, htext, ← hlength, List.take_length_add_append]
        rw [hlong, labelBehind?, labelBehind?, htwo, htwo, (splitOnce?_newline hn _).1,
          (splitOnce?_newline hn _).1]
        rfl
      · cases h

/-- The label that a scan finds is that of the token. -/
theorem isSettled_of_tidy {c : Char} {cs : List Char} {kind : TokenKind} {n : Nat} {gap : List Char}
    {start : Nat} (hs : scan c cs = .ok (kind, n))
    (ht : (Token.mk kind gap (c :: cs.take n) start).IsTidy) (hc : c = '<')
    (hp : ['<', '<'].isPrefixOf cs = true) : ∀ label ∈ labelBehind? cs, IsSettled label := by
  subst hc
  have hscan : scanHeredoc cs = .ok (kind, n) := by
    rw [← hs, scan, if_neg (by simp), if_neg (by simp), if_neg (by simp), if_pos ⟨rfl, hp⟩]
  have hlong : 2 ≤ n := two_le_scanHeredoc hscan
  have hfront : ['<', '<', '<'].isPrefixOf ('<' :: cs.take n) = true := by
    have htake : ['<', '<'].isPrefixOf (cs.take n) = true := by
      rw [List.isPrefixOf_iff_prefix] at hp ⊢
      exact List.prefix_take_iff.2 ⟨hp, hlong⟩
    exact htake
  intro label hlabel
  refine ht label ?_
  rw [Token.label?, if_pos hfront, List.drop_one, List.tail_cons, labelBehind?_take hscan hp]
  exact hlabel

/-! ## Tokens in another layout -/

/-- In another layout, a text ahead of a closing brace has the tokens that it has by itself. -/
theorem tokens_reflows {tail f : List Char} {qs : List Part} (ht : EndsLine tail) {e : Nat}
    (he : gapLength tail = .ok e) (htail : tail.drop e = '}' :: f) (hf : Scans f qs)
    {cs ds : List Char} (h : Reflows tail cs ds) {start : Nat} {us : List Token} {last : Token}
    (hts : tokens start cs = .ok (us ++ [last])) (hlast : last.kind = .eof)
    (hclose : ∀ t ∈ us, t.kind ≠ .closeTag) (htidy : ∀ t ∈ us, t.IsTidy) (start' : Nat) :
    ∃ us' close fs, tokens start' ds = .ok (us' ++ close :: fs) ∧ Spells fs qs ∧
      close.kind = .punct '}' ∧ ds = Token.spelled us' ++ close.gap ++ '}' :: f ∧
      List.Forall₂ (fun t t' => Alike t.kind t'.kind) us us' := by
  induction us generalizing cs ds start start' with
  | nil =>
    obtain ⟨g, hg, ⟨hd, -⟩ | ⟨c, rest, kind, n, more, -, hs, -, hcons⟩⟩ := tokens_cases hts
    · obtain ⟨g', hg', ⟨c, rest, -, hd', -⟩ | ⟨-, hd'⟩⟩ := gapLength_reflows ht he h hg
      · rw [hd] at hd'
        cases hd'
      · rw [htail] at hd'
        obtain ⟨fs, hfs, hspell⟩ := hf (start' + byteLength (ds.take g') + byteLength ['}'])
        have hscan : scan '}' f = .ok (.punct '}', 0) := rfl
        refine ⟨[], ⟨.punct '}', ds.take g', ['}'], start' + byteLength (ds.take g')⟩, fs,
          tokens_cons hg' hd' hscan hfs, hspell, rfl, ?_, .nil⟩
        rw [← hd']
        exact (List.take_append_drop g' ds).symm
    · -- the end of the source is no token that is scanned
      obtain ⟨rfl, -⟩ := List.cons.inj hcons
      obtain rfl : kind = .eof := hlast
      exact absurd hs (Proper.scan n)
  | cons t us ih =>
    obtain ⟨g, hg, ⟨-, hend⟩ | ⟨c, rest, kind, n, more, hd, hs, hm, hcons⟩⟩ := tokens_cases hts
    · exact absurd (congrArg List.length hend) (by simp)
    · obtain ⟨g', hg', ⟨c', _, rest', hd₁, hd', hi⟩ | ⟨hnil, -⟩⟩ := gapLength_reflows ht he h hg
      · obtain ⟨rfl, rfl⟩ := List.cons.inj (hd.symm.trans hd₁)
        obtain ⟨rfl, rfl⟩ := List.cons.inj hcons
        have hlabel := isSettled_of_tidy hs (htidy _ (List.mem_cons_self ..))
        obtain ⟨kind', n', hs', halike, hdrop⟩ :=
          scan_reflows ht hi hlabel hs (hclose _ (List.mem_cons_self ..))
        obtain ⟨us', close, fs, hus, hspell, hbrace, hds, hall⟩ := ih hdrop hm
          (fun t ht => hclose t (List.mem_cons_of_mem _ ht))
          (fun t ht => htidy t (List.mem_cons_of_mem _ ht))
          (start' + byteLength (ds.take g') + byteLength (c :: rest'.take n'))
        refine ⟨_ :: us', close, fs, tokens_cons hg' hd' hs' hus, hspell, hbrace, ?_,
          .cons halike hall⟩
        have htext : ds = ds.take g' ++ (c :: rest'.take n') ++ rest'.drop n' := by
          rw [List.append_assoc, List.cons_append, List.take_append_drop, ← hd',
            List.take_append_drop]
        conv => lhs; rw [htext, hds]
        simp only [Token.spelled_cons, List.append_assoc]
      · rw [hnil] at hd
        cases hd

/-- White space at the front of a source stands ahead of its first token. -/
theorem tokens_of_blank_append_concat {b cs : List Char} (hb : b.all isBlank = true) {start : Nat}
    {us : List Token} {e : Token} (h : tokens start (b ++ cs) = .ok (us ++ [e])) :
    ∃ us' e', tokens (start + byteLength b) cs = .ok (us' ++ [e']) ∧ e'.kind = e.kind ∧
      us'.map Token.kind = us.map Token.kind ∧ us'.map Token.text = us.map Token.text := by
  obtain ⟨t, more, hts, hbehind⟩ := tokens_of_blank_append hb h
  cases us with
  | nil =>
    obtain ⟨rfl, rfl⟩ := List.cons.inj hts
    exact ⟨[], t, hbehind, rfl, rfl, rfl⟩
  | cons x us =>
    obtain ⟨rfl, rfl⟩ := List.cons.inj hts
    exact ⟨t :: us, e, hbehind, rfl, rfl, rfl⟩

namespace Body

/-- A fragment whose body can stand between braces. -/
structure Fits (f : List Char) : Prop where
  /-- The fragment is in ASCII and has no carriage returns. -/
  plain : IsPlainText f
  /-- The brackets match, and no label of a heredoc ends in white space. -/
  nested : ∃ us e, tokens 0 f = .ok (us ++ [e]) ∧ e.kind = .eof ∧
    Reader.depthBehind? 0 us = some 0 ∧ ∀ t ∈ us, t.IsTidy

/-- The body of such a fragment. -/
def Enclosable (b : Body) : Prop := ∃ f, Fits f ∧ ofSource f = b

variable {m e : List Char}

/-- A fragment in another layout has the brackets of the fragment, and ends at the brace behind it. -/
theorem Fits.block {cs u : List Char} (h : Fits (u ++ cs)) (hu : u.all isSpace = true)
    {tail ds g : List Char} {qs : List Part} (ht : EndsLine tail) {n : Nat}
    (hn : gapLength tail = .ok n) (htail : tail.drop n = '}' :: g) (hg : Scans g qs)
    (hi : Reflows tail cs ds) (start : Nat) :
    ∃ us close fs, tokens start ds = .ok (us ++ close :: fs) ∧ Spells fs qs ∧
      ds = Token.spelled us ++ close.gap ++ '}' :: g ∧
      ∀ rest, Reader.blockSource? 0 (us ++ close :: rest) =
        some (Token.spelled us ++ close.gap, rest) := by
  obtain ⟨vs, last, hvs, hlast, hdepth, htidy⟩ := h.nested
  obtain ⟨ws, last', hws, hlast', hkinds, htexts⟩ :=
    tokens_of_blank_append_concat (blank_of_spaces hu) hvs
  have hkind {t : Token} (ht : t ∈ ws) : ∃ t' ∈ vs, t'.kind = t.kind :=
    List.mem_map.1 (hkinds ▸ List.mem_map_of_mem ht)
  have htext {t : Token} (ht : t ∈ ws) : ∃ t' ∈ vs, t'.text = t.text :=
    List.mem_map.1 (htexts ▸ List.mem_map_of_mem ht)
  have hclose : ∀ t ∈ ws, t.kind ≠ .closeTag := by
    intro t ht hkindt
    obtain ⟨t', ht', hsame⟩ := hkind ht
    have hnot := Reader.isEnd_of_depth hdepth t' ht'
    rw [Token.isEnd, hsame, hkindt] at hnot
    cases hnot
  have htidy' : ∀ t ∈ ws, t.IsTidy := by
    intro t ht
    obtain ⟨t', ht', hsame⟩ := htext ht
    have := htidy t' ht'
    rwa [Token.IsTidy, Token.label?, hsame] at this
  obtain ⟨us, close, fs, hus, hspell, hbrace, hds, hall⟩ :=
    tokens_reflows ht hn htail hg hi hws (hlast'.trans hlast) hclose htidy' start
  have halike : List.Forall₂ (fun t t' => Alike t.kind t'.kind) vs ws := by
    have hsame : List.Forall₂ Eq (vs.map Token.kind) (ws.map Token.kind) :=
      List.forall₂_eq_eq_eq ▸ hkinds.symm
    rw [List.forall₂_map_left_iff, List.forall₂_map_right_iff] at hsame
    exact hsame.imp fun _ _ h => .inl h.symm
  have hdepth' : Reader.depthBehind? 0 us = some 0 := by
    rw [Reader.depthBehind?_alike hall, Reader.depthBehind?_alike halike]
    exact hdepth
  refine ⟨us, close, fs, hus, hspell, hds, Reader.blockSource?_of_depth hdepth' ?_⟩
  rw [Token.closer?, hbrace]
  rfl

/-- Written in braces, the body of a fragment is a block. -/
theorem Enclosable.lexes {b : Body} (h : b.Enclosable) (hm : IsMargin m) (he : IsMargin e) :
    Lexes ('{' :: '\n' :: (b.lines.flatMap (fun l => written m l ++ ['\n']) ++ (e ++ ['}'])))
      [.block b] Anything := by
  obtain ⟨source, hfits, rfl⟩ := h
  intro f qs _ hf start
  obtain ⟨u, p, cs, ds, rfl, hu, hsplit, hp, hi⟩ := exists_reflows hfits.plain hm (e ++ '}' :: f)
  have hsign : gapLength ('}' :: f) = .ok 0 := gapLength_token rfl rfl
  have he' : ('\n' :: e).all isBlank = true := by
    rw [List.all_cons, he.blank]
    rfl
  have hends : EndsLine ('\n' :: (e ++ '}' :: f)) := fun c hc => (Option.some.inj hc).symm
  obtain ⟨us, close, fs, hus, hspell, hds, hrest⟩ := hfits.block hu hends
    (gapLength_append he' hsign) (List.drop_length_add_append 0) hf hi
    (start + byteLength ['{'] + byteLength p)
  obtain ⟨t, more, hmore, hwide⟩ := tokens_blank_append (blank_of_spaces hp) hus
  obtain ⟨first, others, hinner⟩ := List.exists_cons_of_ne_nil
    (List.append_ne_nil_of_right_ne_nil us (List.cons_ne_nil close []))
  obtain ⟨rfl, rfl⟩ : first = t ∧ others ++ fs = more := by
    have hsame : (us ++ [close]) ++ fs = t :: more := by
      rw [← hmore, List.append_assoc]
      rfl
    rw [hinner] at hsame
    exact List.cons.inj hsame
  have hsource : p ++ (Token.spelled us ++ close.gap) =
      '\n' :: ((ofSource (u ++ cs)).lines.flatMap (fun l => written m l ++ ['\n']) ++ e) := by
    have hall : p ++ (Token.spelled us ++ close.gap) ++ '}' :: f =
        '\n' :: ((ofSource (u ++ cs)).lines.flatMap (fun l => written m l ++ ['\n']) ++ e) ++
          '}' :: f := by
      rw [List.append_assoc, ← hds, ← hsplit, List.cons_append, List.append_assoc]
    exact List.append_cancel_right hall
  have hencloses : Encloses ({ first with gap := p ++ first.gap } :: others)
      (ofSource (u ++ cs)) := by
    refine ⟨p ++ (Token.spelled us ++ close.gap), fun rest => ?_, ?_⟩
    · have := hrest rest
      rw [← List.singleton_append, ← List.append_assoc, hinner] at this
      rw [List.cons_append, Reader.blockSource?_widen, ← List.cons_append]
      exact congrArg (Option.map _) this
    · rw [hsource]
      exact (isNormal_ofSource fun hr => (hfits.plain _ hr).2 rfl).ofSource_written hm he
  have hopen : Lexer.tokens start ('{' :: (p ++ ds)) = .ok (⟨.punct '{', [], ['{'], start⟩ ::
      ({ first with gap := p ++ first.gap } :: (others ++ fs))) :=
    tokens_cons (gapLength_token rfl rfl) rfl (scan_sign rfl _) hwide
  have htext : '{' :: '\n' :: ((ofSource (u ++ cs)).lines.flatMap (fun l => written m l ++ ['\n']) ++
      (e ++ ['}'])) ++ f = '{' :: (p ++ ds) := by
    rw [← hsplit]
    simp
  rw [htext, hopen]
  exact ⟨_, rfl, .block (t := ⟨.punct '{', [], ['{'], start⟩) rfl hencloses rfl hspell⟩

end Body

end PhpGraft

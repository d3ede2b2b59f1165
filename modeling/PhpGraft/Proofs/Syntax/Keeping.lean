import PhpGraft.Proofs.Syntax.Continuing
import PhpGraft.Proofs.Syntax.Laying
import PhpGraft.Proofs.Syntax.Multiline

/-!
# Code in a layout that keeps newlines

In a layout that keeps the newlines in its tokens, source has the tokens that it has, doc comments apart
(`tokens_lays`): each token is found in the line that it starts in, or goes on behind newlines that are
still there. So what is printed in such a layout has the code of the source (`keepsCode_of_lays`).
-/

namespace PhpGraft

open Lexer Text

/-- The tokens of a source that are no doc comments, with their texts. -/
def Token.code (ts : List Token) : List (TokenKind × List Char) :=
  (ts.filter fun t => !Reader.isDoc t).map fun t => (t.kind, t.text)

/-- Doc comments, or else tokens of one kind with one text. -/
def Token.SameCode (t t' : Token) : Prop :=
  (t.kind = .docComment ∧ t'.kind = .docComment) ∨ (t'.kind = t.kind ∧ t'.text = t.text)

/-- Tokens that a layout keeps: none but a doc comment ends in white space or holds a newline that is
not kept. -/
def Token.AreKept (keep : List Char → Prop) (ts : List Token) : Prop :=
  ∀ before t after, ts = before ++ t :: after → t.kind ≠ .docComment →
    (∀ c ∈ t.text.getLast?, isSpace c = false) ∧
      ∀ a b, t.text = a ++ '\n' :: b → keep (b ++ Token.spelled after)

namespace Lexer

variable {keep : List Char → Prop} {tail cs ds : List Char}

/-- A token that a layout keeps is the same in it. -/
theorem scan_lays (ht : EndsLine tail) (h : Lays keep tail cs ds) {c : Char} {kind : TokenKind} {n : Nat}
    (hs : scan c cs = .ok (kind, n)) (hclose : kind ≠ .closeTag)
    (hlast : ∀ x ∈ (c :: cs.take n).getLast?, isSpace x = false)
    (hkeep : ∀ a b, c :: cs.take n = a ++ '\n' :: b → keep (b ++ cs.drop n)) :
    scan c ds = .ok (kind, n) ∧ ds.take n = cs.take n ∧ Reflows tail (cs.drop n) (ds.drop n) := by
  obtain ⟨u, r, s, rfl, rfl, hrs, hcases⟩ := h.exists_shared
  have hn : n ≤ u.length := by
    have hfits := (measured_scan c hs).1
    rw [← List.length_take_of_le hfits]
    refine Lays.le_shared (List.take_append_drop n _).symm (fun x hx => hlast x ?_)
      (fun a b hab => hkeep (c :: a) b (congrArg _ hab)) ?_
    · rw [List.getLast?_cons, Option.mem_def.1 hx]
      rfl
    · exact hcases.imp (fun h => h.1) fun ⟨w, _, r₀, _, hr, _, hw, _, _, hfree⟩ =>
        ⟨w, r₀, hr, hw, hfree⟩
  have hends : Ends s := (Reflows.ends_of_cases ht (hcases.imp id
    fun ⟨w, w', r₀, s₀, hr, hs, hw, hw', hi, _⟩ => ⟨w, w', r₀, s₀, hr, hs, hw, hw', hi⟩)).2
  refine ⟨local_scan c hends hs hn hclose, ?_, hrs.drop_line hn⟩
  rw [List.take_append_of_le_length hn, List.take_append_of_le_length hn]

/-- A doc comment is no heredoc. -/
theorem not_heredoc_of_doc {c : Char} {n : Nat} (hs : scan c cs = .ok (.docComment, n)) (hc : c = '<')
    (hp : ['<', '<'].isPrefixOf cs = true) : False := by
  subst hc
  have hscan : scanHeredoc cs = .ok (.docComment, n) := by
    rw [← hs, scan, if_neg (by simp), if_neg (by simp), if_neg (by simp), if_pos ⟨rfl, hp⟩]
  unfold scanHeredoc at hscan
  dsimp only at hscan
  repeat' split at hscan
  all_goals cases hscan

/-- In a layout that keeps them, the tokens of a source but for doc comments are the same. -/
theorem tokens_lays (ht : EndsLine tail) (hspace : tail.all isSpace = true) {pre pre' : List Char}
    (hl : Lays keep tail (pre ++ cs) (pre' ++ ds)) (h : Reflows tail cs ds) {start : Nat}
    {ts : List Token} (hts : tokens start cs = .ok ts) (hclose : ∀ t ∈ ts, t.kind ≠ .closeTag)
    (hkept : Token.AreKept keep ts) (start' : Nat) :
    ∃ ts', tokens start' ds = .ok ts' ∧ List.Forall₂ Token.SameCode ts ts' := by
  have htail : gapLength tail = .ok tail.length :=
    gapLength_blank (dropWhile_blank (blank_of_spaces hspace))
  induction ts generalizing cs ds pre pre' start start' with
  | nil =>
    obtain ⟨_, -, ⟨-, hnil⟩ | ⟨_, _, _, _, _, -, -, -, hnil⟩⟩ := tokens_cases hts <;> cases hnil
  | cons t ts ih =>
    obtain ⟨g, hg, hcases⟩ := tokens_cases hts
    obtain ⟨g', hg', hbehind⟩ := gapLength_reflows ht htail h hg
    rcases hcases with ⟨hd, hcons⟩ | ⟨c, rest, kind, n, more, hd, hs, hm, hcons⟩
    · obtain ⟨rfl, rfl⟩ := List.cons.inj hcons
      rcases hbehind with ⟨c, _, _, hd₁, -⟩ | ⟨-, hd'⟩
      · exact absurd (hd.symm.trans hd₁) nofun
      · rw [List.drop_length] at hd'
        exact ⟨_, tokens_end hg' hd', .cons (.inr ⟨rfl, rfl⟩) .nil⟩
    obtain ⟨rfl, rfl⟩ := List.cons.inj hcons
    rcases hbehind with ⟨_, _, rest', hd₁, hd', hi⟩ | ⟨hnil, -⟩
    swap
    · exact absurd (hd.symm.trans hnil) nofun
    obtain ⟨rfl, rfl⟩ := List.cons.inj (hd.symm.trans hd₁)
    -- the layout goes on behind the first character of the token
    have hfirst : isSpace c = false := Bool.eq_false_iff.2 fun hc => by
      have hblank := isBlank_of_gapLength hg hd
      rw [isBlank_of_isSpace hc] at hblank
      cases hblank
    have hsplit (l : List Char) {cs rest : List Char} {g : Nat} (hd : cs.drop g = c :: rest) :
        l ++ cs = (l ++ cs.take g) ++ c :: rest := by
      rw [← hd, List.append_assoc, List.take_append_drop]
    rw [hsplit pre hd, hsplit pre' hd'] at hl
    have hrest : Lays keep tail rest rest' := hl.behind_of_reflows hspace hi hfirst hfirst
    have hkept' : Token.AreKept keep ts := fun before t after hts =>
      hkept (_ :: before) t after (congrArg _ hts)
    obtain ⟨n', hs', hsame, hdrop⟩ : ∃ n', scan c rest' = .ok (kind, n') ∧
        (kind = .docComment ∨ rest'.take n' = rest.take n) ∧
        Reflows tail (rest.drop n) (rest'.drop n') := by
      by_cases hdoc : kind = .docComment
      · subst hdoc
        obtain ⟨kind', n', hs', halike, hdrop⟩ := scan_reflows ht hi
          (fun hc hp => (not_heredoc_of_doc hs hc hp).elim) hs nofun
        obtain rfl : kind' = .docComment := halike.elim id fun ⟨_, _, hstring, _⟩ => nomatch hstring
        exact ⟨n', hs', .inl rfl, hdrop⟩
      · obtain ⟨hlast, hnewlines⟩ := hkept [] _ ts rfl hdoc
        rw [spelled_tokens hm] at hnewlines
        obtain ⟨hs', htake, hdrop⟩ :=
          scan_lays ht hrest hs (hclose _ (List.mem_cons_self ..)) hlast hnewlines
        exact ⟨n, hs', .inr htake, hdrop⟩
    rw [← List.take_append_drop n rest, ← List.take_append_drop n' rest'] at hrest
    obtain ⟨ts', hts', hall⟩ := ih hrest hdrop hm (fun t ht => hclose t (List.mem_cons_of_mem _ ht))
      hkept' (start' + byteLength (ds.take g') + byteLength (c :: rest'.take n'))
    refine ⟨_, tokens_cons hg' hd' hs' hts', .cons ?_ hall⟩
    exact hsame.imp (fun hdoc => ⟨hdoc, hdoc⟩) fun htake => ⟨rfl, congrArg (c :: ·) htake⟩

/-- Tokens are the same ones wherever the source starts. -/
theorem tokens_start {start : Nat} {ts : List Token} (h : tokens start cs = .ok ts) (start' : Nat) :
    ∃ ts', tokens start' cs = .ok ts' ∧ List.Forall₂ Token.Same ts ts' := by
  induction ts generalizing cs start start' with
  | nil =>
    obtain ⟨_, -, ⟨-, hnil⟩ | ⟨_, _, _, _, _, -, -, -, hnil⟩⟩ := tokens_cases h <;> cases hnil
  | cons t ts ih =>
    obtain ⟨g, hg, ⟨hd, hcons⟩ | ⟨c, rest, kind, n, more, hd, hs, hm, hcons⟩⟩ := tokens_cases h
    · obtain ⟨rfl, rfl⟩ := List.cons.inj hcons
      exact ⟨_, tokens_end hg hd, .cons ⟨rfl, rfl, rfl⟩ .nil⟩
    · obtain ⟨rfl, rfl⟩ := List.cons.inj hcons
      obtain ⟨ts', hts', hsame⟩ := ih hm (start' + byteLength (cs.take g) + byteLength (c :: rest.take n))
      exact ⟨_, tokens_cons hg hd hs hts', .cons ⟨rfl, rfl, rfl⟩ hsame⟩

end Lexer

/-! ## Code -/

/-- A doc comment is no code, and any other token is. -/
theorem Token.code_cons (t : Token) (ts : List Token) : Token.code (t :: ts) =
    if t.kind = .docComment then Token.code ts else (t.kind, t.text) :: Token.code ts := by
  by_cases hdoc : t.kind = .docComment
  · rw [if_pos hdoc, Token.code, List.filter_cons_of_neg (by simp [Reader.isDoc, hdoc]), Token.code]
  · rw [if_neg hdoc, Token.code, List.filter_cons_of_pos (by simp [Reader.isDoc, hdoc])]
    rfl

/-- The gap of a token is no code. -/
theorem Token.code_gap (t : Token) (gap : List Char) (ts : List Token) :
    Token.code ({ t with gap := gap } :: ts) = Token.code (t :: ts) := by
  rw [code_cons, code_cons]

/-- Tokens that are the same but for doc comments have the same code. -/
theorem Token.code_eq {ts ts' : List Token} (h : List.Forall₂ Token.SameCode ts ts') :
    Token.code ts' = Token.code ts := by
  induction h with
  | nil => rfl
  | cons hsame _ ih =>
    rw [code_cons, code_cons]
    rcases hsame with ⟨hdoc, hdoc'⟩ | ⟨hkind, htext⟩
    · rw [if_pos hdoc, if_pos hdoc', ih]
    · rw [hkind, htext, ih]

/-- Source of which the tokens, doc comments apart, are found again in what is printed for it. -/
def KeepsCode (source printed : List Char) : Prop :=
  ∃ ts ts', tokens 0 source = .ok ts ∧ tokens 0 printed = .ok ts' ∧ Token.code ts' = Token.code ts

/-- Tokens that but for doc comments do not end in white space, and have no newlines but those that are
kept. The newlines that are kept are told by what stands ahead of them. -/
def Token.AreFirm (kept : List Char → Prop) (ts : List Token) : Prop :=
  ∀ i t, ts[i]? = some t → t.kind ≠ .docComment →
    (∀ c ∈ t.text.getLast?, isSpace c = false) ∧
      ∀ j, t.text[j]? = some '\n' → kept (Token.spelled (ts.take i) ++ (t.gap ++ t.text.take j))

/-- Source that has such tokens if it has any. -/
def IsFirm (kept : List Char → Prop) (source : List Char) : Prop :=
  ∀ ts, tokens 0 source = .ok ts → Token.AreFirm kept ts

/-- Whether source has such tokens is to be seen at each of its tokens and their characters. -/
theorem isFirm_of_tokens {kept : List Char → Prop} {source : List Char} {ts : List Token}
    (hts : tokens 0 source = .ok ts)
    (h : ∀ i < ts.length, ∀ t ∈ ts[i]?, t.kind ≠ .docComment →
      (∀ c ∈ t.text.getLast?, isSpace c = false) ∧ ∀ j < t.text.length, t.text[j]? = some '\n' →
        kept (Token.spelled (ts.take i) ++ (t.gap ++ t.text.take j))) : IsFirm kept source := by
  intro ts' hts' i t ht hdoc
  obtain rfl := Except.ok.inj (hts.symm.trans hts')
  obtain ⟨hlast, hnewlines⟩ := h i (List.getElem?_eq_some_iff.1 ht).1 t ht hdoc
  exact ⟨hlast, fun j hj => hnewlines j (List.getElem?_eq_some_iff.1 hj).1 hj⟩

variable {f g u cs p ds : List Char}

/-- What is printed in a layout that keeps the newlines in its tokens has the code of the source. -/
theorem keepsCode_of_lays {kept : List Char → Prop} {ts : List Token} (hts : tokens 0 f = .ok ts)
    (hclose : ∀ t ∈ ts, t.kind ≠ .closeTag) (hfirm : IsFirm kept f) (hf : f = u ++ cs)
    (hu : u.all isSpace = true) (hg : '\n' :: g = p ++ ds) (hp : p.all isSpace = true)
    (hl : Lays (fun r => ∃ front, f = front ++ '\n' :: r ∧ kept front) ['\n'] cs ds) :
    KeepsCode f g := by
  obtain ⟨t, more, rfl, hbehind⟩ := tokens_of_blank_append (blank_of_spaces hu) (hf ▸ hts)
  have hkept : Token.AreKept (fun r => ∃ front, f = front ++ '\n' :: r ∧ kept front) (t :: more) := by
    intro before t' after hsplit hdoc
    -- the gap of the first token is what the two lists of tokens differ in
    obtain ⟨before', t₁, hsplit', hkind, htext⟩ : ∃ before' t₁,
        ({ t with gap := u ++ t.gap } : Token) :: more = before' ++ t₁ :: after ∧ t₁.kind = t'.kind ∧
          t₁.text = t'.text := by
      cases before with
      | nil =>
        obtain ⟨rfl, rfl⟩ := List.cons.inj hsplit
        exact ⟨[], _, rfl, rfl, rfl⟩
      | cons t₂ before =>
        obtain ⟨rfl, rfl⟩ := List.cons.inj hsplit
        exact ⟨_ :: before, t', rfl, rfl, rfl⟩
    obtain ⟨hlast, hnewline⟩ := hfirm _ hts before'.length t₁ (by rw [hsplit']; simp) (by rwa [hkind])
    rw [hsplit', List.take_left, htext] at hnewline
    refine ⟨htext ▸ hlast, fun a b hab => ⟨Token.spelled before' ++ (t₁.gap ++ a), ?_, ?_⟩⟩
    · rw [← spelled_tokens hts, hsplit', Token.spelled, List.flatMap_append, List.flatMap_cons, htext, hab]
      simp only [Token.spelled, List.append_assoc, List.cons_append]
    · have hkeeps := hnewline a.length (by rw [hab]; simp)
      rwa [hab, List.take_left] at hkeeps
  have hends : EndsLine ['\n'] := fun c hc => (Option.some.inj hc).symm
  obtain ⟨ts', hts', hsame⟩ := @tokens_lays _ _ _ _ hends rfl [] [] hl hl.reflows _ _ hbehind
    (List.forall_mem_cons.2 (List.forall_mem_cons.1 hclose)) hkept (0 + byteLength p)
  obtain ⟨t₁, more₁, rfl, hwhole⟩ := tokens_blank_append (blank_of_spaces hp) hts'
  rw [← hg] at hwhole
  obtain ⟨t₂, more₂, hcons, hprinted⟩ := tokens_of_blank_append (b := ['\n']) rfl hwhole
  obtain ⟨ts₃, hts₃, hsame₃⟩ := tokens_start hprinted 0
  refine ⟨_, ts₃, hts, hts₃, ?_⟩
  calc Token.code ts₃
    _ = Token.code (t₂ :: more₂) := Token.code_eq (hsame₃.imp fun _ _ h => .inr ⟨h.1, h.2.2⟩)
    _ = Token.code (t₁ :: more₁) := by rw [← Token.code_gap t₂, ← hcons, Token.code_gap]
    _ = Token.code (t :: more) := Token.code_eq hsame
    _ = _ := (Token.code_gap t _ more).symm

end PhpGraft

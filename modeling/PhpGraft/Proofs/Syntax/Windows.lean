import PhpGraft.Proofs.Syntax.Counting
import PhpGraft.Proofs.Syntax.Echoing
import PhpGraft.Proofs.Syntax.Leaving

/-!
# Members wherever they stand

A member of a known form is read by its own tokens alone. In two lists that start with the tokens of the
member and differ only behind them, or in where the tokens stand, the same member is read
(`knownMember_window`). A member that is kept as source text is cut off in both as long as what is behind
it does not continue it (`member_window`).
-/

namespace PhpGraft

/-! ## Tokens at another place -/

/-- Tokens that differ only in where they start are of the same kind and text. -/
theorem Token.Same.echoes {t t' : Token} (h : t.Same t') : t.Echoes t' := ⟨h.1, h.2.2⟩

/-- Whether a token can end a member. -/
def Token.isStop (t : Token) : Bool := t.isPunct ';' || t.closer?.isSome

/-- Whether a token can end a member depends on its kind. -/
theorem Token.isStop_of_kind {t : Token} {kind : TokenKind} (ht : (t.kind == kind) = true)
    (hkind : (Token.mk kind [] [] 0).isStop = false) : t.isStop = false := by
  rw [← hkind, isStop, isStop, isPunct, isPunct, closer?, closer?, eq_of_beq ht]

/-- A link ends nothing. -/
theorem Reader.isStop_of_isLink {t : Token} (h : isLink t = true) : t.isStop = false := by
  obtain ⟨kind, gap, text, start⟩ := t
  cases kind with
  | punct c =>
    have hsign : (c == '?' || c == '&' || c == '|' || c == ',' || c == ':') = true := h
    simp only [Bool.or_eq_true, beq_iff_eq] at hsign
    obtain (((rfl | rfl) | rfl) | rfl) | rfl := hsign <;> rfl
  | _ => rfl

/-- The source of tokens that differ only in where they start is the same. -/
theorem Token.span_same {ts ts' : List Token} (h : List.Forall₂ Same ts ts') : span ts' = span ts := by
  cases h with
  | nil => rfl
  | cons ht hts => rw [span, span, ht.2.2, Lexer.spelled_same hts]

/-- Tokens that differ only in where they start, and in the gap ahead of the first one. -/
structure Token.Alike (ts ts' : List Token) : Prop where
  /-- The kinds and the texts are the same. -/
  echoing : List.Forall₂ Echoes ts ts'
  /-- The gaps behind the first token are the same. -/
  same : List.Forall₂ Same ts.tail ts'.tail

namespace Token.Alike

variable {ts ts' us us' : List Token} {t t' : Token}

/-- Tokens that differ only in where they start. -/
theorem of_same (h : List.Forall₂ Same ts ts') : Alike ts ts' where
  echoing := h.imp fun _ _ => Same.echoes
  same := by
    cases h with
    | nil => exact .nil
    | cons _ hus => exact hus

/-- Tokens that differ from nothing. -/
theorem refl (ts : List Token) : Alike ts ts :=
  of_same (List.forall₂_same.2 fun _ _ => ⟨rfl, rfl, rfl⟩)

/-- Either list differs from the other one in the same way. -/
theorem symm (h : Alike ts ts') : Alike ts' ts where
  echoing := (h.echoing.imp fun _ _ he => he.symm).flip
  same := (h.same.imp fun _ _ he => ⟨he.1.symm, he.2.1.symm, he.2.2.symm⟩).flip

/-- The source of the tokens is the same. -/
theorem span_eq (h : Alike ts ts') : span ts' = span ts := by
  obtain ⟨hecho, hsame⟩ := h
  cases hecho with
  | nil => rfl
  | @cons t t' us us' ht _ =>
    have hus : List.Forall₂ Same us us' := hsame
    rw [span, span, ht.text, Lexer.spelled_same hus]

/-- Each token is of the same kind and text as one that it differs from. -/
theorem exists_mem (h : Alike ts ts') (ht : t ∈ ts) : ∃ u ∈ ts', t.Echoes u := by
  obtain ⟨hecho, -⟩ := h
  induction hecho with
  | nil => cases ht
  | @cons v v' vs vs' hv _ ih =>
    cases ht with
    | head => exact ⟨v', List.mem_cons_self .., hv⟩
    | tail _ ht =>
      obtain ⟨u, hu, he⟩ := ih ht
      exact ⟨u, List.mem_cons_of_mem _ hu, he⟩

/-- Tokens are cut in two like those that they differ from. -/
theorem exists_append (h : Alike (ts ++ us) ts') :
    ∃ vs vs', ts' = vs ++ vs' ∧ Alike ts vs ∧ Alike us vs' := by
  obtain ⟨hecho, hsame⟩ := h
  cases ts with
  | nil => exact ⟨[], ts', rfl, .refl [], hecho, hsame⟩
  | cons t ts =>
    obtain ⟨t', us', ht, -, rfl⟩ := List.forall₂_cons_left_iff.1 hecho
    rw [List.cons_append, List.tail_cons, List.tail_cons] at hsame
    have hfront := List.forall₂_take ts.length hsame
    have hback := List.forall₂_drop ts.length hsame
    rw [List.take_left] at hfront
    rw [List.drop_left] at hback
    refine ⟨t' :: us'.take ts.length, us'.drop ts.length, ?_, ⟨.cons ht ?_, hfront⟩, of_same hback⟩
    · rw [List.cons_append, List.take_append_drop]
    · exact hfront.imp fun _ _ => Same.echoes

end Token.Alike

namespace Reader

variable {α β : Type} {X Y : List Token}

/-! ## Counting brackets in two lists -/

/-- An argument of an attribute is the source of its tokens. -/
theorem consArgument_same {ts ts' : List Token} (h : List.Forall₂ Token.Same ts ts') :
    consArgument ts' = consArgument ts := by
  funext args
  rw [consArgument, consArgument, Token.span_same h]
  cases h <;> rfl

/-- Reading the source between braces takes the closing one. -/
theorem advances_blockSource? (depth : Nat) : Advances (blockSource? depth) := by
  intro ts source rest h
  cases ts with
  | nil => cases h
  | cons t ts =>
    obtain ⟨-, -, -, rfl⟩ | ⟨-, -, more, hmore, -⟩ := blockSource?_cases h
    · exact Nat.lt_succ_self _
    · exact Nat.lt_succ_of_le (neverGrows_blockSource? _ hmore)

section Loops

variable {Q Q' : List Token} (hQ : List.Forall₂ Token.Same Q Q')
include hQ

/-- The arguments of an attribute end in both lists at the same token, unless they go on behind. -/
theorem attributeArgs?_same {taken taken' rest : List Token} {depth : Nat} {args : List String}
    (htaken : List.Forall₂ Token.Same taken taken')
    (h : attributeArgs? taken depth (Q ++ X) = some (args, rest)) :
    rest.length ≤ X.length ∨ ∃ D D', D <:+ Q ∧ D ≠ [] ∧ List.Forall₂ Token.Same D D' ∧ rest = D ++ X ∧
      attributeArgs? taken' depth (Q' ++ Y) = some (args, D' ++ Y) := by
  induction hQ generalizing taken taken' depth args with
  | nil => exact .inl (neverGrows_attributeArgs? _ _ h)
  | @cons t t' Q Q' ht hQ ih =>
    have he := ht.echoes
    have hclose : t'.isPunct ')' = t.isPunct ')' := blind_isPunct ')' he
    have hcomma : t'.isPunct ',' = t.isPunct ',' := blind_isPunct ',' he
    have hargument := consArgument_same (List.forall₂_reverse_iff.2 htaken)
    obtain ⟨rfl, hlast, rfl, rfl⟩ | ⟨rfl, hnext, more, hmore, rfl⟩ | ⟨hend, hno, hmore⟩ :=
      attributeArgs?_cases h
    · cases hQ with
      | nil => exact .inl (Nat.le_refl _)
      | cons hu hQ =>
        refine .inr ⟨_, _, List.suffix_cons t _, List.cons_ne_nil _ _, .cons hu hQ, rfl, ?_⟩
        rw [← hargument]
        exact attributeArgs?_close (hclose.trans hlast)
    · obtain hfew | ⟨D, D', hD, hne, hsame, hrest, hread⟩ := ih .nil hmore
      · exact .inl hfew
      · refine .inr ⟨D, D', hD.trans (List.suffix_cons t Q), hne, hsame, hrest, ?_⟩
        rw [← hargument]
        exact attributeArgs?_comma (hcomma.trans hnext) hread
    · obtain hfew | ⟨D, D', hD, hne, hsame, hrest, hread⟩ := ih (.cons ht htaken) hmore
      · exact .inl hfew
      · refine .inr ⟨D, D', hD.trans (List.suffix_cons t Q), hne, hsame, hrest, ?_⟩
        rw [← blind_depthAfter depth he] at hread
        rw [List.cons_append, attributeArgs?_more ((blind_isEnd he).trans hend) (hclose ▸ hcomma ▸ hno)]
        exact hread

/-- A value ends in both lists at the same token, unless it goes on behind. -/
theorem expressionSpan?_same {stop : Char → Bool} {depth : Nat} {taken rest : List Token}
    (h : expressionSpan? stop depth (Q ++ X) = some (taken, rest)) :
    rest.length ≤ X.length ∨ ∃ taken' D D', D <:+ Q ∧ D ≠ [] ∧ List.Forall₂ Token.Same D D' ∧
      List.Forall₂ Token.Same taken taken' ∧ rest = D ++ X ∧
      expressionSpan? stop depth (Q' ++ Y) = some (taken', D' ++ Y) := by
  induction hQ generalizing depth taken with
  | nil =>
    have := congrArg List.length (append_of_expressionSpan? h)
    rw [List.length_append] at this
    exact .inl (by rw [List.nil_append] at this; omega)
  | @cons t t' Q Q' ht hQ ih =>
    have he := ht.echoes
    obtain ⟨hend, ⟨rfl, hhere, rfl, rfl⟩ | ⟨hno, more, hmore, rfl⟩⟩ := expressionSpan?_cases h
    · refine .inr ⟨[], t :: Q, t' :: Q', List.suffix_rfl, List.cons_ne_nil _ _, .cons ht hQ, .nil, rfl, ?_⟩
      rw [← blind_isPunctWhere stop he, ← blind_closer? he] at hhere
      exact expressionSpan?_here ((blind_isEnd he).trans hend) hhere
    · obtain hfew | ⟨taken', D, D', hD, hne, hsame, htaken, hrest, hread⟩ := ih hmore
      · exact .inl hfew
      · refine .inr ⟨t' :: taken', D, D', hD.trans (List.suffix_cons t Q), hne, hsame, .cons ht htaken, hrest, ?_⟩
        rw [← blind_isPunctWhere stop he, ← blind_closer? he] at hno
        rw [← blind_depthAfter depth he] at hread
        rw [List.cons_append, expressionSpan?_more ((blind_isEnd he).trans hend) hno, hread]
        rfl

/-- The source between braces ends in both lists at the same token, unless it goes on behind. -/
theorem blockSource?_same {depth : Nat} {source : List Char} {rest : List Token}
    (h : blockSource? depth (Q ++ X) = some (source, rest)) :
    rest.length < X.length ∨ ∃ D D', List.Forall₂ Token.Same D D' ∧ rest = D ++ X ∧
      blockSource? depth (Q' ++ Y) = some (source, D' ++ Y) := by
  induction hQ generalizing depth source with
  | nil => exact .inl (advances_blockSource? depth h)
  | @cons t t' Q Q' ht hQ ih =>
    have he := ht.echoes
    obtain ⟨rfl, hclose, rfl, rfl⟩ | ⟨hend, hno, more, hmore, rfl⟩ := blockSource?_cases h
    · refine .inr ⟨Q, Q', hQ, rfl, ?_⟩
      rw [← blind_closer? he] at hclose
      rw [← ht.2.1]
      exact blockSource?_close hclose
    · obtain hfew | ⟨D, D', hsame, hrest, hread⟩ := ih hmore
      · exact .inl hfew
      · refine .inr ⟨D, D', hsame, hrest, ?_⟩
        rw [← blind_closer? he] at hno
        rw [← blind_depthAfter depth he] at hread
        rw [List.cons_append, blockSource?_more ((blind_isEnd he).trans hend) hno, hread, ← ht.2.1,
          ← ht.2.2]
        rfl

end Loops

/-! ## Windows -/

/-- Two lists of tokens that differ only in where they start and in the first gap, that hold no doc
comment and end with a token that can end a member. -/
structure Window (Q Q' : List Token) : Prop where
  /-- The lists differ only in where the tokens start and in the first gap. -/
  alike : Token.Alike Q Q'
  /-- There is no doc comment. -/
  noDoc : ∀ t ∈ Q, t.kind ≠ .docComment
  /-- The last token can end a member. -/
  last : ∃ t ∈ Q.getLast?, t.isStop = true

namespace Window

variable {Q Q' D D' : List Token} {t t' : Token}

/-- A window is not empty. -/
theorem exists_cons (h : Window Q Q') : ∃ t us t' us', Q = t :: us ∧ Q' = t' :: us' ∧ t.Echoes t' ∧
    t.kind ≠ .docComment ∧ List.Forall₂ Token.Same us us' := by
  obtain ⟨⟨hecho, hsame⟩, hdoc, e, he, -⟩ := h
  cases hecho with
  | nil => cases he
  | cons ht _ => exact ⟨_, _, _, _, rfl, rfl, ht, hdoc _ (List.mem_cons_self ..), hsame⟩

/-- What is left of a window is one. -/
theorem of_suffix (h : Window Q Q') (hD : D <:+ Q) (hne : D ≠ []) (hsame : List.Forall₂ Token.Same D D') :
    Window D D' where
  alike := .of_same hsame
  noDoc t ht := h.noDoc t (hD.mem ht)
  last := by
    obtain ⟨front, rfl⟩ := hD
    obtain ⟨e, he, hstop⟩ := h.last
    rw [List.getLast?_append_of_ne_nil _ hne] at he
    exact ⟨e, he, hstop⟩

/-- A window goes on behind a token that ends nothing. -/
theorem tail (h : Window (t :: Q) (t' :: Q')) (ht : t.isStop = false) : Window Q Q' := by
  refine h.of_suffix (List.suffix_cons t Q) ?_ h.alike.same
  rintro rfl
  obtain ⟨e, he, hstop⟩ := h.last
  obtain rfl : t = e := Option.some.inj he
  rw [ht] at hstop
  cases hstop

end Window

/-- Two lists that start with a window. -/
def InWindow (X Y ts ts' : List Token) : Prop := ∃ Q Q', Window Q Q' ∧ ts = Q ++ X ∧ ts' = Q' ++ Y

/-- Two lists that start with tokens that differ only in where they start. -/
def BehindWindow (X Y ts ts' : List Token) : Prop :=
  ∃ D D', List.Forall₂ Token.Same D D' ∧ ts = D ++ X ∧ ts' = D' ++ Y

/-- Behind the first token of a window is what is left of it. -/
theorem exists_of_after {p : Token → Bool} {us us' : List Token} (h : After (InWindow X Y) p us us') :
    ∃ t t' Q Q', Window (t :: Q) (t' :: Q') ∧ p t = true ∧ us = Q ++ X ∧ us' = Q' ++ Y := by
  obtain ⟨t, t', ⟨Q, Q', hQ, hts, hts'⟩, ht⟩ := h
  obtain ⟨v, vs, v', vs', rfl, rfl, -, -, -⟩ := hQ.exists_cons
  obtain ⟨rfl, rfl⟩ := List.cons.inj hts
  obtain ⟨rfl, rfl⟩ := List.cons.inj hts'
  exact ⟨t, t', vs, vs', hQ, ht, rfl, rfl⟩

/-- An expression is made of the tokens that are cut off for it. -/
theorem exists_of_expression {stop : Char → Bool} {ts rest : List Token} {e : Expr}
    (h : expression stop ts = some (e, rest)) :
    ∃ taken, taken ≠ [] ∧ expressionSpan? stop 0 (skipDocs ts) = some (taken, rest) ∧
      e = (literal? taken).getD (.raw (String.ofList (Token.span taken))) := by
  unfold expression at h
  split at h
  · cases h
  · cases h
  · next taken last hne hspan =>
    obtain ⟨rfl, rfl⟩ := Prod.mk.inj (Option.some.inj h)
    exact ⟨taken, hne, hspan, rfl⟩

/-- The tokens that are cut off are made an expression of. -/
theorem expression_of_span {stop : Char → Bool} {ts taken rest : List Token} (hne : taken ≠ [])
    (h : expressionSpan? stop 0 (skipDocs ts) = some (taken, rest)) :
    expression stop ts =
      some ((literal? taken).getD (.raw (String.ofList (Token.span taken))), rest) := by
  cases taken with
  | nil => exact absurd rfl hne
  | cons t ts => rw [expression, h]

/-- The arguments of an attribute agree inside a window. -/
theorem agrees_arguments {p : Token → Bool} :
    Agrees X.length (X.length + 1) (After (InWindow X Y) p) (InWindow X Y) (attributeArgs? [] 0) where
  shrinks _ _ _ hts h := Nat.lt_succ_of_le (Nat.le_trans (neverGrows_attributeArgs? _ _ h) hts)
  agrees us us' args rest h hread := by
    obtain ⟨t, t', Q, Q', hQ, -, rfl, rfl⟩ := exists_of_after h
    have hsame : List.Forall₂ Token.Same Q Q' := hQ.alike.same
    refine (attributeArgs?_same (Y := Y) hsame .nil hread).imp Nat.lt_succ_of_le ?_
    rintro ⟨D, D', hD, hne, hD', rfl, hread'⟩
    exact ⟨D' ++ Y, hread', D, D', hQ.of_suffix (hD.trans (List.suffix_cons t Q)) hne hD', rfl, rfl⟩

/-- Values agree inside a window. -/
theorem agrees_value {p : Token → Bool} (stop : Char → Bool) :
    Agrees X.length (X.length + 1) (After (InWindow X Y) p) (InWindow X Y) (expression stop) where
  shrinks _ _ _ hts h := Nat.lt_succ_of_lt (Nat.lt_of_lt_of_le (advances_expression stop h) hts)
  agrees us us' e rest h hread := by
    obtain ⟨t, t', Q, Q', hQ, -, rfl, rfl⟩ := exists_of_after h
    have hsame : List.Forall₂ Token.Same Q Q' := hQ.alike.same
    cases hsame with
    | nil => exact .inl (Nat.lt_succ_of_lt (advances_expression stop hread))
    | @cons u u' Q Q' hu hsame =>
      have hdoc : u.kind ≠ .docComment := hQ.noDoc u (by simp)
      have hskip : skipDocs (u :: Q ++ X) = u :: Q ++ X := List.dropWhile_cons_of_neg (by simp [isDoc, hdoc])
      have hskip' : skipDocs (u' :: Q' ++ Y) = u' :: Q' ++ Y :=
        List.dropWhile_cons_of_neg (by simp [isDoc, hu.1, hdoc])
      obtain ⟨taken, hne, hspan, rfl⟩ := exists_of_expression hread
      rw [hskip] at hspan
      -- the same tokens are cut off, so they are the same literal or have the same source
      refine (expressionSpan?_same (Y := Y) (.cons hu hsame) hspan).imp Nat.lt_succ_of_le ?_
      rintro ⟨taken', D, D', hD, hne', hD', htaken, rfl, hspan'⟩
      refine ⟨D' ++ Y, ?_, D, D', hQ.of_suffix (hD.trans (List.suffix_cons t _)) hne' hD', rfl, rfl⟩
      rw [← hskip'] at hspan'
      have hne' : taken' ≠ [] := by
        rintro rfl
        cases htaken
        exact hne rfl
      rw [expression_of_span hne' hspan', Token.span_same htaken,
        literal?_echoing (htaken.imp fun _ _ => Token.Same.echoes)]

/-- The source between braces agrees inside a window. -/
theorem agrees_block {p : Token → Bool} :
    Agrees X.length X.length (After (InWindow X Y) p) (BehindWindow X Y) (blockSource? 0) where
  shrinks _ _ _ hts h := Nat.lt_of_lt_of_le (advances_blockSource? 0 h) hts
  agrees us us' source rest h hread := by
    obtain ⟨t, t', Q, Q', hQ, -, rfl, rfl⟩ := exists_of_after h
    have hsame : List.Forall₂ Token.Same Q Q' := hQ.alike.same
    refine (blockSource?_same (Y := Y) hsame hread).imp id ?_
    rintro ⟨D, D', hD, rfl, hread'⟩
    exact ⟨D' ++ Y, hread', D, D', hD, rfl, rfl⟩

/-- Inside a window lists pair up, whatever brackets are open. -/
theorem pairing_window (X Y : List Token) :
    Pairing X.length (fun _ => InWindow X Y) (BehindWindow X Y) where
  head _ ts ts' h := by
    obtain ⟨Q, Q', hQ, rfl, rfl⟩ := h
    obtain ⟨t, us, t', us', rfl, rfl, he, hdoc, -⟩ := hQ.exists_cons
    exact ⟨t, us ++ X, t', us' ++ Y, rfl, rfl, he, hdoc⟩
  link _ us us' h := by
    obtain ⟨t, t', Q, Q', hQ, ht, rfl, rfl⟩ := exists_of_after h
    exact ⟨Q, Q', hQ.tail (isStop_of_isLink ht), rfl, rfl⟩
  list _ us us' h := by
    obtain ⟨t, t', Q, Q', hQ, ht, rfl, rfl⟩ := exists_of_after h
    exact ⟨Q, Q', hQ.tail (Token.isStop_of_kind ht rfl), rfl, rfl⟩
  paren _ us us' h := by
    obtain ⟨t, t', Q, Q', hQ, ht, rfl, rfl⟩ := exists_of_after h
    exact ⟨Q, Q', hQ.tail (Token.isStop_of_kind ht rfl), rfl, rfl⟩
  close c _ us us' _ h := by
    obtain ⟨t, t', Q, Q', hQ, -, rfl, rfl⟩ := exists_of_after h
    by_cases hne : Q = []
    · subst hne
      exact .inl (Nat.le_refl _)
    · exact .inr ⟨Q, Q', hQ.of_suffix (List.suffix_cons t Q) hne hQ.alike.same, rfl, rfl⟩
  arguments _ := agrees_arguments
  value _ stop _ := agrees_value stop
  block := agrees_block
  finish us us' h := by
    obtain ⟨t, t', Q, Q', hQ, -, rfl, rfl⟩ := exists_of_after h
    exact .inr ⟨Q, Q', hQ.alike.same, rfl, rfl⟩

/-! ## The last token of a member -/

/-- A reader that takes tokens from the front, the last of which can end a member. -/
def Stops (r : Reader α) : Prop :=
  ∀ ⦃ts x rest⦄, r ts = some (x, rest) → ∃ front e, ts = front ++ e :: rest ∧ e.isStop = true

namespace Stops

variable {r s : Reader α} {f : α → Reader β}

/-- The second of two readers takes the last token. -/
theorem bind (hr : Leaves r) (hf : ∀ x, Stops (f x)) : Stops (r >>= f) := by
  intro ts y rest h
  obtain ⟨x, mid, h₁, h₂⟩ := bind_eq_some h
  obtain ⟨taken, rfl, -⟩ := hr h₁
  obtain ⟨front, e, rfl, he⟩ := hf x h₂
  exact ⟨taken ++ front, e, (List.append_assoc ..).symm, he⟩

/-- Changing an answer takes no token. -/
theorem map (hr : Stops r) (g : α → β) : Stops (r >>= fun x => Pure.pure (g x)) := by
  intro ts y rest h
  obtain ⟨x, mid, h₁, h₂⟩ := bind_eq_some h
  obtain ⟨-, rfl⟩ := Prod.mk.inj (Option.some.inj h₂)
  exact hr h₁

/-- Either of two readers takes the last token. -/
theorem ite {p : Prop} [Decidable p] (hr : Stops r) (hs : Stops s) : Stops (if p then r else s) := by
  split
  · exact hr
  · exact hs

/-- A reader that always fails. -/
theorem failure : Stops (Alternative.failure : Reader α) := nofun

end Stops

/-- The next token stands behind doc comments, ahead of what is behind it. -/
theorem exists_of_peek {ts : List Token} {p : Token → Bool} (hp : p ended = false)
    (h : p (peek ts) = true) : ∃ front e, ts = front ++ e :: advance ts ∧ p e = true :=
  ⟨ts.takeWhile isDoc, peek ts, (takeWhile_append_peek (skipDocs_ne_nil hp h)).symm, h⟩

/-- A semicolon can end a member. -/
theorem stops_expectPunct : Stops (expectPunct ';') := by
  have hexpect : Stops (expect (·.isPunct ';')) := by
    intro ts t rest h
    unfold expect at h
    split at h
    · next hpeek =>
      obtain ⟨-, rfl⟩ := Prod.mk.inj (Option.some.inj h)
      obtain ⟨front, e, hts, he⟩ := exists_of_peek (p := (·.isPunct ';')) rfl hpeek
      exact ⟨front, e, hts, by rw [Token.isStop, he]; rfl⟩
    · cases h
  exact hexpect.map _

/-- A closing brace can end a member. -/
theorem stops_blockSource? (depth : Nat) : Stops (blockSource? depth) := by
  intro ts source rest h
  induction ts generalizing depth source with
  | nil => cases h
  | cons t ts ih =>
    obtain ⟨-, hclose, -, rfl⟩ | ⟨-, -, more, hmore, -⟩ := blockSource?_cases h
    · exact ⟨[], t, rfl, by rw [Token.isStop, hclose, Bool.or_true]⟩
    · obtain ⟨front, e, rfl, he⟩ := ih _ hmore
      exact ⟨t :: front, e, rfl, he⟩

/-- A block, or a semicolon in its place, ends a member. -/
theorem stops_blockOrNone : Stops blockOrNone := by
  have hblock : Stops block := .bind (leaves_expectPunct '{') fun _ => (stops_blockSource? 0).map _
  intro ts body? rest h
  obtain ⟨taken, mid, ht, h⟩ := bind_eq_some h
  cases taken with
  | true =>
    unfold eatPunct eat at ht
    split at ht
    · next hpeek =>
      obtain ⟨-, rfl⟩ := Prod.mk.inj (Option.some.inj ht)
      obtain ⟨-, rfl⟩ := Prod.mk.inj (Option.some.inj h)
      obtain ⟨front, e, hts, he⟩ := exists_of_peek (p := (·.isPunct ';')) rfl hpeek
      exact ⟨front, e, hts, by rw [Token.isStop, he]; rfl⟩
    · cases ht
  | false =>
    obtain ⟨front, e, hmid, he⟩ := hblock.map some h
    obtain ⟨taken, rfl, -⟩ := leaves_eatPunct ';' ht
    exact ⟨taken ++ front, e, by rw [hmid, List.append_assoc], he⟩

/-- A group ends with its semicolon. -/
theorem stops_group {item : Reader α} {hitem : Advances item} (h : Leaves item) : Stops (group item hitem) :=
  .bind (leaves_commaList h) fun _ => stops_expectPunct.map _

/-- A method ends with its block or a semicolon. -/
theorem stops_method (modifiers : Modifiers) : Stops (method modifiers) :=
  .bind (leaves_expectKeyword _) fun _ => .bind (leaves_eatPunct _) fun _ => .bind leaves_name fun _ =>
    .bind (leaves_expectPunct _) fun _ => .bind leaves_params fun _ => .bind leaves_returnType fun _ =>
      stops_blockOrNone.map _

/-- A constant, a method or properties behind their modifiers. -/
theorem stops_modifiedKinds (modifiers : Modifiers) (var : Bool) : Stops (modifiedKinds modifiers var) :=
  .bind (leaves_eatKeyword _) fun _ => .ite ((stops_group (leaves_constant modifiers)).map _) <|
    .bind leaves_look fun _ => .ite ((stops_method modifiers).map _) <|
      .ite .failure <| Stops.map (.bind (leaves_typeUnless _) fun _ => stops_group (leaves_property _ _)) _

/-- A member of a known form ends with a token that can end one. -/
theorem stops_knownMember : Stops knownMember := by
  have hkinds : Stops memberKinds :=
    .bind (leaves_eatKeyword _) fun _ =>
      .ite (Stops.map (.bind leaves_nameList fun _ => stops_blockOrNone.map _) _)
        (.bind leaves_modifiers fun _ => stops_modifiedKinds _ _)
  exact .bind leaves_preamble fun _ => hkinds.map _

/-! ## Members -/

/-- A member of a known form is read by its own tokens: what is behind it, and where it stands, does not
matter. -/
theorem knownMember_window {W W' : List Token} {found : List Outline} (hW : Token.Alike W W')
    (hdoc : ∀ t ∈ W, t.kind ≠ .docComment) (h : knownMember (W ++ X) = some (found, X)) :
    knownMember (W' ++ Y) = some (found, Y) := by
  obtain ⟨front, e, hfront, he⟩ := stops_knownMember h
  obtain rfl : W = front ++ [e] := by
    rw [← List.singleton_append, ← List.append_assoc] at hfront
    exact List.append_cancel_right hfront
  have hwindow : Window (front ++ [e]) W' := ⟨hW, hdoc, e, List.getLast?_concat, he⟩
  have hin : InWindow X Y (front ++ [e] ++ X) (W' ++ Y) := ⟨_, _, hwindow, rfl, rfl⟩
  obtain hfew | ⟨rest', hread, D, D', hD, hX, rfl⟩ := (pairing_window X Y).knownMember.agrees hin h
  · exact absurd hfew (Nat.lt_irrefl _)
  · -- all of the window is taken, so nothing is left of it at the other place
    obtain rfl : D = [] := List.append_left_eq_self.1 hX.symm
    cases hD
    exact hread

/-- A member of a known form is read in the same way at another place. -/
theorem knownMember_alike {ts ts' rest : List Token} {found : List Outline} (hts : Token.Alike ts ts')
    (hdoc : ∀ t ∈ ts, t.kind ≠ .docComment) (h : knownMember ts = some (found, rest)) :
    ∃ rest', knownMember ts' = some (found, rest') := by
  obtain ⟨front, e, hfront, -⟩ := stops_knownMember h
  obtain rfl : ts = (front ++ [e]) ++ rest := by rw [hfront, List.append_assoc, List.singleton_append]
  obtain ⟨W', rest', rfl, hW, -⟩ := hts.exists_append
  exact ⟨rest', knownMember_window hW (fun t ht => hdoc t (List.mem_append_left _ ht)) h⟩

/-- Whether a token continues a statement depends on its kind and its text. -/
theorem blind_continuesBlock (afterDo : Bool) : Blind (continuesBlock afterDo) := fun t t' h => by
  simp only [continuesBlock, blind_isKeyword _ h]

/-- What comes next does not continue a statement behind its block. -/
def EndsSpan (afterDo : Bool) (ts : List Token) : Prop :=
  (peek ts).isPunct ';' = false ∧ continuesBlock afterDo (peek ts) = false

/-- What is cut off of a statement at the brace of its block. Where another block continues the statement,
`more` is cut off behind the brace. -/
def cutAtBlock (afterDo : Bool) (brace : Token) (ts : List Token)
    (more : Except ParseError (List Token × List Token)) : Except ParseError (List Token × List Token) :=
  if (peek ts).isPunct ';' then .ok (brace :: (ts.takeWhile isDoc ++ [peek ts]), advance ts)
  else if continuesBlock afterDo (peek ts) then more.map (consFirst brace)
  else .ok ([brace], ts)

/-- A statement is cut off at its brace in the same way at another place, unless it is continued there. -/
theorem cutAtBlock_window {afterDo : Bool} {t t' : Token} {V V' : List Token}
    {more more' : Except ParseError (List Token × List Token)} (hV : Echoing V V')
    (hdoc : ∀ t ∈ V, t.kind ≠ .docComment) (hends : EndsSpan afterDo X → EndsSpan afterDo Y)
    (hnil : V = [] → more ≠ .ok ([], X))
    (hmore : more.map (consFirst t) = .ok (t :: V, X) → more'.map (consFirst t') = .ok (t' :: V', Y))
    (h : cutAtBlock afterDo t (V ++ X) more = .ok (t :: V, X)) :
    cutAtBlock afterDo t' (V' ++ Y) more' = .ok (t' :: V', Y) := by
  unfold cutAtBlock at h ⊢
  cases hV with
  | nil =>
    -- the span ends with the brace, so nothing behind it may continue the statement
    rw [List.nil_append] at h ⊢
    split at h
    · obtain ⟨hcons, -⟩ := Prod.mk.inj (Except.ok.inj h)
      exact absurd (List.cons.inj hcons).2 (List.append_ne_nil_of_right_ne_nil _ (List.cons_ne_nil _ _))
    next hsemi =>
    split at h
    · obtain ⟨taken, htaken, hcons⟩ := exists_of_map_consFirst h
      obtain rfl : [] = taken := (List.cons.inj hcons).2
      exact absurd htaken (hnil rfl)
    next hcontinues =>
    obtain ⟨hsemi', hcontinues'⟩ := hends ⟨Bool.eq_false_iff.2 hsemi, Bool.eq_false_iff.2 hcontinues⟩
    rw [hsemi', hcontinues']
    rfl
  | @cons v v' V V' hv hV =>
    have hvdoc : v.kind ≠ .docComment := hdoc v (List.mem_cons_self ..)
    have hvdoc' : v'.kind ≠ .docComment := hv.kind ▸ hvdoc
    have hsemi : v'.isPunct ';' = v.isPunct ';' := blind_isPunct ';' hv
    have hnodocs {u : Token} (hu : u.kind ≠ .docComment) (us : List Token) :
        (u :: us).takeWhile isDoc = [] := List.takeWhile_cons_of_neg (by simp [isDoc, hu])
    rw [List.cons_append, peek_cons hvdoc, advance_cons hvdoc, hnodocs hvdoc] at h
    rw [List.cons_append, peek_cons hvdoc', advance_cons hvdoc', hnodocs hvdoc', hsemi,
      blind_continuesBlock _ hv]
    split at h
    · next hpunct =>
      obtain ⟨hcons, -⟩ := Prod.mk.inj (Except.ok.inj h)
      obtain rfl : [] = V := (List.cons.inj (List.cons.inj hcons).2).2
      cases hV
      rw [if_pos hpunct]
      rfl
    next hpunct =>
    rw [if_neg hpunct]
    split at h
    · next hcontinues =>
      rw [if_pos hcontinues]
      exact hmore h
    · obtain ⟨hcons, -⟩ := Prod.mk.inj (Except.ok.inj h)
      cases (List.cons.inj hcons).2

/-- The tokens of a statement are cut off in the same way at another place, unless it is continued there. -/
theorem statementSpan_window {lead lead' : Token} {depth : Nat} {V V' : List Token}
    (hlead : lead.Echoes lead') (hV : Echoing V V') (hdoc : ∀ t ∈ V, t.kind ≠ .docComment)
    (hX : (peek X).kind ≠ .closeTag)
    (hends : EndsSpan (lead.isKeyword "do") X → EndsSpan (lead.isKeyword "do") Y)
    (h : statementSpan lead depth (V ++ X) = .ok (V, X)) :
    statementSpan lead' depth (V' ++ Y) = .ok (V', Y) := by
  have hdo : lead'.isKeyword "do" = lead.isKeyword "do" := blind_isKeyword "do" hlead
  -- nothing can be cut off where the span is to end
  have hnil {d : Nat} : statementSpan lead d X ≠ .ok ([], X) := by
    intro hspan
    cases X with
    | nil => cases hspan
    | cons x xs =>
      refine ne_nil_of_statementSpan hspan (fun hclose => hX ?_) rfl
      rw [peek_cons (by rw [hclose]; nofun), hclose]
  induction hV generalizing depth with
  | nil => exact absurd h hnil
  | @cons t t' V V' he hV ih =>
    have hdocs := fun u hu => hdoc u (List.mem_cons_of_mem _ hu)
    have hbehind {d : Nat} (h : (statementSpan lead d (V ++ X)).map (consFirst t) = .ok (t :: V, X)) :
        (statementSpan lead' d (V' ++ Y)).map (consFirst t') = .ok (t' :: V', Y) := by
      obtain ⟨more, hmore, hcons⟩ := exists_of_map_consFirst h
      obtain rfl : V = more := (List.cons.inj hcons).2
      rw [ih hdocs hmore]
      rfl
    have hsemicolon : t'.isPunct ';' = t.isPunct ';' := blind_isPunct ';' he
    rw [List.cons_append] at h ⊢
    unfold statementSpan at h ⊢
    rw [he.kind, hsemicolon, blind_isOpener he, blind_closer? he, hdo]
    split at h
    · cases h
    next heof =>
    rw [if_neg heof]
    split at h
    · split at h
      · obtain ⟨hcons, -⟩ := Prod.mk.inj (Except.ok.inj h)
        cases hcons
      · cases h
    next hclosetag =>
    rw [if_neg hclosetag]
    split at h
    · next hlast =>
      obtain ⟨hcons, -⟩ := Prod.mk.inj (Except.ok.inj h)
      obtain rfl : [] = V := (List.cons.inj hcons).2
      cases hV
      rw [if_pos hlast]
      rfl
    next hlast =>
    rw [if_neg hlast]
    split at h
    · next hopen =>
      rw [if_pos hopen]
      exact hbehind h
    next hopen =>
    rw [if_neg hopen]
    cases hcloser : t.closer? with
    | none =>
      rw [hcloser] at h
      exact hbehind h
    | some c =>
      rw [hcloser] at h
      dsimp only at h ⊢
      split at h
      · cases h
      next hdepth =>
      rw [if_neg hdepth]
      split at h
      · next hbrace =>
        rw [if_pos hbrace]
        have hnone : V = [] → statementSpan lead 0 (V ++ X) ≠ .ok ([], X) := by
          rintro rfl
          exact hnil
        exact cutAtBlock_window hV hdocs hends hnone hbehind h
      · next hbrace =>
        rw [if_neg hbrace]
        exact hbehind h

/-- A member that is kept as source text is cut off as its tokens. -/
theorem exists_of_verbatim {ts rest : List Token} {found : List Outline}
    (h : verbatim ts = .ok (found, rest)) : ∃ V, ts = V ++ rest ∧ V ≠ [] ∧
      statementSpan (peek ts) 0 ts = .ok (V, rest) ∧ found = [.verbatim (Token.span V)] := by
  have hshorter := advances_verbatim h
  unfold verbatim at h
  split at h
  · cases h
  · cases hspan : statementSpan (peek ts) 0 ts with
    | error e => rw [hspan] at h; cases h
    | ok parts =>
      rw [hspan] at h
      obtain ⟨rfl, rfl⟩ := Prod.mk.inj (Except.ok.inj h)
      have happend := append_of_statementSpan hspan
      refine ⟨parts.1, happend.symm, ?_, rfl, rfl⟩
      intro hnil
      rw [hnil, List.nil_append] at happend
      rw [happend] at hshorter
      exact Nat.lt_irrefl _ hshorter

/-- A member is read by its own tokens. What is behind it does not matter as long as it does not continue a
member that is kept as source text, nor makes one of a known form of it. -/
theorem member_window {W W' : List Token} {found : List Outline} (hW : Token.Alike W W')
    (hdoc : ∀ t ∈ W, t.kind ≠ .docComment) (hX : (peek X).kind ≠ .closeTag)
    (hends : ∀ afterDo, EndsSpan afterDo X → EndsSpan afterDo Y)
    (hunknown : knownMember (W ++ X) = none → knownMember (W' ++ Y) = none)
    (h : member (W ++ X) = .ok (found, X)) : member (W' ++ Y) = .ok (found, Y) := by
  cases hknown : knownMember (W ++ X) with
  | some result =>
    rw [member, hknown] at h
    obtain rfl : result = (found, X) := Except.ok.inj h
    rw [member, knownMember_window hW hdoc hknown]
  | none =>
    rw [member, hknown] at h
    rw [member, hunknown hknown]
    obtain ⟨V, hV, hne, hspan, rfl⟩ := exists_of_verbatim h
    obtain rfl : W = V := List.append_cancel_right hV
    rw [← hW.span_eq]
    obtain ⟨hecho, -⟩ := hW
    cases hecho with
    | nil => exact absurd rfl hne
    | @cons t t' us us' ht hus =>
      have hpeek : peek (t :: us ++ X) = t := peek_cons (hdoc t (List.mem_cons_self ..))
      have hpeek' : peek (t' :: us' ++ Y) = t' := peek_cons (ht.kind ▸ hdoc t (List.mem_cons_self ..))
      -- at a close tag nothing would have been kept
      have hclose : t.kind ≠ .closeTag := by
        intro hkind
        unfold verbatim at h
        rw [hpeek, hkind] at h
        cases h
      rw [hpeek] at hspan
      have hspan' := statementSpan_window ht (.cons ht hus) hdoc hX (hends _) hspan
      rw [verbatim, hpeek', ht.kind, if_neg (by simp [hclose]), hspan']
      rfl

/-- A member takes at least one token from the front. -/
theorem exists_of_member {ts rest : List Token} {found : List Outline} (h : member ts = .ok (found, rest)) :
    ∃ W, ts = W ++ rest ∧ W ≠ [] := by
  unfold member at h
  split at h
  · next hknown =>
    obtain rfl := Except.ok.inj h
    obtain ⟨front, e, rfl, -⟩ := stops_knownMember hknown
    exact ⟨front ++ [e], by rw [List.append_assoc, List.singleton_append], by simp⟩
  · obtain ⟨V, rfl, hne, -⟩ := exists_of_verbatim h
    exact ⟨V, rfl, hne⟩

/-- The next token is of the same kind and text at another place. -/
theorem peek_alike {ts ts' : List Token} (h : Token.Alike ts ts') (hdoc : ∀ t ∈ ts, t.kind ≠ .docComment) :
    (peek ts).Echoes (peek ts') := by
  obtain ⟨hecho, -⟩ := h
  cases hecho with
  | nil => exact ⟨rfl, rfl⟩
  | cons ht _ =>
    have hhead := hdoc _ (List.mem_cons_self ..)
    rw [peek_cons hhead, peek_cons (ht.kind ▸ hhead)]
    exact ht

/-- A member is read in the same way at another place. -/
theorem member_alike {ts ts' rest : List Token} {found : List Outline} (hts : Token.Alike ts ts')
    (hdoc : ∀ t ∈ ts, t.kind ≠ .docComment) (hrest : (peek rest).kind ≠ .closeTag)
    (h : member ts = .ok (found, rest)) :
    ∃ rest', member ts' = .ok (found, rest') ∧ Token.Alike rest rest' := by
  obtain ⟨W, rfl, -⟩ := exists_of_member h
  obtain ⟨W', rest', rfl, hW, hrests⟩ := hts.exists_append
  have hpeek := peek_alike hrests fun t ht => hdoc t (List.mem_append_right _ ht)
  refine ⟨rest', member_window hW (fun t ht => hdoc t (List.mem_append_left _ ht)) hrest
    (fun afterDo hends => ?_) (fun hnone => ?_) h, hrests⟩
  · have hsemi : (peek rest').isPunct ';' = (peek rest).isPunct ';' := blind_isPunct ';' hpeek
    rw [EndsSpan, hsemi, blind_continuesBlock afterDo hpeek]
    exact hends
  · have hdoc' : ∀ t ∈ W' ++ rest', t.kind ≠ .docComment := by
      intro t ht
      obtain ⟨u, hu, he⟩ := hts.symm.exists_mem ht
      exact he.kind ▸ hdoc u hu
    -- a member of a known form there would be one here
    cases hback : knownMember (W' ++ rest') with
    | none => rfl
    | some result =>
      obtain ⟨_, hread⟩ := knownMember_alike hts.symm hdoc' hback
      rw [hnone] at hread
      cases hread

end Reader

end PhpGraft

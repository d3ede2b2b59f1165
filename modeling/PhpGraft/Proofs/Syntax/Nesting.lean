import PhpGraft.Proofs.Syntax.Windows

/-!
# Members that close their brackets

The tokens of a member are closed when every bracket in them is closed by the delimiter that belongs to it
and they end with a semicolon, or with a brace and without a value outside the brackets. No reader of
members runs over the end of closed tokens, so if they are of no known form ahead of one text, they are of
none ahead of any other (`knownMember_closed`). A value outside all brackets needs the semicolon: it is
read up to the next one, across any blocks.
-/

namespace PhpGraft

/-- The delimiter that closes the bracket which a token opens. -/
def Token.closing? (t : Token) : Option Char :=
  match t.kind with
  | .punct c => if c = '(' then some ')' else if c = '[' then some ']' else if c = '{' then some '}' else none
  | .attributeOpen => some ']'
  | _ => none

/-- Whether the brackets in some tokens are closed one inside the other, and those whose delimiters are due,
the innermost first, behind them. An equals sign stands outside all brackets only if `valued`. -/
def nests (valued : Bool) : List Char → List Token → Bool
  | due, [] => due.isEmpty
  | due, t :: ts =>
    match t.closing? with
    | some c => nests valued (c :: due) ts
    | none =>
      match t.closer? with
      | some c => due.head? == some c && nests valued due.tail ts
      | none => (valued || !due.isEmpty || !t.isPunct '=') && nests valued due ts

/-- The character that closed tokens end with. -/
def closingSign (valued : Bool) : Char := if valued then ';' else '}'

/-- Whether some tokens close their brackets and end with a semicolon, or with a brace if no equals sign
stands outside the brackets. -/
def isClosed (ts : List Token) : Bool :=
  [true, false].any fun valued => ts.getLast?.any (·.isPunct (closingSign valued)) && nests valued [] ts

namespace Reader

variable {X Y : List Token} {valued : Bool} {due : List Char}

/-- A token opens a bracket if there is a delimiter that closes it. -/
theorem isOpener_eq (t : Token) : t.isOpener = t.closing?.isSome := by
  obtain ⟨kind, gap, text, start⟩ := t
  cases kind with
  | punct c =>
    simp only [Token.isOpener, Token.isPunct, Token.closing?]
    split_ifs with h₁ h₂ h₃ <;> simp_all
  | _ => rfl

/-- A closing delimiter opens nothing. -/
theorem closing?_of_closer? {t : Token} {c : Char} (h : t.closer? = some c) : t.closing? = none := by
  obtain ⟨kind, gap, text, start⟩ := t
  cases kind with
  | punct d =>
    simp only [Token.closer?] at h
    split at h
    · next hd => obtain rfl | rfl | rfl := hd <;> rfl
    · cases h
  | _ => cases h

/-- A closing delimiter is the character that it is. -/
theorem closer?_eq_some {t : Token} {c : Char} :
    t.closer? = some c ↔ t.isPunct c = true ∧ (c = ')' ∨ c = ']' ∨ c = '}') := by
  obtain ⟨kind, gap, text, start⟩ := t
  cases kind with
  | punct d =>
    simp only [Token.closer?, Token.isPunct, beq_iff_eq, TokenKind.punct.injEq]
    constructor
    · intro h
      split at h
      · next hd =>
        obtain rfl := Option.some.inj h
        exact ⟨rfl, hd⟩
      · cases h
    · rintro ⟨rfl, hd⟩
      rw [if_pos hd]
  | _ =>
    constructor
    · intro h
      cases h
    · rintro ⟨h, -⟩
      cases h

/-- A character that closes no bracket is no closing delimiter. -/
theorem closer?_of_isPunct {t : Token} {c : Char} (ht : t.isPunct c = true)
    (hc : ¬ (c = ')' ∨ c = ']' ∨ c = '}')) : t.closer? = none := by
  cases h : t.closer? with
  | none => rfl
  | some d =>
    obtain ⟨hd, hclose⟩ := closer?_eq_some.1 h
    obtain rfl : c = d := TokenKind.punct.inj ((eq_of_beq ht).symm.trans (eq_of_beq hd))
    exact absurd hclose hc

/-- A link opens no bracket. -/
theorem closing?_of_isLink {t : Token} (h : isLink t = true) : t.closing? = none := by
  obtain ⟨kind, gap, text, start⟩ := t
  cases kind with
  | punct c =>
    have hsign : (c == '?' || c == '&' || c == '|' || c == ',' || c == ':') = true := h
    simp only [Bool.or_eq_true, beq_iff_eq] at hsign
    obtain (((rfl | rfl) | rfl) | rfl) | rfl := hsign <;> rfl
  | attributeOpen => cases h
  | _ => rfl

/-! ## Closed tokens -/

/-- Tokens without doc comments that close their brackets and those around them, and end as closed ones. -/
structure Enclosed (valued : Bool) (due : List Char) (Q : List Token) : Prop where
  /-- There is no doc comment. -/
  noDoc : ∀ t ∈ Q, t.kind ≠ .docComment
  /-- The last token is the one that closed tokens end with. -/
  last : ∃ e ∈ Q.getLast?, e.isPunct (closingSign valued) = true
  /-- The brackets are closed. -/
  nests : nests valued due Q = true

namespace Enclosed

variable {t : Token} {Q : List Token} {c : Char}

/-- Closed tokens are not empty. -/
theorem ne_nil (h : Enclosed valued due Q) : Q ≠ [] := by
  rintro rfl
  obtain ⟨e, he, -⟩ := h.last
  cases he

/-- What is behind the first of closed tokens is closed if it closes what is due. -/
theorem tail {due' : List Char} (h : Enclosed valued due (t :: Q)) (hne : Q ≠ [])
    (hnests : PhpGraft.nests valued due' Q = true) : Enclosed valued due' Q where
  noDoc u hu := h.noDoc u (List.mem_cons_of_mem _ hu)
  last := by
    obtain ⟨e, he, hlast⟩ := h.last
    rw [← List.singleton_append, List.getLast?_append_of_ne_nil _ hne] at he
    exact ⟨e, he, hlast⟩
  nests := hnests

/-- Closed tokens are not over while a delimiter is due. -/
theorem ne_nil_of_due (h : PhpGraft.nests valued (c :: due) Q = true) : Q ≠ [] := by
  rintro rfl
  cases h

/-- Behind an opening bracket its delimiter is due. -/
theorem opening (h : Enclosed valued due (t :: Q)) (hc : t.closing? = some c) :
    Enclosed valued (c :: due) Q := by
  have hnests := h.nests
  rw [PhpGraft.nests, hc] at hnests
  exact h.tail (ne_nil_of_due hnests) hnests

/-- A closing delimiter is the one that is due. Behind it closed tokens go on, unless it is the brace that
they end with. -/
theorem closing (h : Enclosed valued due (t :: Q)) (hc : t.closer? = some c) :
    ∃ due', due = c :: due' ∧ (Enclosed valued due' Q ∨ Q = [] ∧ due' = [] ∧ c = '}' ∧ valued = false) := by
  have hnests := h.nests
  rw [PhpGraft.nests, closing?_of_closer? hc, hc] at hnests
  obtain ⟨hhead, hbehind⟩ := Bool.and_eq_true_iff.1 hnests
  cases due with
  | nil => cases hhead
  | cons d due' =>
    obtain rfl : d = c := Option.some.inj (eq_of_beq hhead)
    refine ⟨due', rfl, ?_⟩
    by_cases hne : Q = []
    · subst hne
      right
      obtain ⟨e, he, hlast⟩ := h.last
      obtain rfl : t = e := Option.some.inj he
      refine ⟨rfl, List.isEmpty_iff.1 hbehind, ?_⟩
      obtain ⟨hpunct, hc⟩ := closer?_eq_some.1 hc
      obtain rfl : closingSign valued = d :=
        TokenKind.punct.inj ((eq_of_beq hlast).symm.trans (eq_of_beq hpunct))
      cases valued with
      | true => exact absurd hc (by decide)
      | false => exact ⟨rfl, rfl⟩
    · exact .inl (h.tail hne hbehind)

/-- Any other token can be taken, except for a semicolon outside all brackets. -/
theorem plain (h : Enclosed valued due (t :: Q)) (hopen : t.closing? = none) (hclose : t.closer? = none)
    (hsemi : due = [] → t.isPunct ';' = false) : Enclosed valued due Q := by
  have hnests := h.nests
  rw [PhpGraft.nests, hopen, hclose] at hnests
  obtain ⟨-, hbehind⟩ := Bool.and_eq_true_iff.1 hnests
  refine h.tail ?_ hbehind
  rintro rfl
  obtain ⟨e, he, hlast⟩ := h.last
  obtain rfl : t = e := Option.some.inj he
  cases valued with
  | true =>
    have hsign : t.isPunct ';' = true := hlast
    rw [hsemi (List.isEmpty_iff.1 hbehind)] at hsign
    cases hsign
  | false =>
    rw [closer?_eq_some.2 ⟨hlast, .inr (.inr rfl)⟩] at hclose
    cases hclose

/-- A link can be taken. -/
theorem link (h : Enclosed valued due (t :: Q)) (ht : isLink t = true) : Enclosed valued due Q := by
  have hstop := isStop_of_isLink ht
  rw [Token.isStop, Bool.or_eq_false_iff] at hstop
  exact h.plain (closing?_of_isLink ht) (Option.not_isSome_iff_eq_none.1 (Bool.eq_false_iff.1 hstop.2))
    fun _ => hstop.1

/-- Behind a token that belongs to something inside closed tokens, as many delimiters are due inside it as the
brackets that are counted. -/
theorem count {inner : List Char} (h : Enclosed valued (inner ++ due) (t :: Q))
    (hclose : inner = [] → t.closer? = none)
    (hdue : due = [] → valued = true ∧ (inner = [] → t.isPunct ';' = false)) :
    ∃ inner', Enclosed valued (inner' ++ due) Q ∧ inner'.length = depthAfter inner.length t := by
  cases hopen : t.closing? with
  | some c =>
    have hopener : t.isOpener = true := by rw [isOpener_eq, hopen]; rfl
    exact ⟨c :: inner, h.opening hopen, (depthAfter_opener hopener).symm⟩
  | none =>
    have hopener : t.isOpener = false := by rw [isOpener_eq, hopen]; rfl
    cases hcloser : t.closer? with
    | none =>
      refine ⟨inner, h.plain hopen hcloser fun hnil => ?_, (depthAfter_plain hopener hcloser).symm⟩
      obtain ⟨hinner, hnil⟩ := List.append_eq_nil_iff.1 hnil
      exact (hdue hnil).2 hinner
    | some c =>
      have hsome : t.closer?.isSome = true := Option.isSome_of_mem hcloser
      cases inner with
      | nil =>
        rw [hclose rfl] at hcloser
        cases hcloser
      | cons d inner =>
        obtain ⟨due', hdue', hQ⟩ := h.closing hcloser
        obtain ⟨rfl, rfl⟩ := List.cons.inj hdue'
        obtain hQ | ⟨-, hnil, -, hvalued⟩ := hQ
        · exact ⟨inner, hQ, by rw [depthAfter_closer hsome, List.length_cons, Nat.add_sub_cancel]⟩
        · -- closed tokens with a value outside the brackets do not end with a brace
          obtain ⟨-, hnil⟩ := List.append_eq_nil_iff.1 hnil
          rw [(hdue hnil).1] at hvalued
          cases hvalued

end Enclosed

/-! ## Counting brackets in closed tokens -/

/-- The arguments of an attribute end in closed tokens. -/
theorem attributeArgs?_enclosed {Q taken rest : List Token} {inner : List Char} {args : List String}
    (hQ : Enclosed valued (inner ++ ')' :: due) Q)
    (h : attributeArgs? taken inner.length (Q ++ X) = some (args, rest)) :
    ∃ D, Enclosed valued due D ∧ rest = D ++ X ∧
      attributeArgs? taken inner.length (Q ++ Y) = some (args, D ++ Y) := by
  induction Q generalizing inner taken args with
  | nil => exact absurd rfl hQ.ne_nil
  | cons t Q ih =>
    have hnotover {p : Prop} : ')' :: due = [] → p := fun hnil => absurd hnil (List.cons_ne_nil _ _)
    obtain ⟨hdepth, hlast, rfl, rfl⟩ | ⟨hdepth, hnext, more, hmore, rfl⟩ | ⟨hend, hno, hmore⟩ :=
      attributeArgs?_cases h
    · obtain rfl : inner = [] := List.length_eq_zero_iff.1 hdepth
      obtain ⟨due', hdue, hQ | ⟨-, -, hbrace, -⟩⟩ := hQ.closing (closer?_eq_some.2 ⟨hlast, .inl rfl⟩)
      · obtain ⟨-, rfl⟩ := List.cons.inj hdue
        exact ⟨Q, hQ, rfl, attributeArgs?_close hlast⟩
      · cases hbrace
    · obtain rfl : inner = [] := List.length_eq_zero_iff.1 hdepth
      have hopen : t.closing? = none := by rw [Token.closing?, eq_of_beq hnext]; rfl
      have hQ' : Enclosed valued ([] ++ ')' :: due) Q :=
        hQ.plain hopen (closer?_of_isPunct hnext (by decide)) hnotover
      obtain ⟨D, hD, hrest, hread⟩ := ih hQ' hmore
      exact ⟨D, hD, hrest, attributeArgs?_comma hnext hread⟩
    · have hclose : inner = [] → t.closer? = none := by
        rintro rfl
        cases hcloser : t.closer? with
        | none => rfl
        | some c =>
          -- the delimiter that is due would have ended the arguments
          obtain ⟨due', hdue, -⟩ := hQ.closing hcloser
          obtain ⟨rfl, -⟩ := List.cons.inj hdue
          exact absurd (closer?_eq_some.1 hcloser).1 (Bool.eq_false_iff.1 (hno rfl).1)
      obtain ⟨inner', hQ', hdepth⟩ := hQ.count hclose hnotover
      rw [← hdepth] at hmore
      obtain ⟨D, hD, hrest, hread⟩ := ih hQ' hmore
      refine ⟨D, hD, hrest, ?_⟩
      rw [List.cons_append, attributeArgs?_more hend hno, ← hdepth]
      exact hread

/-- A value ends in closed tokens: ahead of a delimiter that is due, or of the semicolon at the end. -/
theorem expressionSpan?_enclosed {stop : Char → Bool} {Q taken rest : List Token} {inner : List Char}
    (hstop : due = [] → stop ';' = true ∧ valued = true) (hQ : Enclosed valued (inner ++ due) Q)
    (h : expressionSpan? stop inner.length (Q ++ X) = some (taken, rest)) :
    ∃ D, Enclosed valued due D ∧ rest = D ++ X ∧
      expressionSpan? stop inner.length (Q ++ Y) = some (taken, D ++ Y) := by
  induction Q generalizing inner taken with
  | nil => exact absurd rfl hQ.ne_nil
  | cons t Q ih =>
    obtain ⟨hend, ⟨hdepth, hhere, rfl, rfl⟩ | ⟨hno, more, hmore, rfl⟩⟩ := expressionSpan?_cases h
    · obtain rfl : inner = [] := List.length_eq_zero_iff.1 hdepth
      exact ⟨t :: Q, hQ, rfl, expressionSpan?_here hend hhere⟩
    · have hsemi (hnil : inner = []) (hdue : due = []) : t.isPunct ';' = false := by
        -- a semicolon outside all brackets would have ended the value
        refine Bool.eq_false_iff.2 fun hsemi => ?_
        have hnostop := (hno (List.length_eq_zero_iff.2 hnil)).1
        rw [Token.isPunctWhere, eq_of_beq hsemi] at hnostop
        exact Bool.eq_false_iff.1 hnostop (hstop hdue).1
      obtain ⟨inner', hQ', hdepth⟩ := hQ.count (fun hnil => (hno (List.length_eq_zero_iff.2 hnil)).2)
        fun hdue => ⟨(hstop hdue).2, fun hnil => hsemi hnil hdue⟩
      rw [← hdepth] at hmore
      obtain ⟨D, hD, hrest, hread⟩ := ih hQ' hmore
      refine ⟨D, hD, hrest, ?_⟩
      rw [List.cons_append, expressionSpan?_more hend hno, ← hdepth, hread]
      rfl

/-- The source between braces ends in closed tokens. -/
theorem blockSource?_enclosed {Q rest : List Token} {inner source : List Char}
    (hQ : Enclosed valued (inner ++ ['}']) Q)
    (h : blockSource? inner.length (Q ++ X) = some (source, rest)) :
    ∃ D, rest = D ++ X ∧ blockSource? inner.length (Q ++ Y) = some (source, D ++ Y) := by
  induction Q generalizing inner source with
  | nil => exact absurd rfl hQ.ne_nil
  | cons t Q ih =>
    obtain ⟨hdepth, hclose, rfl, rfl⟩ | ⟨hend, hno, more, hmore, rfl⟩ := blockSource?_cases h
    · refine ⟨Q, rfl, ?_⟩
      rw [hdepth]
      exact blockSource?_close hclose
    · obtain ⟨inner', hQ', hdepth⟩ := hQ.count (fun hnil => hno (List.length_eq_zero_iff.2 hnil))
        fun hnil => absurd hnil (List.cons_ne_nil _ _)
      rw [← hdepth] at hmore
      obtain ⟨D, hrest, hread⟩ := ih hQ' hmore
      refine ⟨D, hrest, ?_⟩
      rw [List.cons_append, blockSource?_more hend hno, ← hdepth, hread]
      rfl

/-! ## Reading closed tokens -/

/-- Two lists that start with the same closed tokens. -/
def Shares (X Y : List Token) (valued : Bool) (due : List Char) (ts ts' : List Token) : Prop :=
  ∃ Q, Enclosed valued due Q ∧ ts = Q ++ X ∧ ts' = Q ++ Y

/-- Behind the first of closed tokens are those that follow it. -/
theorem exists_of_shares {p : Token → Bool} {us us' : List Token}
    (h : After (Shares X Y valued due) p us us') :
    ∃ t Q, Enclosed valued due (t :: Q) ∧ p t = true ∧ us = Q ++ X ∧ us' = Q ++ Y := by
  obtain ⟨t, t', ⟨Q, hQ, hts, hts'⟩, ht⟩ := h
  cases Q with
  | nil => exact absurd rfl hQ.ne_nil
  | cons v vs =>
    obtain ⟨rfl, rfl⟩ := List.cons.inj hts
    obtain ⟨-, rfl⟩ := List.cons.inj hts'
    exact ⟨t, vs, hQ, ht, rfl, rfl⟩

/-- A value agrees in closed tokens. Outside all brackets it takes a semicolon at their end. -/
theorem agrees_value_enclosed {stop : Char → Bool} (hstop : due = [] → stop ';' = true) :
    Agrees 0 1 (After (Shares X Y valued due) (·.isPunct '=')) (Shares X Y valued due)
      (expression stop) where
  shrinks _ _ _ hts h := Nat.lt_succ_of_lt (Nat.lt_of_lt_of_le (advances_expression stop h) hts)
  agrees us us' e rest h hread := by
    obtain ⟨t, Q, hQ, ht, rfl, rfl⟩ := exists_of_shares h
    have hopen : t.closing? = none := by rw [Token.closing?, eq_of_beq ht]; rfl
    have hclose := closer?_of_isPunct ht (by decide)
    have hsemi : t.isPunct ';' = false := by rw [Token.isPunct, eq_of_beq ht]; rfl
    -- the equals sign itself shows it
    have hvalued : due = [] → valued = true := by
      rintro rfl
      have hnests := hQ.nests
      rw [nests, hopen, hclose] at hnests
      have hsign := (Bool.and_eq_true_iff.1 hnests).1
      rw [ht] at hsign
      cases valued with
      | true => rfl
      | false => cases hsign
    have hQ' : Enclosed valued ([] ++ due) Q := hQ.plain hopen hclose fun _ => hsemi
    have hskip (Z : List Token) : skipDocs (Q ++ Z) = Q ++ Z := by
      cases Q with
      | nil => exact absurd rfl hQ'.ne_nil
      | cons u us =>
        have hdoc := hQ'.noDoc u (List.mem_cons_self ..)
        exact List.dropWhile_cons_of_neg (by simp [isDoc, hdoc])
    obtain ⟨taken, hne, hspan, rfl⟩ := exists_of_expression hread
    rw [hskip] at hspan
    obtain ⟨D, hD, hrest, hspan'⟩ :=
      expressionSpan?_enclosed (Y := Y) (fun hdue => ⟨hstop hdue, hvalued hdue⟩) hQ' hspan
    rw [List.length_nil, ← hskip] at hspan'
    exact .inr ⟨D ++ Y, expression_of_span hne hspan', D, hD, hrest, rfl⟩

/-- In closed tokens lists pair up, by the delimiters that are due. -/
theorem pairing_shares (X Y : List Token) (valued : Bool) :
    Pairing 0 (Shares X Y valued) fun ts ts' => ∃ D, ts = D ++ X ∧ ts' = D ++ Y where
  head due ts ts' h := by
    obtain ⟨Q, hQ, rfl, rfl⟩ := h
    cases Q with
    | nil => exact absurd rfl hQ.ne_nil
    | cons t us => exact ⟨t, us ++ X, t, us ++ Y, rfl, rfl, ⟨rfl, rfl⟩, hQ.noDoc t (List.mem_cons_self ..)⟩
  link due us us' h := by
    obtain ⟨t, Q, hQ, ht, rfl, rfl⟩ := exists_of_shares h
    exact ⟨Q, hQ.link ht, rfl, rfl⟩
  list due us us' h := by
    obtain ⟨t, Q, hQ, ht, rfl, rfl⟩ := exists_of_shares h
    exact ⟨Q, hQ.opening (by rw [Token.closing?, eq_of_beq ht]), rfl, rfl⟩
  paren due us us' h := by
    obtain ⟨t, Q, hQ, ht, rfl, rfl⟩ := exists_of_shares h
    exact ⟨Q, hQ.opening (by rw [Token.closing?, eq_of_beq ht]; rfl), rfl, rfl⟩
  close c due us us' hc h := by
    obtain ⟨t, Q, hQ, ht, rfl, rfl⟩ := exists_of_shares h
    have hclose : t.closer? = some c := closer?_eq_some.2 ⟨ht, hc.imp id .inl⟩
    obtain ⟨due', hdue, hQ' | ⟨-, -, rfl, -⟩⟩ := hQ.closing hclose
    · obtain ⟨-, rfl⟩ := List.cons.inj hdue
      exact .inr ⟨Q, hQ', rfl, rfl⟩
    · exact absurd hc (by decide)
  arguments due := {
    shrinks := fun _ _ _ hts h => Nat.lt_succ_of_le (Nat.le_trans (neverGrows_attributeArgs? _ _ h) hts)
    agrees := fun us us' args rest h hread => by
      obtain ⟨t, Q, hQ, ht, rfl, rfl⟩ := exists_of_shares h
      have hQ' : Enclosed valued ([] ++ ')' :: due) Q :=
        hQ.opening (by rw [Token.closing?, eq_of_beq ht]; rfl)
      obtain ⟨D, hD, hrest, hread'⟩ := attributeArgs?_enclosed (Y := Y) hQ' hread
      exact .inr ⟨D ++ Y, hread', D, hD, hrest, rfl⟩ }
  value due stop hstop := agrees_value_enclosed hstop
  block := {
    shrinks := fun _ _ _ hts h => Nat.lt_of_lt_of_le (advances_blockSource? 0 h) hts
    agrees := fun us us' source rest h hread => by
      obtain ⟨t, Q, hQ, ht, rfl, rfl⟩ := exists_of_shares h
      have hQ' : Enclosed valued ([] ++ ['}']) Q :=
        hQ.opening (by rw [Token.closing?, eq_of_beq ht]; rfl)
      obtain ⟨D, hrest, hread'⟩ := blockSource?_enclosed (Y := Y) hQ' hread
      exact .inr ⟨D ++ Y, hread', D, hrest, rfl⟩ }
  finish us us' h := by
    obtain ⟨t, Q, -, -, rfl, rfl⟩ := exists_of_shares h
    exact .inr ⟨Q, rfl, rfl⟩

/-- Closed tokens end with their closing character, and close their brackets. -/
theorem exists_of_isClosed {W : List Token} (h : isClosed W = true) :
    ∃ valued, (∃ e ∈ W.getLast?, e.isPunct (closingSign valued) = true) ∧ nests valued [] W = true := by
  obtain ⟨valued, -, hvalued⟩ := List.any_eq_true.1 h
  obtain ⟨hlast, hnests⟩ := Bool.and_eq_true_iff.1 hvalued
  refine ⟨valued, ?_, hnests⟩
  cases he : W.getLast? with
  | none => rw [he] at hlast; cases hlast
  | some e =>
    rw [he] at hlast
    exact ⟨e, rfl, hlast⟩

/-- Closed tokens that are no member of a known form ahead of one text are none ahead of another. -/
theorem knownMember_closed {W : List Token} (hdoc : ∀ t ∈ W, t.kind ≠ .docComment)
    (hclosed : isClosed W = true) (h : knownMember (W ++ X) = none) : knownMember (W ++ Y) = none := by
  obtain ⟨valued, hlast, hnests⟩ := exists_of_isClosed hclosed
  have hW : Enclosed valued [] W := ⟨hdoc, hlast, hnests⟩
  cases hY : knownMember (W ++ Y) with
  | none => rfl
  | some result =>
    -- read ahead of the second text, the member ends within the tokens, and so it does ahead of the first
    have hshares : Shares Y X valued [] (W ++ Y) (W ++ X) := ⟨W, hW, rfl, rfl⟩
    obtain hfew | ⟨rest', hX, -⟩ := (pairing_shares Y X valued).knownMember.agrees hshares hY
    · exact absurd hfew (Nat.not_lt_zero _)
    · rw [h] at hX
      cases hX

end Reader

end PhpGraft

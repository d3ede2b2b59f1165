import PhpGraft.Proofs.Syntax.Items

/-!
# Readers that agree on two lists of tokens

Two lists of tokens can start in the same way and differ further behind, in what a token is or only in
where it stands. `Agrees` says of a reader that it gives the same on both, as long as it leaves enough
tokens of the first list. What the readers of members ask of the lists for that is put down once, in
`Pairing`: one fact for each kind of token that they take, and one for each of the three loops that
count brackets. From these facts every reader up to `knownMember` is shown to agree.
-/

namespace PhpGraft

/-- A token of the same kind and text, wherever it stands. -/
structure Token.Echoes (t t' : Token) : Prop where
  /-- The kinds are the same. -/
  kind : t'.kind = t.kind
  /-- The texts are the same. -/
  text : t'.text = t.text

/-- A token has the kind and the text of one that has those of it. -/
theorem Token.Echoes.symm {t t' : Token} (h : t.Echoes t') : t'.Echoes t := ⟨h.kind.symm, h.text.symm⟩

namespace Reader

/-! ## What is seen of a token -/

/-- What depends only on the kind and the text of a token. -/
def Blind {γ : Type} (f : Token → γ) : Prop := ∀ ⦃t t'⦄, t.Echoes t' → f t' = f t

namespace Blind

variable {γ δ : Type}

/-- What does not depend on the token. -/
theorem const (x : γ) : Blind fun _ => x := fun _ _ _ => rfl

/-- What is made of something that depends only on the kind and the text. -/
theorem comp {f : Token → γ} (h : Blind f) (g : γ → δ) : Blind fun t => g (f t) :=
  fun _ _ he => congrArg g (h he)

end Blind

/-- The kind of a token. -/
theorem blind_kind : Blind Token.kind := fun _ _ h => h.kind

/-- The text of a token as a string. -/
theorem blind_source : Blind Token.source := fun _ _ h => congrArg String.ofList h.text

/-- The name of a variable. -/
theorem blind_varName : Blind Token.varName := fun t t' h => by
  rw [Token.varName, Token.varName, h.text]

/-- Being of a certain kind. -/
theorem blind_isKind (kind : TokenKind) : Blind (·.kind == kind) := blind_kind.comp (· == kind)

/-- Being a certain character. -/
theorem blind_isPunct (c : Char) : Blind (·.isPunct c) := blind_isKind (.punct c)

/-- Being a character that satisfies a test. -/
theorem blind_isPunctWhere (p : Char → Bool) : Blind (Token.isPunctWhere p) :=
  fun t t' h => by rw [Token.isPunctWhere, Token.isPunctWhere, h.kind]

/-- Being a certain keyword. -/
theorem blind_isKeyword (keyword : String) : Blind (·.isKeyword keyword) := fun t t' h => by
  dsimp only
  rw [Token.isKeyword, Token.isKeyword, blind_source h, h.kind]

/-- Opening a bracket. -/
theorem blind_isOpener : Blind Token.isOpener := fun t t' h => by
  simp only [Token.isOpener, blind_isPunct _ h, h.kind]

/-- The closing delimiter that a token is. -/
theorem blind_closer? : Blind Token.closer? := fun t t' h => by
  rw [Token.closer?, Token.closer?, h.kind]

/-- Ending the statements of a file. -/
theorem blind_isEnd : Blind Token.isEnd := fun t t' h => by rw [Token.isEnd, Token.isEnd, h.kind]

/-- The modifier that a token spells. -/
theorem modifier_eq {t t' : Token} (h : t.Echoes t') :
    (if t'.kind == .name then Modifier.ofKeyword? t'.source else none) =
      if t.kind == .name then Modifier.ofKeyword? t.source else none := by
  rw [blind_source h, h.kind]

/-! ## Agreement -/

variable {α β : Type} {m n : Nat} {R S U : List Token → List Token → Prop}

/-- A reader that gives the same on two lists that stand in `R`, and leaves lists that stand in `S`,
unless it leaves fewer than `n` tokens of the first. From `m` tokens it leaves fewer than `n`. -/
structure Agrees (m n : Nat) (R S : List Token → List Token → Prop) (r : Reader α) : Prop where
  /-- Where few tokens are left to read, fewer are left behind. -/
  shrinks : ∀ ⦃ts x rest⦄, ts.length ≤ m → r ts = some (x, rest) → rest.length < n
  /-- On lists that stand in the one relation the same is read, up to lists that stand in the other. -/
  agrees : ∀ ⦃ts ts' x rest⦄, R ts ts' → r ts = some (x, rest) →
    rest.length < n ∨ ∃ rest', r ts' = some (x, rest') ∧ S rest rest'

/-- What is behind the first token of two lists that stand in a relation, the token of the first list
satisfying a test. -/
def After (R : List Token → List Token → Prop) (p : Token → Bool) (us us' : List Token) : Prop :=
  ∃ t t', R (t :: us) (t' :: us') ∧ p t = true

/-- A reader that succeeded, with another one behind it. -/
theorem bind_some {r : Reader α} {f : α → Reader β} {ts mid : List Token} {x : α}
    (h : r ts = some (x, mid)) : (r >>= f) ts = f x mid := by
  simp only [Bind.bind, StateT.bind, h, Option.bind_some]

namespace Agrees

variable {r s : Reader α} {f : α → Reader β}

/-- An answer without reading. -/
theorem pure (x : α) : Agrees m (m + 1) R R (Pure.pure x : Reader α) where
  shrinks ts y rest hts h := by
    obtain ⟨-, rfl⟩ := Prod.mk.inj (Option.some.inj h)
    exact Nat.lt_succ_of_le hts
  agrees ts ts' y rest hts h := by
    obtain ⟨rfl, rfl⟩ := Prod.mk.inj (Option.some.inj h)
    exact .inr ⟨ts', rfl, hts⟩

/-- A reader that always fails. -/
theorem failure : Agrees m n R S (Alternative.failure : Reader α) where
  shrinks := nofun
  agrees := nofun

/-- One reader after another. -/
theorem bind (hr : Agrees m (m + 1) R S r) (hf : ∀ x, Agrees m n S U (f x)) :
    Agrees m n R U (r >>= f) where
  shrinks ts y rest hts h := by
    obtain ⟨x, mid, h₁, h₂⟩ := bind_eq_some h
    exact (hf x).shrinks (Nat.le_of_lt_succ (hr.shrinks hts h₁)) h₂
  agrees ts ts' y rest hts h := by
    obtain ⟨x, mid, h₁, h₂⟩ := bind_eq_some h
    obtain hfew | ⟨mid', h₁', hmid⟩ := hr.agrees hts h₁
    · exact .inl ((hf x).shrinks (Nat.le_of_lt_succ hfew) h₂)
    · rw [bind_some h₁']
      exact (hf x).agrees hmid h₂

/-- A reader whose answer is changed. -/
theorem map (hr : Agrees m n R S r) (g : α → β) :
    Agrees m n R S (r >>= fun x => Pure.pure (g x)) where
  shrinks ts y rest hts h := by
    obtain ⟨x, mid, h₁, h₂⟩ := bind_eq_some h
    obtain ⟨-, rfl⟩ := Prod.mk.inj (Option.some.inj h₂)
    exact hr.shrinks hts h₁
  agrees ts ts' y rest hts h := by
    obtain ⟨x, mid, h₁, h₂⟩ := bind_eq_some h
    obtain ⟨rfl, rfl⟩ := Prod.mk.inj (Option.some.inj h₂)
    obtain hfew | ⟨rest', h', hrest⟩ := hr.agrees hts h₁
    · exact .inl hfew
    · exact .inr ⟨rest', by rw [bind_some h']; rfl, hrest⟩

/-- One of two readers. -/
theorem ite {p : Prop} [Decidable p] (hr : Agrees m n R S r) (hs : Agrees m n R S s) :
    Agrees m n R S (if p then r else s) := by
  split
  · exact hr
  · exact hs

/-- A reader agrees on what stands in a relation that implies the one asked for. -/
theorem of_imp (hr : Agrees m n R S r) (h : ∀ ⦃ts ts'⦄, U ts ts' → ts.length ≤ m ∨ R ts ts') :
    Agrees m n U S r where
  shrinks := hr.shrinks
  agrees ts ts' x rest hts hread := by
    obtain hfew | hts := h hts
    · exact .inl (hr.shrinks hfew hread)
    · exact hr.agrees hts hread

end Agrees

/-! ## Lists that pair up -/

/-- A token that stands between the brackets of a declaration: a name, a variable, an ellipsis, or a
sign of a type or a list. -/
def isLink (t : Token) : Bool :=
  t.kind == .name || t.kind == .var || t.kind == .ellipsis ||
    t.isPunctWhere fun c => c == '?' || c == '&' || c == '|' || c == ',' || c == ':'

/-- What the readers of members ask of two lists of tokens to agree on them. `R` relates lists inside
brackets whose closing delimiters are due, the innermost first, and `E` the lists behind a
member; no more than `m` tokens of a first list are outside what is compared. -/
structure Pairing (m : Nat) (R : List Char → List Token → List Token → Prop)
    (E : List Token → List Token → Prop) : Prop where
  /-- Both lists start with a token of the same kind and text, which is no doc comment. -/
  head : ∀ ⦃due ts ts'⦄, R due ts ts' → ∃ t us t' us', ts = t :: us ∧ ts' = t' :: us' ∧
    t.Echoes t' ∧ t.kind ≠ .docComment
  /-- Tokens between brackets can be taken. -/
  link : ∀ ⦃due us us'⦄, After (R due) isLink us us' → R due us us'
  /-- The opening of an attribute list can be taken. -/
  list : ∀ ⦃due us us'⦄, After (R due) (·.kind == .attributeOpen) us us' →
    R (']' :: due) us us'
  /-- An opening parenthesis can be taken. -/
  paren : ∀ ⦃due us us'⦄, After (R due) (·.isPunct '(') us us' → R (')' :: due) us us'
  /-- A closing delimiter can be taken. -/
  close : ∀ ⦃c due us us'⦄, c = ')' ∨ c = ']' → After (R (c :: due)) (·.isPunct c) us us' →
    us.length ≤ m ∨ R due us us'
  /-- The arguments of an attribute agree. -/
  arguments : ∀ due, Agrees m (m + 1) (After (R due) (·.isPunct '(')) (R due) (attributeArgs? [] 0)
  /-- Values agree; one that stands in no brackets is ended by a semicolon. -/
  value : ∀ ⦃due stop⦄, (due = [] → stop ';' = true) →
    Agrees m (m + 1) (After (R due) (·.isPunct '=')) (R due) (expression stop)
  /-- The source between the braces of a member agrees. -/
  block : Agrees m m (After (R []) (·.isPunct '{')) E (blockSource? 0)
  /-- A semicolon ends a member. -/
  finish : ∀ ⦃us us'⦄, After (R []) (·.isPunct ';') us us' → us.length < m ∨ E us us'

namespace Pairing

variable {R : List Char → List Token → List Token → Prop} {E : List Token → List Token → Prop}
  {due : List Char} {p : Token → Bool}

variable (h : Pairing m R E)
include h

/-- The next tokens of two lists are of the same kind and text. -/
theorem peek {ts ts' : List Token} (hts : R due ts ts') : (peek ts).Echoes (peek ts') := by
  obtain ⟨t, us, t', us', rfl, rfl, hecho, hdoc⟩ := h.head hts
  rwa [peek_cons hdoc, peek_cons (hecho.kind ▸ hdoc)]

/-- What is seen of the next token of either list is the same. -/
theorem peek_eq {γ : Type} {f : Token → γ} (hf : Blind f) {ts ts' : List Token} (hts : R due ts ts') :
    f (Reader.peek ts') = f (Reader.peek ts) := hf (h.peek hts)

/-- What is behind the next token stands behind it in both lists. -/
theorem after {ts ts' : List Token} (hts : R due ts ts') (hp : p (Reader.peek ts) = true) :
    After (R due) p (advance ts) (advance ts') := by
  obtain ⟨t, us, t', us', rfl, rfl, hecho, hdoc⟩ := h.head hts
  rw [peek_cons hdoc] at hp
  rw [advance_cons hdoc, advance_cons (hecho.kind ▸ hdoc)]
  exact ⟨t, t', hts, hp⟩

/-- A token of either list is left in place. -/
theorem look {f : Token → Reader β} (hf : Blind f) (hread : ∀ t, Agrees m n (R due) U (f t)) :
    Agrees m n (R due) U (look >>= f) where
  shrinks ts x rest hts hx := (hread _).shrinks hts hx
  agrees ts ts' x rest hts hx := by
    rw [look_bind, h.peek_eq hf hts]
    exact (hread _).agrees hts hx

/-- A token that has to be there. -/
theorem expect {f : Token → Reader β} (hp : Blind p) (hf : Blind f)
    (hread : ∀ t, Agrees m n (After (R due) p) U (f t)) :
    Agrees m n (R due) U (expect p >>= f) where
  shrinks ts x rest hts hx := by
    obtain ⟨t, mid, ht, hx⟩ := bind_eq_some hx
    refine (hread t).shrinks ?_ hx
    unfold Reader.expect at ht
    split at ht
    · obtain ⟨-, rfl⟩ := Prod.mk.inj (Option.some.inj ht)
      exact Nat.le_trans (length_advance_le ts) hts
    · cases ht
  agrees ts ts' x rest hts hx := by
    obtain ⟨t, mid, ht, hx⟩ := bind_eq_some hx
    unfold Reader.expect at ht
    split at ht
    · next hpeek =>
      obtain ⟨rfl, rfl⟩ := Prod.mk.inj (Option.some.inj ht)
      have ht' : Reader.expect p ts' = some (Reader.peek ts', advance ts') :=
        if_pos ((h.peek_eq hp hts).trans hpeek)
      rw [bind_some ht', h.peek_eq hf hts]
      exact (hread _).agrees (h.after hts hpeek) hx
    · cases ht

/-- A token that may be there. -/
theorem eat {f : Bool → Reader β} (hp : Blind p) (htrue : Agrees m n (After (R due) p) U (f true))
    (hfalse : Agrees m n (R due) U (f false)) : Agrees m n (R due) U (eat p >>= f) where
  shrinks ts x rest hts hx := by
    obtain ⟨taken, mid, ht, hx⟩ := bind_eq_some hx
    have hmid := Nat.le_trans (neverGrows_eat p ht) hts
    cases taken with
    | false => exact hfalse.shrinks hmid hx
    | true => exact htrue.shrinks hmid hx
  agrees ts ts' x rest hts hx := by
    obtain ⟨taken, mid, ht, hx⟩ := bind_eq_some hx
    unfold Reader.eat at ht
    split at ht
    · next hpeek =>
      obtain ⟨rfl, rfl⟩ := Prod.mk.inj (Option.some.inj ht)
      have ht' : Reader.eat p ts' = some (true, advance ts') :=
        if_pos ((h.peek_eq hp hts).trans hpeek)
      rw [bind_some ht']
      exact htrue.agrees (h.after hts hpeek) hx
    · next hpeek =>
      obtain ⟨rfl, rfl⟩ := Prod.mk.inj (Option.some.inj ht)
      have ht' : Reader.eat p ts' = some (false, ts') :=
        if_neg fun hp' => hpeek ((h.peek_eq hp hts).symm.trans hp')
      rw [bind_some ht']
      exact hfalse.agrees hts hx

/-- A character that has to be there. -/
theorem expectPunct {c : Char} {f : Unit → Reader β}
    (hread : Agrees m n (After (R due) (·.isPunct c)) U (f ())) :
    Agrees m n (R due) U (expectPunct c >>= f) := by
  have hbind : (Reader.expectPunct c >>= f) = (Reader.expect (·.isPunct c) >>= fun _ => f ()) := by
    rw [Reader.expectPunct, bind_assoc]
    rfl
  rw [hbind]
  exact h.expect (blind_isPunct c) (.const _) fun _ => hread

/-- A semicolon that has to end a member. -/
theorem expectFinish (x : α) : Agrees m m (R []) E (Reader.expectPunct ';' >>= fun _ => Pure.pure x) where
  shrinks ts y rest hts hx := by
    obtain ⟨_, mid, hmid, hx⟩ := bind_eq_some hx
    obtain ⟨-, rfl⟩ := Prod.mk.inj (Option.some.inj hx)
    exact Nat.lt_of_lt_of_le (advances_expectPunct ';' hmid) hts
  agrees ts ts' y rest hts hx := by
    obtain ⟨_, mid, hmid, hx⟩ := bind_eq_some hx
    obtain ⟨rfl, rfl⟩ := Prod.mk.inj (Option.some.inj hx)
    obtain ⟨t, mid, ht, hunit⟩ := bind_eq_some hmid
    obtain ⟨-, rfl⟩ := Prod.mk.inj (Option.some.inj hunit)
    unfold Reader.expect at ht
    split at ht
    · next hpeek =>
      obtain ⟨-, rfl⟩ := Prod.mk.inj (Option.some.inj ht)
      refine (h.finish (h.after hts hpeek)).imp id fun hend => ⟨advance ts', ?_, hend⟩
      have ht' : Reader.expect (·.isPunct ';') ts' = some (Reader.peek ts', advance ts') :=
        if_pos ((h.peek_eq (blind_isPunct ';') hts).trans hpeek)
      rw [Reader.expectPunct, bind_assoc, bind_some ht']
      rfl
    · cases ht

/-! ### Names, variables and signs -/

/-- A link can be taken where it comes next. -/
theorem advance_link {ts ts' : List Token} (hts : R due ts ts') (hp : isLink (Reader.peek ts) = true) :
    R due (advance ts) (advance ts') := h.link (h.after hts hp)

/-- A link that has to be there. -/
theorem expectLink {f : Token → β} (hp : Blind p) (hf : Blind f)
    (hlink : ∀ t, p t = true → isLink t = true) :
    Agrees m (m + 1) (R due) (R due) (Reader.expect p >>= fun t => Pure.pure (f t)) :=
  h.expect hp (hf.comp _) fun t => (Agrees.pure (f t)).of_imp fun _ _ ⟨u, u', hts, hu⟩ =>
    .inr (h.link ⟨u, u', hts, hlink u hu⟩)

/-- A link that may be there. -/
theorem eatLink {f : Bool → Reader β} (hp : Blind p) (hlink : ∀ t, p t = true → isLink t = true)
    (hread : ∀ taken, Agrees m n (R due) U (f taken)) : Agrees m n (R due) U (Reader.eat p >>= f) :=
  h.eat hp ((hread true).of_imp fun _ _ ⟨u, u', hts, hu⟩ => .inr (h.link ⟨u, u', hts, hlink u hu⟩))
    (hread false)

omit h in
/-- A name is a link. -/
theorem isLink_of_name {t : Token} (ht : (t.kind == .name) = true) : isLink t = true := by
  rw [isLink, ht]
  rfl

omit h in
/-- A keyword is a link. -/
theorem isLink_of_isKeyword {t : Token} {keyword : String} (ht : t.isKeyword keyword = true) :
    isLink t = true := isLink_of_name (Bool.and_eq_true_iff.1 ht).1

omit h in
/-- The signs of types and lists are links. -/
theorem isLink_of_isPunct {t : Token} {c : Char}
    (hc : (c == '?' || c == '&' || c == '|' || c == ',' || c == ':') = true) (ht : t.isPunct c = true) :
    isLink t = true := by
  have hkind : t.kind = .punct c := eq_of_beq ht
  rw [isLink, Token.isPunctWhere, hkind]
  exact Bool.or_eq_true_iff.2 (.inr hc)

/-- A name. -/
theorem name : Agrees m (m + 1) (R due) (R due) name :=
  h.expectLink (blind_isKind .name) blind_source fun _ => isLink_of_name

/-- A variable. -/
theorem variableName : Agrees m (m + 1) (R due) (R due) variableName :=
  h.expectLink (blind_isKind .var) blind_varName fun t ht => by simp [isLink, eq_of_beq ht]

omit h in
/-- The keyword of a modifier is a link. -/
theorem isLink_of_modifier {t : Token} {modifier : Modifier}
    (hm : (if t.kind == .name then Modifier.ofKeyword? t.source else none) = some modifier) :
    isLink t = true := by
  split at hm
  · next hname => exact isLink_of_name hname
  · cases hm

/-! ### Lists, attributes and types -/

/-- The things of a list are taken from both. -/
theorem agrees_commaList {item : Reader α} {hitem : Advances item}
    (hread : Agrees m (m + 1) (R due) (R due) item) {ts ts' rest : List Token} {xs : List α}
    (hts : R due ts ts') (hxs : Reader.commaList item hitem ts = some (xs, rest)) :
    rest.length < m + 1 ∨ ∃ rest', Reader.commaList item hitem ts' = some (xs, rest') ∧
      R due rest rest' := by
  unfold Reader.commaList at hxs
  split at hxs
  · cases hxs
  · next x mid hx =>
    have hshorter := hitem hx
    have hbehind := length_advance_le mid
    obtain hfew | ⟨mid', hx', hmid⟩ := hread.agrees hts hx
    · -- few tokens are left already behind the first thing
      left
      repeat' split at hxs
      · cases hxs
      · next ys last hys =>
        obtain ⟨-, rfl⟩ := Prod.mk.inj (Option.some.inj hxs)
        have := advances_commaList hitem hys
        omega
      · obtain ⟨-, rfl⟩ := Prod.mk.inj (Option.some.inj hxs)
        exact hfew
    · have hpeek := h.peek_eq (blind_isPunct ',') hmid
      split at hxs
      · next hcomma =>
        split at hxs
        · cases hxs
        · next ys last hys =>
          obtain ⟨rfl, rfl⟩ := Prod.mk.inj (Option.some.inj hxs)
          have hmore := h.advance_link hmid (isLink_of_isPunct rfl hcomma)
          obtain hfew | ⟨rest', hys', hrest⟩ := agrees_commaList hread hmore hys
          · exact .inl hfew
          · exact .inr ⟨rest', commaList_cons hx' (hpeek.trans hcomma) hys', hrest⟩
      · next hcomma =>
        obtain ⟨rfl, rfl⟩ := Prod.mk.inj (Option.some.inj hxs)
        exact .inr ⟨mid', commaList_last hx' (hpeek.trans (Bool.eq_false_iff.2 hcomma)), hmid⟩
termination_by ts.length

/-- One or more things with commas between them. -/
theorem commaList {item : Reader α} {hitem : Advances item}
    (hread : Agrees m (m + 1) (R due) (R due) item) :
    Agrees m (m + 1) (R due) (R due) (commaList item hitem) where
  shrinks ts xs rest hts hxs := by
    have := advances_commaList hitem hxs
    omega
  agrees _ _ _ _ := h.agrees_commaList hread

/-- A group of things up to its semicolon. -/
theorem group {item : Reader α} {hitem : Advances item} (hread : Agrees m (m + 1) (R []) (R []) item) :
    Agrees m m (R []) E (group item hitem) :=
  (h.commaList hread).bind fun xs => h.expectFinish xs

/-- An attribute. -/
theorem singleAttribute : Agrees m (m + 1) (R due) (R due) singleAttribute :=
  h.name.bind fun _ => h.eat (blind_isPunct '(') ((h.arguments due).map _) (.pure _)

omit h in
/-- What is read of an attribute list behind its first attribute. -/
theorem attributeList_of_single {ts mid : List Token} {a : Attribute}
    (ha : Reader.singleAttribute ts = some (a, mid)) :
    attributeList ts =
      if (Reader.peek mid).isPunct ']' then some ([a], advance mid)
      else if (Reader.peek mid).isPunct ',' then
        if (Reader.peek (advance mid)).isPunct ']' then some ([a], advance (advance mid))
        else (attributeList (advance mid)).map fun parts => (a :: parts.1, parts.2)
      else none := by
  conv => lhs; unfold attributeList
  split
  · next hnone => rw [ha] at hnone; cases hnone
  · next b rest hb =>
    obtain ⟨rfl, rfl⟩ := Prod.mk.inj (Option.some.inj (ha.symm.trans hb))
    rfl

/-- The attributes of a list are taken from both. -/
theorem agrees_attributeList {ts ts' rest : List Token} {as : List Attribute}
    (hts : R (']' :: due) ts ts') (has : attributeList ts = some (as, rest)) :
    rest.length < m + 1 ∨ ∃ rest', attributeList ts' = some (as, rest') ∧ R due rest rest' := by
  obtain ⟨a, mid, ha⟩ : ∃ a mid, Reader.singleAttribute ts = some (a, mid) := by
    unfold attributeList at has
    split at has
    · cases has
    · next a mid ha => exact ⟨a, mid, ha⟩
  have hshorter := advances_singleAttribute ha
  have hbehind := length_advance_le mid
  have hbehind' := length_advance_le (advance mid)
  rw [attributeList_of_single ha] at has
  obtain hfew | ⟨mid', ha', hmid⟩ := h.singleAttribute.agrees hts ha
  · -- what is left behind the list is shorter still
    left
    repeat' split at has
    · obtain ⟨-, rfl⟩ := Prod.mk.inj (Option.some.inj has)
      omega
    · obtain ⟨-, rfl⟩ := Prod.mk.inj (Option.some.inj has)
      omega
    · obtain ⟨parts, hmore, he⟩ := Option.map_eq_some_iff.1 has
      obtain ⟨-, rfl⟩ := Prod.mk.inj he
      have := advances_attributeList hmore
      omega
    · cases has
  · rw [attributeList_of_single ha', h.peek_eq (blind_isPunct ']') hmid,
      h.peek_eq (blind_isPunct ',') hmid]
    split at has
    · next hclose =>
      obtain ⟨rfl, rfl⟩ := Prod.mk.inj (Option.some.inj has)
      rw [if_pos hclose]
      exact (h.close (by decide) (h.after hmid hclose)).imp Nat.lt_succ_of_le fun hrest => ⟨_, rfl, hrest⟩
    next hclose =>
    rw [if_neg hclose]
    split at has
    · next hcomma =>
      have hmore := h.advance_link hmid (isLink_of_isPunct rfl hcomma)
      rw [if_pos hcomma, h.peek_eq (blind_isPunct ']') hmore]
      split at has
      · next hlast =>
        obtain ⟨rfl, rfl⟩ := Prod.mk.inj (Option.some.inj has)
        rw [if_pos hlast]
        exact (h.close (by decide) (h.after hmore hlast)).imp Nat.lt_succ_of_le
          fun hrest => ⟨_, rfl, hrest⟩
      · next hlast =>
        obtain ⟨parts, hparts, he⟩ := Option.map_eq_some_iff.1 has
        obtain ⟨rfl, rfl⟩ := Prod.mk.inj he
        rw [if_neg hlast]
        obtain hfew | ⟨rest', hparts', hrest⟩ := agrees_attributeList hmore hparts
        · exact .inl hfew
        · exact .inr ⟨rest', by rw [hparts']; rfl, hrest⟩
    · cases has
termination_by ts.length

/-- The attribute lists ahead of a declaration. -/
theorem agrees_attributes {ts ts' rest : List Token} {as : List Attribute} (hts : R due ts ts')
    (has : attributes ts = some (as, rest)) :
    rest.length < m + 1 ∨ ∃ rest', attributes ts' = some (as, rest') ∧ R due rest rest' := by
  have hpeek := h.peek_eq (blind_isKind .attributeOpen) hts
  unfold attributes at has ⊢
  split at has
  · next hopen =>
    rw [if_pos (hpeek.trans hopen)]
    split at has
    · cases has
    next found mid hfound =>
    have hshorter := advances_attributeList hfound
    have hbehind := length_advance_le ts
    obtain ⟨parts, hparts, he⟩ := Option.map_eq_some_iff.1 has
    obtain ⟨rfl, rfl⟩ := Prod.mk.inj he
    have hlist := h.list (h.after (p := (·.kind == .attributeOpen)) hts hopen)
    obtain hfew | ⟨mid', hfound', hmid⟩ := h.agrees_attributeList hlist hfound
    · have := neverGrows_attributes hparts
      omega
    · -- behind the first list the others are read of fewer tokens
      split
      · next hnone => rw [hfound'] at hnone; cases hnone
      · next found' last hlast =>
        obtain ⟨rfl, rfl⟩ := Prod.mk.inj (Option.some.inj (hfound'.symm.trans hlast))
        obtain hfew | ⟨rest', hparts', hrest⟩ := agrees_attributes hmid hparts
        · exact .inl hfew
        · exact .inr ⟨rest', by rw [hparts']; rfl, hrest⟩
  · next hopen =>
    obtain ⟨rfl, rfl⟩ := Prod.mk.inj (Option.some.inj has)
    rw [if_neg fun ho => hopen (hpeek.symm.trans ho)]
    exact .inr ⟨ts', rfl, hts⟩
termination_by ts.length

/-- The attribute lists ahead of a declaration. -/
theorem attributes : Agrees m (m + 1) (R due) (R due) attributes where
  shrinks _ _ _ hts has := Nat.lt_succ_of_le (Nat.le_trans (neverGrows_attributes has) hts)
  agrees _ _ _ _ := h.agrees_attributes

omit h in
/-- What continues a type, by the next token and the one behind it. -/
theorem typeNames_cons {t : Token} (hdoc : t.kind ≠ .docComment) (soFar : String) (us : List Token) :
    typeNames soFar (t :: us) =
      if (t.isPunct '|' || (t.isPunct '&' && (Reader.peek us).kind == .name)) = true then
        if ((Reader.peek us).kind == .name) = true then
          typeNames (soFar ++ t.source ++ (Reader.peek us).source) (advance us)
        else none
      else some (soFar, t :: us) := by
  have hskip : skipDocs (t :: us) = t :: us := List.dropWhile_cons_of_neg (by simp [isDoc, hdoc])
  conv => lhs; unfold typeNames
  split
  · next hnil => rw [hskip] at hnil; cases hnil
  · next u rest hu =>
    obtain ⟨rfl, rfl⟩ := List.cons.inj (hskip.symm.trans hu)
    rfl

/-- What continues a type is taken from both. -/
theorem agrees_typeNames {soFar names : String} {ts ts' rest : List Token} (hts : R due ts ts')
    (hnames : typeNames soFar ts = some (names, rest)) :
    ∃ rest', typeNames soFar ts' = some (names, rest') ∧ R due rest rest' := by
  obtain ⟨t, us, t', us', rfl, rfl, hecho, hdoc⟩ := h.head hts
  have hand := blind_isPunct '&' hecho
  have hor := blind_isPunct '|' hecho
  dsimp only at hand hor
  rw [typeNames_cons hdoc] at hnames
  rw [typeNames_cons (hecho.kind ▸ hdoc), hand, hor, blind_source hecho]
  by_cases hsign : t.isPunct '|' = true ∨ t.isPunct '&' = true
  · -- behind the sign both lists go on with the same token
    have hlink : isLink t = true :=
      hsign.elim (isLink_of_isPunct rfl) (isLink_of_isPunct rfl)
    have hus : R due us us' := h.link ⟨t, t', hts, hlink⟩
    rw [h.peek_eq (blind_isKind .name) hus, h.peek_eq blind_source hus]
    split at hnames
    · next hmore =>
      rw [if_pos hmore]
      split at hnames
      · next hname =>
        rw [if_pos hname]
        have hshorter : (advance us).length < (t :: us).length :=
          Nat.lt_succ_of_le (length_advance_le us)
        exact agrees_typeNames (h.advance_link hus (isLink_of_name hname)) hnames
      · cases hnames
    · next hmore =>
      obtain ⟨rfl, rfl⟩ := Prod.mk.inj (Option.some.inj hnames)
      rw [if_neg hmore]
      exact ⟨_, rfl, hts⟩
  · -- the first token alone shows that the type is over
    have hno (v : Token) : ¬ (t.isPunct '|' || (t.isPunct '&' && v.kind == .name)) = true := by
      rw [Bool.or_eq_true, Bool.and_eq_true]
      exact fun hmore => hsign (hmore.imp id And.left)
    rw [if_neg (hno _)] at hnames ⊢
    obtain ⟨rfl, rfl⟩ := Prod.mk.inj (Option.some.inj hnames)
    exact ⟨_, rfl, hts⟩
termination_by ts.length

/-- A type. -/
theorem typeHint : Agrees m (m + 1) (R due) (R due) typeHint := by
  have hnames (soFar : String) : Agrees m (m + 1) (R due) (R due) (typeNames soFar) :=
    { shrinks := fun _ _ _ hts hx => Nat.lt_succ_of_le (Nat.le_trans (neverGrows_typeNames _ hx) hts)
      agrees := fun _ _ _ _ hts hx => .inr (h.agrees_typeNames hts hx) }
  exact h.eatLink (blind_isPunct '?') (fun _ => isLink_of_isPunct rfl) fun _ =>
    h.name.bind fun _ => (hnames _).map _

/-- A type where there is one. -/
theorem typeUnless {bare : Token → Bool} (hbare : Blind bare) :
    Agrees m (m + 1) (R due) (R due) (typeUnless bare) :=
  h.look (fun _ _ he => by rw [hbare he]) fun _ => .ite (.pure _) (h.typeHint.map _)

/-! ### Members -/

/-- A value behind an equals sign, where there is one. -/
theorem defaultValue {stop : Char → Bool} (hstop : due = [] → stop ';' = true) :
    Agrees m (m + 1) (R due) (R due) (defaultValue stop) :=
  h.eat (blind_isPunct '=') ((h.value hstop).map _) (.pure _)

/-- The modifiers ahead of a member are passed over in both. -/
theorem modifiersAhead (found : Modifiers) (var : Bool) {ts ts' : List Token} (hts : R due ts ts') :
    ∃ rest', modifiersAhead found var ts' = ((Reader.modifiersAhead found var ts).1, rest') ∧
      R due (Reader.modifiersAhead found var ts).2 rest' := by
  induction ts generalizing ts' found var with
  | nil =>
    obtain ⟨_, _, _, _, hcons, -⟩ := h.head hts
    cases hcons
  | cons t us ih =>
    obtain ⟨_, _, t', us', hcons, rfl, hecho, hdoc⟩ := h.head hts
    obtain ⟨rfl, rfl⟩ := List.cons.inj hcons
    have hus (hlink : isLink t = true) : R due us us' := h.link ⟨t, t', hts, hlink⟩
    have hdoc₁ : ¬ isDoc t = true := by simp [isDoc, hdoc]
    have hdoc₂ : ¬ isDoc t' = true := by simp [isDoc, hecho.kind, hdoc]
    have hvar' : t'.isKeyword "var" = t.isKeyword "var" := blind_isKeyword "var" hecho
    rw [Reader.modifiersAhead, Reader.modifiersAhead, if_neg hdoc₁, if_neg hdoc₂, hvar']
    by_cases hvar : t.isKeyword "var" = true
    · rw [if_pos hvar, if_pos hvar]
      exact ih _ _ (hus (isLink_of_isKeyword hvar))
    rw [if_neg hvar, if_neg hvar, modifier_eq hecho]
    cases hm : (if t.kind == .name then Modifier.ofKeyword? t.source else none) with
    | none => exact ⟨_, rfl, hts⟩
    | some modifier => exact ih _ _ (hus (isLink_of_modifier hm))

/-- The modifiers of a member. -/
theorem modifiers : Agrees m (m + 1) (R due) (R due) modifiers where
  shrinks _ _ _ hts hx := Nat.lt_succ_of_le (Nat.le_trans (neverGrows_modifiers hx) hts)
  agrees ts ts' found rest hts hx := by
    have hahead : Reader.modifiersAhead .none false ts = (found, rest) := Option.some.inj hx
    obtain ⟨rest', hrest', hrest⟩ := h.modifiersAhead .none false hts
    rw [hahead] at hrest' hrest
    exact .inr ⟨rest', congrArg some hrest', hrest⟩

/-- The modifiers ahead of a parameter are passed over in both. -/
theorem promotionAhead (found : Modifiers) {ts ts' : List Token} (hts : R due ts ts') :
    ∃ rest', promotionAhead found ts' = ((Reader.promotionAhead found ts).1, rest') ∧
      R due (Reader.promotionAhead found ts).2 rest' := by
  induction ts generalizing ts' found with
  | nil =>
    obtain ⟨_, _, _, _, hcons, -⟩ := h.head hts
    cases hcons
  | cons t us ih =>
    obtain ⟨_, _, t', us', hcons, rfl, hecho, hdoc⟩ := h.head hts
    obtain ⟨rfl, rfl⟩ := List.cons.inj hcons
    have hdoc₁ : ¬ isDoc t = true := by simp [isDoc, hdoc]
    have hdoc₂ : ¬ isDoc t' = true := by simp [isDoc, hecho.kind, hdoc]
    rw [Reader.promotionAhead, Reader.promotionAhead, if_neg hdoc₁, if_neg hdoc₂, modifier_eq hecho]
    cases hm : (if t.kind == .name then Modifier.ofKeyword? t.source else none) with
    | none => exact ⟨_, rfl, hts⟩
    | some modifier => exact ih _ (h.link ⟨t, t', hts, isLink_of_modifier hm⟩)

/-- The modifiers that make a parameter a property. -/
theorem promotion : Agrees m (m + 1) (R due) (R due) promotion where
  shrinks _ _ _ hts hx := Nat.lt_succ_of_le (Nat.le_trans (neverGrows_promotion hx) hts)
  agrees ts ts' found rest hts hx := by
    have hahead : Reader.promotionAhead .none ts = (found, rest) := Option.some.inj hx
    obtain ⟨rest', hrest', hrest⟩ := h.promotionAhead .none hts
    rw [hahead] at hrest' hrest
    exact .inr ⟨rest', congrArg some hrest', hrest⟩

/-- A parameter. -/
theorem param : Agrees m (m + 1) (R (')' :: due)) (R (')' :: due)) param := by
  have hbare : Blind startsBareParam := fun _ _ he => by
    simp only [startsBareParam, he.kind, blind_isPunct _ he]
  exact h.attributes.bind fun _ => h.promotion.bind fun _ => (h.typeUnless hbare).bind fun _ =>
    h.eatLink (blind_isPunct '&') (fun _ => isLink_of_isPunct rfl) fun _ =>
      h.eatLink (blind_isKind .ellipsis) (fun t ht => by simp [isLink, eq_of_beq ht]) fun _ =>
        h.variableName.bind fun _ => (h.defaultValue fun hnil => absurd hnil (List.cons_ne_nil _ _)).map _

/-- The parameters of a method are taken from both. -/
theorem agrees_params {ts ts' rest : List Token} {ps : List Param} (hts : R (')' :: due) ts ts')
    (hps : params ts = some (ps, rest)) :
    rest.length < m + 1 ∨ ∃ rest', params ts' = some (ps, rest') ∧ R due rest rest' := by
  have hclose' := h.peek_eq (blind_isPunct ')') hts
  unfold params at hps
  split at hps
  · next hclose =>
    obtain ⟨rfl, rfl⟩ := Prod.mk.inj (Option.some.inj hps)
    refine (h.close (by decide) (h.after hts hclose)).imp Nat.lt_succ_of_le fun hrest => ?_
    exact ⟨_, params_close (hclose'.trans hclose), hrest⟩
  next hclose =>
  split at hps
  · cases hps
  next p mid hp =>
  have hnot : (Reader.peek ts').isPunct ')' = false := hclose'.trans (Bool.eq_false_iff.2 hclose)
  have hshorter := advances_param hp
  have hbehind := length_advance_le mid
  obtain hfew | ⟨mid', hp', hmid⟩ := h.param.agrees hts hp
  · -- what is left behind the parameters is shorter still
    left
    repeat' split at hps
    · obtain ⟨-, rfl⟩ := Prod.mk.inj (Option.some.inj hps)
      omega
    · obtain ⟨parts, hmore, he⟩ := Option.map_eq_some_iff.1 hps
      obtain ⟨-, rfl⟩ := Prod.mk.inj he
      have := neverGrows_params hmore
      omega
    · cases hps
  · have hlast' := h.peek_eq (blind_isPunct ')') hmid
    have hcomma' := h.peek_eq (blind_isPunct ',') hmid
    split at hps
    · next hlast =>
      obtain ⟨rfl, rfl⟩ := Prod.mk.inj (Option.some.inj hps)
      refine (h.close (by decide) (h.after hmid hlast)).imp Nat.lt_succ_of_le fun hrest => ?_
      exact ⟨_, params_last hnot hp' (hlast'.trans hlast), hrest⟩
    next hlast =>
    split at hps
    · next hcomma =>
      obtain ⟨parts, hparts, he⟩ := Option.map_eq_some_iff.1 hps
      obtain ⟨rfl, rfl⟩ := Prod.mk.inj he
      have hmore := h.advance_link hmid (isLink_of_isPunct rfl hcomma)
      obtain hfew | ⟨rest', hparts', hrest⟩ := agrees_params hmore hparts
      · exact .inl hfew
      · have hmid' := hlast'.trans (Bool.eq_false_iff.2 hlast)
        exact .inr ⟨rest', params_cons hnot hp' hmid' (hcomma'.trans hcomma) hparts', hrest⟩
    · cases hps
termination_by ts.length

/-- The parameters of a method. -/
theorem params : Agrees m (m + 1) (R (')' :: due)) (R due) params where
  shrinks _ _ _ hts hx := Nat.lt_succ_of_le (Nat.le_trans (neverGrows_params hx) hts)
  agrees _ _ _ _ := h.agrees_params

/-- The type of a result. -/
theorem returnType : Agrees m (m + 1) (R due) (R due) returnType :=
  h.eatLink (blind_isPunct ':') (fun _ => isLink_of_isPunct rfl) fun _ =>
    .ite (h.typeHint.map _) (.pure _)

/-- A semicolon that ends a member where it comes next. -/
theorem eatFinish {f : Bool → Reader β} {x : β} (hx : f true = Pure.pure x)
    (hread : Agrees m m (R []) E (f false)) : Agrees m m (R []) E (eatPunct ';' >>= f) where
  shrinks ts y rest hts hy := by
    obtain ⟨taken, mid, ht, hy⟩ := bind_eq_some hy
    unfold eatPunct Reader.eat at ht
    split at ht
    · next hpeek =>
      obtain ⟨rfl, rfl⟩ := Prod.mk.inj (Option.some.inj ht)
      rw [hx] at hy
      obtain ⟨-, rfl⟩ := Prod.mk.inj (Option.some.inj hy)
      exact Nat.lt_of_lt_of_le (length_advance_lt_of (p := (·.isPunct ';')) rfl hpeek) hts
    · obtain ⟨rfl, rfl⟩ := Prod.mk.inj (Option.some.inj ht)
      exact hread.shrinks hts hy
  agrees ts ts' y rest hts hy := by
    have hpeek' := h.peek_eq (blind_isPunct ';') hts
    obtain ⟨taken, mid, ht, hy⟩ := bind_eq_some hy
    unfold eatPunct Reader.eat at ht
    split at ht
    · next hpeek =>
      obtain ⟨rfl, rfl⟩ := Prod.mk.inj (Option.some.inj ht)
      rw [hx] at hy
      obtain ⟨rfl, rfl⟩ := Prod.mk.inj (Option.some.inj hy)
      have ht' : eatPunct ';' ts' = some (true, advance ts') := if_pos (hpeek'.trans hpeek)
      rw [bind_some ht', hx]
      exact (h.finish (h.after hts hpeek)).imp id fun hend => ⟨_, rfl, hend⟩
    · next hpeek =>
      obtain ⟨rfl, rfl⟩ := Prod.mk.inj (Option.some.inj ht)
      have ht' : eatPunct ';' ts' = some (false, ts') :=
        if_neg fun hpunct => hpeek (hpeek'.symm.trans hpunct)
      rw [bind_some ht']
      exact hread.agrees hts hy

/-- A block, or a semicolon in its place. -/
theorem blockOrNone : Agrees m m (R []) E blockOrNone := by
  have hblock : Agrees m m (R []) E Reader.block := h.expectPunct (h.block.map _)
  exact h.eatFinish rfl (hblock.map _)

/-- A method behind its modifiers. -/
theorem method (modifiers : Modifiers) : Agrees m m (R []) E (method modifiers) := by
  -- the parenthesis opens a bracket, which the reader of the parameters closes
  have hbehind : ∀ byRef name, Agrees m m (R []) E (do
      Reader.expectPunct '('
      let params ← Reader.params
      let returns? ← Reader.returnType
      let body? ← Reader.blockOrNone
      return { name, modifiers, byRef, params, returns?, body? : MethodDecl }) := fun _ _ =>
    h.expectPunct <| (h.params.bind fun _ => h.returnType.bind fun _ => h.blockOrNone.map _).of_imp
      fun _ _ hus => .inr (h.paren hus)
  refine h.expect (blind_isKeyword "function") (.const _) fun _ => Agrees.of_imp (R := R []) ?_ ?_
  · exact h.eatLink (blind_isPunct '&') (fun _ => isLink_of_isPunct rfl) fun _ =>
      h.name.bind fun _ => hbehind _ _
  · exact fun us us' ⟨t, t', hts, ht⟩ => .inr (h.link ⟨t, t', hts, isLink_of_isKeyword ht⟩)

/-- A group of constants. -/
theorem constants (modifiers : Modifiers) : Agrees m m (R []) E (constants modifiers) :=
  h.group (h.name.bind fun _ => h.expectPunct ((h.value fun _ => rfl).map _))

/-- A group of properties. -/
theorem properties (modifiers : Modifiers) : Agrees m m (R []) E (properties modifiers) :=
  (h.typeUnless (blind_isKind .var)).bind fun _ =>
    h.group (h.variableName.bind fun _ => (h.defaultValue fun _ => rfl).map _)

/-- The traits that a class uses. -/
theorem traitUse : Agrees m m (R []) E traitUse :=
  (h.commaList h.name).bind fun _ => h.blockOrNone.map _

/-- A constant, a method or properties behind their modifiers. -/
theorem modifiedKinds (modifiers : Modifiers) (var : Bool) :
    Agrees m m (R []) E (modifiedKinds modifiers var) := by
  refine h.eatLink (blind_isKeyword "const") (fun _ => isLink_of_isKeyword) fun _ =>
    .ite ((h.constants modifiers).map _) ?_
  refine h.look (fun t t' he => ?_) fun _ => .ite ((h.method modifiers).map _) ?_
  · rw [show t'.isKeyword "function" = t.isKeyword "function" from blind_isKeyword "function" he]
  · exact .ite .failure ((h.properties modifiers).map _)

/-- A member behind its attributes. -/
theorem memberKinds : Agrees m m (R []) E memberKinds :=
  h.eatLink (blind_isKeyword "use") (fun _ => isLink_of_isKeyword) fun _ =>
    .ite (h.traitUse.map _) (h.modifiers.bind fun _ => h.modifiedKinds _ _)

/-- The doc comment and the attributes ahead of a declaration. -/
theorem preamble : Agrees m (m + 1) (R due) (R due) preamble where
  shrinks _ _ _ hts hx := Nat.lt_succ_of_le (Nat.le_trans (neverGrows_preamble hx) hts)
  agrees ts ts' x rest hts hx := by
    have hdoc {us us' : List Token} (hus : R due us us') : leadingDoc us = none ∧ leadingDoc us' = none := by
      obtain ⟨t, us, t', us', rfl, rfl, hecho, hdoc⟩ := h.head hus
      exact ⟨leadingDoc_none hdoc, leadingDoc_none (hecho.kind ▸ hdoc)⟩
    obtain ⟨⟨as, mid⟩, has, he⟩ := Option.bind_eq_some_iff.1 hx
    obtain ⟨rfl, rfl⟩ := Prod.mk.inj (Option.some.inj he)
    obtain hfew | ⟨rest', has', hrest⟩ := h.attributes.agrees hts has
    · exact .inl hfew
    refine .inr ⟨rest', ?_, hrest⟩
    -- no doc comment is the first token of paired lists, so none is found on either side of the attributes
    rw [Reader.preamble, has', (hdoc hts).1, (hdoc hts).2, (hdoc hrest).1]
    show some ((none.or (leadingDoc rest'), as), rest') = _
    rw [(hdoc hrest).2]

/-- Members of known forms are read from both lists in the same way. -/
theorem knownMember : Agrees m m (R []) E knownMember :=
  h.preamble.bind fun _ => h.memberKinds.map _

end Pairing

end Reader

end PhpGraft

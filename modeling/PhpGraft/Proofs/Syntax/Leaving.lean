import PhpGraft.Syntax.Reader.File

/-!
# What readers leave

A reader takes tokens from the front of a list, and it never takes the end of the source (`Leaves`):
what it leaves is an end of the list, and one in which the source still ends. So there is always a
token to look at. Readers one after the other leave such an end, too.
-/

namespace PhpGraft.Reader

variable {α β : Type}

/-- What is left of some tokens when those at the front were taken, but not the end of the source. -/
def RestOf (rest ts : List Token) : Prop := ∃ taken, taken ++ rest = ts ∧ ∀ t ∈ taken, t.kind ≠ .eof

namespace RestOf

variable {t : Token} {ts us vs : List Token}

/-- All tokens are left when none was taken. -/
theorem refl (ts : List Token) : RestOf ts ts := ⟨[], rfl, List.forall_mem_nil _⟩

/-- What is left of a rest is left of the whole. -/
theorem trans (h : RestOf us vs) (h' : RestOf vs ts) : RestOf us ts := by
  obtain ⟨taken, rfl, htaken⟩ := h
  obtain ⟨taken', rfl, htaken'⟩ := h'
  exact ⟨taken' ++ taken, List.append_assoc _ _ _, List.forall_mem_append.2 ⟨htaken', htaken⟩⟩

/-- What is left is an end of the tokens. -/
theorem suffix (h : RestOf us ts) : us <:+ ts :=
  have ⟨taken, htaken, _⟩ := h
  ⟨taken, htaken⟩

/-- One token is taken that is not the end of the source. -/
theorem cons (h : t.kind ≠ .eof) (ts : List Token) : RestOf ts (t :: ts) :=
  ⟨[t], rfl, List.forall_mem_singleton.2 h⟩

end RestOf

/-- A test that the end of the source fails. -/
def FailsEnd (p : Token → Bool) : Prop := ∀ ⦃t : Token⦄, p t = true → t.kind ≠ .eof

/-- A token of another kind is not the end of the source. -/
theorem ne_eof_of_kind {t : Token} {kind : TokenKind} (ht : (t.kind == kind) = true)
    (h : kind ≠ .eof) : t.kind ≠ .eof := eq_of_beq ht ▸ h

/-- The end of the source is no token of another kind. -/
theorem failsEnd_kind (kind : TokenKind) (h : kind ≠ .eof) : FailsEnd (·.kind == kind) :=
  fun _ ht => ne_eof_of_kind ht h

/-- The end of the source is no character. -/
theorem failsEnd_isPunct (c : Char) : FailsEnd (·.isPunct c) := failsEnd_kind _ nofun

/-- The end of the source is no keyword. -/
theorem failsEnd_isKeyword (keyword : String) : FailsEnd (·.isKeyword keyword) :=
  fun _ ht => ne_eof_of_kind (Bool.and_eq_true_iff.1 ht).1 (by decide)

/-- A token that ends no statements is not the end of the source. -/
theorem ne_eof_of_isEnd {t : Token} (h : ¬ t.isEnd = true) : t.kind ≠ .eof := fun he =>
  h (Bool.or_eq_true_iff.2 (.inl (beq_of_eq he)))

/-- Doc comments are taken from the front. -/
theorem restOf_skipDocs (ts : List Token) : RestOf (skipDocs ts) ts :=
  ⟨ts.takeWhile isDoc, List.takeWhile_append_dropWhile,
    fun t ht => ne_eof_of_kind (List.all_eq_true.1 (List.all_takeWhile (p := isDoc)) t ht) (by decide)⟩

/-- A token that is not the end of the source is taken from the front. -/
theorem restOf_advance {p : Token → Bool} (hp : FailsEnd p) {ts : List Token} (h : p (peek ts) = true) :
    RestOf (advance ts) ts := by
  refine .trans ?_ (restOf_skipDocs ts)
  unfold advance
  unfold peek at h
  cases hdocs : skipDocs ts with
  | nil => exact .refl []
  | cons t rest =>
    -- the token that passes the test is the one that is taken
    rw [hdocs] at h
    exact .cons (hp h) rest

/-- The next token is one of the tokens, if it is not the end of the source. -/
theorem peek_mem {ts : List Token} (h : (peek ts).kind ≠ .eof) : peek ts ∈ ts := by
  refine (restOf_skipDocs ts).suffix.mem ?_
  unfold peek at h ⊢
  cases hdocs : skipDocs ts with
  | nil =>
    rw [hdocs] at h
    exact absurd rfl h
  | cons t rest => exact List.mem_cons_self

/-- A reader that never takes the end of the source. -/
def Leaves (r : Reader α) : Prop :=
  ∀ ⦃ts x rest⦄, r ts = some (x, rest) → RestOf rest ts

namespace Leaves

variable {r s : Reader α} {f : α → Reader β}

/-- An answer without reading leaves all tokens. -/
theorem pure (x : α) : Leaves (Pure.pure x : Reader α) := by
  intro ts y rest h
  obtain ⟨-, rfl⟩ := Prod.mk.inj (Option.some.inj h)
  exact .refl ts

/-- A reader that always fails leaves nothing. -/
theorem failure : Leaves (Alternative.failure : Reader α) := fun _ _ _ h => nomatch h

/-- Two readers one after the other leave an end of the tokens if both of them do. -/
theorem bind (hr : Leaves r) (hf : ∀ x, Leaves (f x)) : Leaves (r >>= f) := by
  intro ts y rest h
  obtain ⟨x, mid, hx, hy⟩ := bind_eq_some h
  exact (hf x hy).trans (hr hx)

/-- Changing the answer of a reader does not change what it leaves. -/
theorem map (hr : Leaves r) (g : α → β) : Leaves (g <$> r) := by
  intro ts y rest h
  obtain ⟨x, hx, -⟩ := map_eq_some h
  exact hr hx

/-- One of two readers leaves an end of the tokens if both of them do. -/
theorem ite {p : Prop} [Decidable p] (hr : Leaves r) (hs : Leaves s) :
    Leaves (if p then r else s) := by
  split
  · exact hr
  · exact hs

end Leaves

/-- Looking ahead leaves all tokens. -/
theorem leaves_look : Leaves look := by
  intro ts y rest h
  obtain ⟨-, rfl⟩ := Prod.mk.inj (Option.some.inj h)
  exact .refl ts

/-- An optional token is taken from the front. -/
theorem leaves_eat {p : Token → Bool} (hp : FailsEnd p) : Leaves (eat p) := by
  intro ts y rest h
  unfold eat at h
  split at h
  · next hpeek =>
    obtain ⟨-, rfl⟩ := Prod.mk.inj (Option.some.inj h)
    exact restOf_advance hp hpeek
  · obtain ⟨-, rfl⟩ := Prod.mk.inj (Option.some.inj h)
    exact .refl ts

/-- A token is taken from the front. -/
theorem leaves_expect {p : Token → Bool} (hp : FailsEnd p) : Leaves (expect p) := by
  intro ts y rest h
  unfold expect at h
  split at h
  · next hpeek =>
    obtain ⟨-, rfl⟩ := Prod.mk.inj (Option.some.inj h)
    exact restOf_advance hp hpeek
  · cases h

/-- An optional character is taken from the front. -/
theorem leaves_eatPunct (c : Char) : Leaves (eatPunct c) := leaves_eat (failsEnd_isPunct c)

/-- An optional keyword is taken from the front. -/
theorem leaves_eatKeyword (keyword : String) : Leaves (eatKeyword keyword) :=
  leaves_eat (failsEnd_isKeyword keyword)

/-- A keyword is taken from the front. -/
theorem leaves_expectKeyword (keyword : String) : Leaves (expect (·.isKeyword keyword)) :=
  leaves_expect (failsEnd_isKeyword keyword)

/-- A character is taken from the front. -/
theorem leaves_expectPunct (c : Char) : Leaves (expectPunct c) :=
  (leaves_expect (failsEnd_isPunct c)).bind fun _ => .pure _

/-- A name is taken from the front. -/
theorem leaves_name : Leaves name := (leaves_expect (failsEnd_kind .name (by decide))).bind fun _ => .pure _

/-- A variable is taken from the front. -/
theorem leaves_variableName : Leaves variableName :=
  (leaves_expect (failsEnd_kind .var (by decide))).bind fun _ => .pure _

/-- Things with commas between them are taken from the front if each one is. -/
theorem leaves_commaList {item : Reader α} {hitem : Advances item} (h : Leaves item) :
    Leaves (commaList item hitem) := by
  intro ts xs rest hxs
  unfold commaList at hxs
  split at hxs
  · cases hxs
  · next x mid hx =>
    have := hitem hx
    have := length_advance_le mid
    split at hxs
    · next hcomma =>
      split at hxs
      · cases hxs
      · next ys last hys =>
        obtain ⟨-, rfl⟩ := Prod.mk.inj (Option.some.inj hxs)
        have hmid := restOf_advance (failsEnd_isPunct ',') hcomma
        exact (leaves_commaList h hys).trans (hmid.trans (h hx))
    · obtain ⟨-, rfl⟩ := Prod.mk.inj (Option.some.inj hxs)
      exact h hx
termination_by ts => ts.length

/-- Names are taken from the front. -/
theorem leaves_nameList : Leaves nameList := leaves_commaList leaves_name

/-! ## Attributes, types and values -/

/-- The arguments of an attribute are taken from the front. -/
theorem leaves_attributeArgs? (taken : List Token) (depth : Nat) :
    Leaves (attributeArgs? taken depth) := by
  intro ts args rest h
  induction ts generalizing taken depth args with
  | nil => cases h
  | cons t ts ih =>
    unfold attributeArgs? at h
    split at h
    · cases h
    next hend =>
    have hmore : RestOf ts (t :: ts) := .cons (ne_eof_of_isEnd hend) ts
    have hbehind {taken : List Token} {depth : Nat} {args : List String}
        (h : attributeArgs? taken depth ts = some (args, rest)) : RestOf rest (t :: ts) :=
      (ih _ _ h).trans hmore
    repeat' split at h
    · exact hbehind h
    · obtain ⟨-, rfl⟩ := Prod.mk.inj (Option.some.inj h)
      exact hmore
    · obtain ⟨_, hargs, e⟩ := Option.map_eq_some_iff.1 h
      obtain ⟨-, rfl⟩ := Prod.mk.inj e
      exact hbehind hargs
    · exact hbehind h
    · exact hbehind h

/-- An attribute is taken from the front. -/
theorem leaves_singleAttribute : Leaves singleAttribute :=
  leaves_name.bind fun _ => (leaves_eatPunct _).bind fun _ =>
    .ite ((leaves_attributeArgs? _ _).bind fun _ => .pure _) (.pure _)

/-- An attribute list is taken from the front. -/
theorem leaves_attributeList : Leaves attributeList := by
  intro ts as rest h
  unfold attributeList at h
  split at h
  · cases h
  · next a mid ha =>
    have := advances_singleAttribute ha
    have := length_advance_le mid
    have hmid := leaves_singleAttribute ha
    repeat' split at h
    · next hclose =>
      obtain ⟨-, rfl⟩ := Prod.mk.inj (Option.some.inj h)
      exact (restOf_advance (failsEnd_isPunct ']') hclose).trans hmid
    · next hcomma hclose =>
      obtain ⟨-, rfl⟩ := Prod.mk.inj (Option.some.inj h)
      have hmore := restOf_advance (failsEnd_isPunct ',') hcomma
      exact (restOf_advance (failsEnd_isPunct ']') hclose).trans (hmore.trans hmid)
    · next hcomma _ =>
      obtain ⟨_, has, e⟩ := Option.map_eq_some_iff.1 h
      obtain ⟨-, rfl⟩ := Prod.mk.inj e
      have hmore := restOf_advance (failsEnd_isPunct ',') hcomma
      exact (leaves_attributeList has).trans (hmore.trans hmid)
    · cases h
termination_by ts => ts.length

/-- Attribute lists are taken from the front. -/
theorem leaves_attributes : Leaves attributes := by
  intro ts as rest h
  unfold attributes at h
  split at h
  · next hopen =>
    split at h
    · cases h
    · next as mid has =>
      have := advances_attributeList has
      have := length_advance_le ts
      obtain ⟨_, hmore, e⟩ := Option.map_eq_some_iff.1 h
      obtain ⟨-, rfl⟩ := Prod.mk.inj e
      have hbehind := restOf_advance (failsEnd_kind .attributeOpen (by decide)) hopen
      exact (leaves_attributes hmore).trans ((leaves_attributeList has).trans hbehind)
  · obtain ⟨-, rfl⟩ := Prod.mk.inj (Option.some.inj h)
    exact .refl ts
termination_by ts => ts.length

/-- The end of the source is not cut off. -/
theorem restOf_expressionSpan? {stop : Char → Bool} {depth : Nat} {ts taken rest : List Token}
    (h : expressionSpan? stop depth ts = some (taken, rest)) : RestOf rest ts := by
  induction ts generalizing depth taken with
  | nil => cases h
  | cons t ts ih =>
    unfold expressionSpan? at h
    split at h
    · cases h
    next hend =>
    have hbehind {d : Nat} (h : (expressionSpan? stop d ts).map (consFirst t) = some (taken, rest)) :
        RestOf rest (t :: ts) := by
      obtain ⟨_, hs, e⟩ := Option.map_eq_some_iff.1 h
      obtain ⟨-, rfl⟩ := Prod.mk.inj e
      exact (ih hs).trans (.cons (ne_eof_of_isEnd hend) ts)
    repeat' split at h
    · obtain ⟨-, rfl⟩ := Prod.mk.inj (Option.some.inj h)
      exact .refl _
    · exact hbehind h
    · obtain ⟨-, rfl⟩ := Prod.mk.inj (Option.some.inj h)
      exact .refl _
    · exact hbehind h
    · exact hbehind h

/-- An expression is taken from the front. -/
theorem leaves_expression (stop : Char → Bool) : Leaves (expression stop) := by
  intro ts e rest h
  unfold expression at h
  split at h
  · cases h
  · cases h
  · next taken mid _ hspan =>
    obtain ⟨-, rfl⟩ := Prod.mk.inj (Option.some.inj h)
    exact (restOf_expressionSpan? hspan).trans (restOf_skipDocs ts)

/-- What continues a type is taken from the front. -/
theorem leaves_typeNames (soFar : String) : Leaves (typeNames soFar) := by
  intro ts names rest h
  unfold typeNames at h
  split at h
  · obtain ⟨-, rfl⟩ := Prod.mk.inj (Option.some.inj h)
    exact .refl ts
  · next t mid hmid =>
    have hdocs := restOf_skipDocs ts
    rw [hmid] at hdocs
    have hshorter : mid.length < ts.length := hdocs.suffix.length_le
    have := length_advance_le mid
    dsimp only at h
    split at h
    · next hsign =>
      split at h
      · next hname =>
        have ht : t.kind ≠ .eof := by
          rw [Bool.or_eq_true, Bool.and_eq_true] at hsign
          exact hsign.elim (failsEnd_isPunct _ ·) (failsEnd_isPunct _ ·.1)
        have hmore := restOf_advance (failsEnd_kind .name (by decide)) hname
        exact (leaves_typeNames _ h).trans (hmore.trans ((RestOf.cons ht mid).trans hdocs))
      · cases h
    · obtain ⟨-, rfl⟩ := Prod.mk.inj (Option.some.inj h)
      exact .refl ts
termination_by ts => ts.length

/-- A type is taken from the front. -/
theorem leaves_typeHint : Leaves typeHint :=
  (leaves_eatPunct _).bind fun _ => leaves_name.bind fun _ => (leaves_typeNames _).bind fun _ => .pure _

/-! ## Members -/

/-- The source between braces is taken from the front. -/
theorem leaves_blockSource? (depth : Nat) : Leaves (blockSource? depth) := by
  intro ts source rest h
  induction ts generalizing depth source with
  | nil => cases h
  | cons t ts ih =>
    unfold blockSource? at h
    split at h
    · cases h
    next hend =>
    have hmore : RestOf ts (t :: ts) := .cons (ne_eof_of_isEnd hend) ts
    have hbehind {d : Nat} (h : (blockSource? d ts).map (consSource t) = some (source, rest)) :
        RestOf rest (t :: ts) := by
      obtain ⟨_, hs, e⟩ := Option.map_eq_some_iff.1 h
      obtain ⟨-, rfl⟩ := Prod.mk.inj e
      exact (ih _ hs).trans hmore
    repeat' split at h
    · exact hbehind h
    · obtain ⟨-, rfl⟩ := Prod.mk.inj (Option.some.inj h)
      exact hmore
    · exact hbehind h
    · exact hbehind h

/-- The end of the source is no modifier. -/
theorem ne_eof_of_modifier {t : Token} {m : Modifier}
    (h : (if t.kind == .name then Modifier.ofKeyword? t.source else none) = some m) : t.kind ≠ .eof := by
  split at h
  · next hname => exact ne_eof_of_kind hname (by decide)
  · cases h

/-- Modifiers are taken from the front. -/
theorem leaves_modifiers : Leaves modifiers := by
  have hahead (ts : List Token) (found : Modifiers) (var : Bool) :
      RestOf (modifiersAhead found var ts).2 ts := by
    induction ts generalizing found var with
    | nil => exact .refl []
    | cons t ts ih =>
      unfold modifiersAhead
      repeat' split
      · next hdoc => exact (ih _ _).trans (.cons (ne_eof_of_kind hdoc (by decide)) ts)
      · next hvar => exact (ih _ _).trans (.cons (failsEnd_isKeyword _ hvar) ts)
      · next hm => exact (ih _ _).trans (.cons (ne_eof_of_modifier hm) ts)
      · exact .refl _
  intro ts found rest h
  have := hahead ts .none false
  rwa [Option.some.inj h] at this

/-- The modifiers of a parameter are taken from the front. -/
theorem leaves_promotion : Leaves promotion := by
  have hahead (ts : List Token) (found : Modifiers) : RestOf (promotionAhead found ts).2 ts := by
    induction ts generalizing found with
    | nil => exact .refl []
    | cons t ts ih =>
      unfold promotionAhead
      repeat' split
      · next hdoc => exact (ih _).trans (.cons (ne_eof_of_kind hdoc (by decide)) ts)
      · next hm => exact (ih _).trans (.cons (ne_eof_of_modifier hm) ts)
      · exact .refl _
  intro ts found rest h
  have := hahead ts .none
  rwa [Option.some.inj h] at this

/-- A type is taken from the front where there is one. -/
theorem leaves_typeUnless (bare : Token → Bool) : Leaves (typeUnless bare) :=
  leaves_look.bind fun _ => .ite (.pure _) (leaves_typeHint.bind fun _ => .pure _)

/-- A value is taken from the front where there is one. -/
theorem leaves_defaultValue (stop : Char → Bool) : Leaves (defaultValue stop) :=
  (leaves_eatPunct _).bind fun _ => .ite ((leaves_expression _).bind fun _ => .pure _) (.pure _)

/-- A parameter is taken from the front. -/
theorem leaves_param : Leaves param :=
  leaves_attributes.bind fun _ => leaves_promotion.bind fun _ =>
    (leaves_typeUnless _).bind fun _ => (leaves_eatPunct _).bind fun _ =>
      (leaves_eat (failsEnd_kind .ellipsis (by decide))).bind fun _ => leaves_variableName.bind fun _ =>
        (leaves_defaultValue _).bind fun _ => .pure _

/-- Parameters are taken from the front. -/
theorem leaves_params : Leaves params := by
  intro ts ps rest h
  unfold params at h
  split at h
  · next hclose =>
    obtain ⟨-, rfl⟩ := Prod.mk.inj (Option.some.inj h)
    exact restOf_advance (failsEnd_isPunct ')') hclose
  · split at h
    · cases h
    · next p mid hp =>
      have := advances_param hp
      have := length_advance_le mid
      have hbehind {c : Char} (hc : (peek mid).isPunct c = true) : RestOf (advance mid) ts :=
        (restOf_advance (failsEnd_isPunct c) hc).trans (leaves_param hp)
      repeat' split at h
      · next hclose =>
        obtain ⟨-, rfl⟩ := Prod.mk.inj (Option.some.inj h)
        exact hbehind hclose
      · next hcomma =>
        obtain ⟨_, hps, e⟩ := Option.map_eq_some_iff.1 h
        obtain ⟨-, rfl⟩ := Prod.mk.inj e
        exact (leaves_params hps).trans (hbehind hcomma)
      · cases h
termination_by ts => ts.length

/-- The type of a result is taken from the front. -/
theorem leaves_returnType : Leaves returnType :=
  (leaves_eatPunct _).bind fun _ => .ite (leaves_typeHint.bind fun _ => .pure _) (.pure _)

/-- A constant is taken from the front. -/
theorem leaves_constant (modifiers : Modifiers) : Leaves (constant modifiers) :=
  leaves_name.bind fun _ => (leaves_expectPunct _).bind fun _ =>
    (leaves_expression _).bind fun _ => .pure _

/-- A property is taken from the front. -/
theorem leaves_property (modifiers : Modifiers) (type? : Option TypeHint) :
    Leaves (property modifiers type?) :=
  leaves_variableName.bind fun _ => (leaves_defaultValue _).bind fun _ => .pure _

/-- A group is taken from the front if each thing in it is. -/
theorem leaves_group {item : Reader α} {hitem : Advances item} (h : Leaves item) :
    Leaves (group item hitem) :=
  (leaves_commaList h).bind fun _ => (leaves_expectPunct _).bind fun _ => .pure _

/-- Constants are taken from the front. -/
theorem leaves_constants (modifiers : Modifiers) : Leaves (constants modifiers) :=
  leaves_group (leaves_constant _)

/-- Properties are taken from the front. -/
theorem leaves_properties (modifiers : Modifiers) : Leaves (properties modifiers) :=
  (leaves_typeUnless _).bind fun _ => leaves_group (leaves_property _ _)

/-- What stands ahead of a declaration is taken from the front. -/
theorem leaves_preamble : Leaves preamble := by
  intro ts found rest h
  obtain ⟨_, hattributes, e⟩ := Option.bind_eq_some_iff.1 h
  obtain ⟨-, rfl⟩ := Prod.mk.inj (Option.some.inj e)
  exact leaves_attributes hattributes

/-! ## Statements -/

/-- A statement goes on to the end of the source or to a close tag at most. -/
theorem isEnd_of_statementSpan {lead : Token} {depth : Nat} {ts taken rest : List Token}
    (h : statementSpan lead depth ts = .ok (taken, rest)) : ∀ t ∈ taken, t.isEnd = false := by
  induction ts generalizing depth taken rest with
  | nil => cases h
  | cons t ts ih =>
    unfold statementSpan at h
    split at h
    · cases h
    next heof =>
    split at h
    · split at h
      · obtain ⟨rfl, -⟩ := Prod.mk.inj (Except.ok.inj h)
        exact List.forall_mem_nil _
      · cases h
    next htag =>
    have hgoes : t.isEnd = false := by rw [Token.isEnd]; simp [heof, htag]
    have hstep {d : Nat} (h : (statementSpan lead d ts).map (consFirst t) = .ok (taken, rest)) :
        ∀ t ∈ taken, t.isEnd = false := by
      obtain ⟨more, hs, rfl⟩ := exists_of_map_consFirst h
      exact List.forall_mem_cons.2 ⟨hgoes, ih hs⟩
    have hkind {t : Token} {kind : TokenKind} (h : (t.kind == kind) = true)
        (hne : (kind == .eof || kind == .closeTag) = false) : t.isEnd = false := by
      rw [Token.isEnd, eq_of_beq h, hne]
    repeat' split at h
    · obtain ⟨rfl, -⟩ := Prod.mk.inj (Except.ok.inj h)
      exact List.forall_mem_singleton.2 hgoes
    · exact hstep h
    · exact hstep h
    · cases h
    · next hsign =>
      obtain ⟨rfl, -⟩ := Prod.mk.inj (Except.ok.inj h)
      have hdocs : (ts.takeWhile isDoc).all isDoc = true := List.all_takeWhile
      exact List.forall_mem_cons.2 ⟨hgoes, List.forall_mem_append.2
        ⟨fun t ht => hkind (List.all_eq_true.1 hdocs t ht) rfl,
          List.forall_mem_singleton.2 (hkind hsign rfl)⟩⟩
    · exact hstep h
    · obtain ⟨rfl, -⟩ := Prod.mk.inj (Except.ok.inj h)
      exact List.forall_mem_singleton.2 hgoes
    · exact hstep h

/-- A statement is taken from the front. -/
theorem restOf_statementSpan {lead : Token} {depth : Nat} {ts taken rest : List Token}
    (h : statementSpan lead depth ts = .ok (taken, rest)) : RestOf rest ts :=
  ⟨taken, append_of_statementSpan h, fun t ht => ne_eof_of_isEnd
    (Bool.eq_false_iff.1 (isEnd_of_statementSpan h t ht))⟩

/-- A name behind a keyword is taken from the front. -/
theorem leaves_nameBehind (keyword : String) : Leaves (nameBehind keyword) :=
  (leaves_eatKeyword _).bind fun _ => .ite (leaves_name.bind fun _ => .pure _) (.pure _)

/-- Names behind a keyword are taken from the front. -/
theorem leaves_namesBehind (keyword : String) : Leaves (namesBehind keyword) :=
  (leaves_eatKeyword _).bind fun _ => .ite leaves_nameList (.pure _)

/-- An imported name is taken from the front. -/
theorem leaves_importedName : Leaves importedName :=
  leaves_name.bind fun _ => (leaves_nameBehind _).bind fun _ => .pure _

/-- Imports are taken from the front. -/
theorem leaves_imports : Leaves imports :=
  (leaves_expectKeyword _).bind fun _ => leaves_look.bind fun _ =>
    .ite .failure (leaves_group leaves_importedName)

/-- The modifiers of a class are taken from the front. -/
theorem leaves_classModifiers (found : Modifiers) : Leaves (classModifiers found) := by
  intro ts modifiers rest h
  induction ts generalizing found with
  | nil => cases h
  | cons t ts ih =>
    have hbehind {found : Modifiers} (ht : t.kind ≠ .eof)
        (h : classModifiers found ts = some (modifiers, rest)) : RestOf rest (t :: ts) :=
      (ih _ h).trans (.cons ht ts)
    unfold classModifiers at h
    repeat' split at h
    · next hdoc => exact hbehind (ne_eof_of_kind hdoc (by decide)) h
    · next hclass =>
      obtain ⟨-, rfl⟩ := Prod.mk.inj (Option.some.inj h)
      exact .cons (failsEnd_isKeyword _ hclass) ts
    · next hkeyword => exact hbehind (failsEnd_isKeyword _ hkeyword) h
    · next hkeyword => exact hbehind (failsEnd_isKeyword _ hkeyword) h
    · next hkeyword => exact hbehind (failsEnd_isKeyword _ hkeyword) h
    · cases h

/-- What stands behind the name of a class is taken from the front. -/
theorem leaves_classHeritage (name? : Option String) (modifiers : Modifiers) :
    Leaves (classHeritage name? modifiers) :=
  (leaves_nameBehind _).bind fun _ => (leaves_namesBehind _).bind fun _ => .pure _

/-- The head of a class or interface is taken from the front. -/
theorem leaves_classLikeHead : Leaves classLikeHead := by
  intro ts kind rest h
  unfold classLikeHead at h
  repeat' split at h
  · have hhead : Leaves interfaceHead :=
      (leaves_expectKeyword _).bind fun _ => leaves_name.bind fun _ =>
        (leaves_namesBehind _).bind fun _ => .pure _
    exact hhead.map _ h
  · have hhead : Leaves anonymousClass :=
      (leaves_expectKeyword _).bind fun _ => (leaves_expectKeyword _).bind fun _ =>
        (leaves_expectKeyword _).bind fun _ => leaves_classHeritage _ _
    exact hhead.map _ h
  · have hhead : Leaves namedClass :=
      (leaves_classModifiers _).bind fun _ => leaves_name.bind fun _ => leaves_classHeritage _ _
    exact hhead.map _ h

/-- The name of a namespace is taken from the front. -/
theorem restOf_namespaceName (ts : List Token) : RestOf (namespaceName ts).2 ts := by
  unfold namespaceName
  split
  · next hname => exact restOf_advance (failsEnd_kind .name (by decide)) hname
  · exact .refl ts

end PhpGraft.Reader

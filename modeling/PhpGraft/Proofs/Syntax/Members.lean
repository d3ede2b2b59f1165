import PhpGraft.Proofs.Syntax.Pieces

/-!
# Members read back

Parameters, constants, properties, methods and uses of traits are read back from their parts, up to
what becomes of the values in them.
-/

namespace PhpGraft

open Text

/-! ## Parameters -/

/-- The parts of a value behind an equals sign where there is one. -/
def defaultParts (default? : Option Expr) : List Part :=
  (default?.map fun e => .sign '=' :: e.parts).getD []

/-- The parts of the mark of a reference where there is one. -/
def refParts (byRef : Bool) : List Part := if byRef then [.sign '&'] else []

/-- The parts of the mark of a parameter that takes all further arguments, where there is one. -/
def dotsParts (variadic : Bool) : List Part := if variadic then [.word .ellipsis "..."] else []

namespace Param

/-- The parts of a parameter without attributes. -/
def parts (p : Param) : List Part :=
  p.modifiers.parts ++ (typeParts p.type? ++ (refParts p.byRef ++
    (dotsParts p.variadic ++ (.var p.name :: defaultParts p.default?))))

/-- What a parameter is read back as. -/
def reread (p : Param) : Param := { p with default? := p.default?.map Expr.reread }

end Param

/-- A type whose first word announces no member. -/
def TypeHint.IsQuiet (h : TypeHint) : Prop := h.nullable = true ∨ announces h.name = false

/-- A parameter without attributes whose type announces no member and whose default is plain. -/
structure Param.IsQuiet (p : Param) : Prop where
  attributes : p.attributes = []
  type : ∀ h ∈ p.type?, h.IsQuiet
  default : ∀ e ∈ p.default?, e.isPlain = true

namespace Reader

/-- A value behind an equals sign is read back where there is one. -/
theorem reads_defaultValue {stop : Char → Bool} {default? : Option Expr}
    (h : ∀ e ∈ default?, e.isPlain = true) (hbracket : stop '[' = false)
    (hminus : stop '-' = false) :
    Reads (defaultValue stop) (defaultParts default?) (default?.map Expr.reread) fun rest =>
      EndsValue stop rest ∧ (peek rest).isPunct '=' = false := by
  unfold defaultValue
  cases default? with
  | none => exact reads_eat_none.bind (Reads.pure.mono fun _ _ => trivial) (.nil fun _ h => h.2)
  | some e =>
    have hvalue : Reads (expression stop) e.parts e.reread (EndsValue stop) :=
      fun ts rest hts hrest => expression_parts (h e rfl) hbracket hminus hts hrest
    exact ((reads_eatPunct '=').bind_whatever hvalue.bind_pure).mono fun _ h => h.1

/-- A token ahead of which no type stands, as the first one of what follows. -/
structure BareHead (t : Token) (us : List Token) : Prop where
  noDoc : t.kind ≠ .docComment
  noName : t.kind ≠ .name
  noAttribute : t.kind ≠ .attributeOpen
  noParen : t.isPunct ')' = false
  ends : EndsType (t :: us)

/-- A token that is no name and no character stands behind a type. -/
theorem BareHead.of_kind {t : Token} (h : t.kind = .var ∨ t.kind = .ellipsis) (us : List Token) :
    BareHead t us := by
  obtain ⟨kind, gap, text, start⟩ := t
  rcases h with rfl | rfl <;>
    exact ⟨nofun, nofun, nofun, rfl, by rw [EndsType, peek_cons (by simp)]; exact ⟨rfl, nofun⟩⟩

/-- The first token of a parameter behind its type. -/
theorem exists_bare {byRef variadic : Bool} {name : String} {ps : List Part} {ts : List Token}
    (hts : Spells ts (refParts byRef ++ (dotsParts variadic ++ (.var name :: ps))))
    (rest : List Token) :
    ∃ t us, ts ++ rest = t :: us ∧ BareHead t us ∧ startsBareParam t = true ∧
      (byRef = false → t.isPunct '&' = false) := by
  have hdots {ts : List Token} (hts : Spells ts (dotsParts variadic ++ (.var name :: ps))) :
      ∃ t us, ts ++ rest = t :: us ∧ (t.kind = .var ∨ t.kind = .ellipsis) := by
    cases variadic with
    | true =>
      obtain ⟨gap, start, us, rfl, -, -⟩ := hts.exists_word
      exact ⟨_, _, rfl, .inr rfl⟩
    | false =>
      obtain ⟨gap, start, us, rfl, -, -⟩ := hts.exists_word
      exact ⟨_, _, rfl, .inl rfl⟩
  cases byRef with
  | true =>
    obtain ⟨gap, start, us, rfl, -, hus⟩ := hts.exists_word
    obtain ⟨t, more, he, ht⟩ := hdots hus
    -- Behind the mark of a reference there is no name.
    have hnext := BareHead.of_kind ht more
    refine ⟨_, us ++ rest, rfl, ⟨nofun, nofun, nofun, rfl, ?_, fun _ => ?_⟩, rfl, nofun⟩
    · rw [peek_cons (by simp)]
      rfl
    · rw [advance_cons (by simp), he, peek_cons hnext.noDoc]
      exact hnext.noName
  | false =>
    obtain ⟨⟨kind, gap, text, start⟩, more, he, ht⟩ := hdots hts
    refine ⟨_, more, he, .of_kind ht more, ?_, fun _ => ?_⟩
    · rcases ht with rfl | rfl <;> rfl
    · rcases ht with rfl | rfl <;> rfl

/-- A token behind modifiers that announces a type or what has one. -/
structure TypedHead (t : Token) : Prop where
  ends : EndsModifiers t
  noKeyword : ∀ keyword ∈ ["var", "const", "function"], t.isKeyword keyword = false
  noAttribute : t.kind ≠ .attributeOpen
  noParen : t.isPunct ')' = false

/-- A token that is no name announces no member. -/
theorem TypedHead.of_ne {t : Token} (h₁ : t.kind ≠ .docComment) (h₂ : t.kind ≠ .name)
    (h₃ : t.kind ≠ .attributeOpen) (h₄ : t.isPunct ')' = false) : TypedHead t := by
  have hname : (t.kind == .name) = false := beq_false_of_ne h₂
  refine ⟨⟨h₁, ?_⟩, fun keyword _ => ?_, h₃, h₄⟩
  · rw [hname]
    rfl
  · rw [Token.isKeyword, hname, Bool.false_and]

/-- A word that announces no member and modifies none. -/
theorem TypedHead.of_name {s : String} (h : announces s = false) (gap : List Char) (start : Nat) :
    TypedHead ⟨.name, gap, s.toList, start⟩ := by
  simp only [announces, Bool.or_eq_false_iff, Option.isSome_eq_false_iff, Option.isNone_iff_eq_none]
    at h
  obtain ⟨⟨⟨h₁, h₂⟩, h₃⟩, h₄⟩ := h
  have hsource : (Token.mk .name gap s.toList start).source = s := String.ofList_toList
  refine ⟨⟨nofun, ?_⟩, ?_, nofun, rfl⟩
  · rw [hsource, h₁]
    exact ite_self _
  · simp [isKeyword_self, h₂, h₃, h₄]

/-- The first token of what is announced by modifiers: that of the type, if there is one, or the one
behind it. -/
theorem exists_typed {type? : Option TypeHint} {qs : List Part} {ts rest : List Token}
    (hquiet : ∀ h ∈ type?, h.IsQuiet) (hts : Spells ts (typeParts type? ++ qs))
    (hbare : ∀ us, Spells us qs → ∃ t more, us ++ rest = t :: more ∧ BareHead t more) :
    ∃ t more, ts ++ rest = t :: more ∧ TypedHead t := by
  cases type? with
  | none =>
    obtain ⟨t, more, h, hb⟩ := hbare ts hts
    exact ⟨t, more, h, .of_ne hb.noDoc hb.noName hb.noAttribute hb.noParen⟩
  | some h =>
    have hparts : typeParts (some h) ++ qs =
        (if h.nullable then [.sign '?'] else []) ++ (.name h.name :: qs) := by
      simp [typeParts, TypeHint.parts]
    rw [hparts] at hts
    cases hn : h.nullable with
    | true =>
      rw [hn] at hts
      obtain ⟨gap, start, us, rfl, -, -⟩ := hts.exists_word
      exact ⟨_, _, rfl, .of_ne nofun nofun nofun rfl⟩
    | false =>
      rw [hn] at hts
      obtain ⟨gap, start, us, rfl, -, -⟩ := hts.exists_word
      have hname : announces h.name = false := by
        rcases hquiet h rfl with hq | hq
        · simp [hn] at hq
        · exact hq
      exact ⟨_, _, rfl, .of_name hname gap start⟩

/-- The first token of modifiers is a keyword of one of them. -/
theorem exists_modifier {ms : Modifiers} {qs : List Part} {ts : List Token} {P : Token → Prop}
    (hms : ms.isEmpty = false) (hts : Spells ts (ms.parts ++ qs))
    (hkeyword : ∀ (m : Modifier) gap start, P ⟨.name, gap, m.keyword.toList, start⟩)
    (rest : List Token) : ∃ t more, ts ++ rest = t :: more ∧ P t := by
  rw [modifiersParts_eq] at hts
  cases hwritten : Modifier.written.filter ms.has with
  | nil =>
    have hnone := ms.foldl_written
    rw [hwritten] at hnone
    subst hnone
    exact absurd hms (by decide)
  | cons m more =>
    rw [hwritten] at hts
    obtain ⟨gap, start, us, rfl, -, -⟩ := hts.exists_word
    exact ⟨_, _, rfl, hkeyword m gap start⟩

/-- The first token of what modifiers announce is a keyword or the first one behind them. -/
theorem exists_modified {ms : Modifiers} {qs : List Part} {ts rest : List Token} {P : Token → Prop}
    (hts : Spells ts (ms.parts ++ qs))
    (hkeyword : ∀ (m : Modifier) gap start, P ⟨.name, gap, m.keyword.toList, start⟩)
    (hbehind : ∀ us, Spells us qs → ∃ t more, us ++ rest = t :: more ∧ P t) :
    ∃ t more, ts ++ rest = t :: more ∧ P t := by
  cases hms : ms.isEmpty with
  | true =>
    have hnone : ms = .none := eq_of_beq hms
    subst hnone
    exact hbehind ts hts
  | false => exact exists_modifier hms hts hkeyword rest

/-- No attributes are read where none start. -/
theorem attributes_none {ts : List Token} (h : (peek ts).kind ≠ .attributeOpen) :
    attributes ts = some ([], ts) := by
  rw [attributes, if_neg (by simp [h])]

/-- Tokens behind a parameter: a comma or a closing parenthesis. -/
def EndsParam (ts : List Token) : Prop :=
  ∃ c gap text start rest, ts = ⟨.punct c, gap, text, start⟩ :: rest ∧ (c = ',' ∨ c = ')')

/-- A parameter is read back. -/
theorem reads_param {p : Param} (hp : p.IsQuiet) : Reads param p.parts p.reread EndsParam := by
  obtain ⟨hattributes, htype, hdefault⟩ := hp
  have hend : Reads (defaultValue (· == ',')) (defaultParts p.default?)
      (p.default?.map Expr.reread) EndsParam := by
    refine (reads_defaultValue hdefault rfl rfl).mono ?_
    rintro rest ⟨c, gap, text, start, rest, rfl, hc⟩
    refine ⟨⟨_, rest, rfl, rfl, ?_⟩, ?_⟩
    · rcases hc with rfl | rfl
      · exact .inl rfl
      · exact .inr ⟨rfl, rfl⟩
    · rw [peek_cons (by simp)]
      rcases hc with rfl | rfl <;> rfl
  -- From the last step to the first one: each optional mark is there or the next token is another.
  have hvar : Reads (variableName >>= fun name => defaultValue (· == ',') >>= fun default? =>
      Pure.pure (Param.mk name p.type? default? p.byRef p.variadic p.modifiers []))
      (.var p.name :: defaultParts p.default?) p.reread EndsParam := by
    have hanswer : p.reread = Param.mk p.name p.type? (p.default?.map Expr.reread) p.byRef p.variadic
        p.modifiers [] := by
      rw [Param.reread, hattributes]
    rw [hanswer]
    exact (reads_variableName p.name).bind_whatever hend.bind_pure
  have hdots : Reads (eat (·.kind == .ellipsis) >>= fun variadic => variableName >>= fun name =>
      defaultValue (· == ',') >>= fun default? =>
      Pure.pure (Param.mk name p.type? default? p.byRef variadic p.modifiers []))
      (dotsParts p.variadic ++ (.var p.name :: defaultParts p.default?)) p.reread EndsParam :=
    reads_mark nofun (fun _ _ => rfl) hvar fun _ => .cons fun _ _ _ => by
      rw [peek_cons (by simp)]
      rfl
  have href : Reads (eatPunct '&' >>= fun byRef => eat (·.kind == .ellipsis) >>= fun variadic =>
      variableName >>= fun name => defaultValue (· == ',') >>= fun default? =>
      Pure.pure (Param.mk name p.type? default? byRef variadic p.modifiers []))
      (refParts p.byRef ++ (dotsParts p.variadic ++ (.var p.name :: defaultParts p.default?)))
      p.reread EndsParam := by
    refine reads_mark nofun (fun _ _ => rfl) hdots fun _ ts rest hts _ => ?_
    obtain ⟨t, us, he, hb, -, hamp⟩ := @exists_bare false _ _ _ _ hts rest
    rw [he, peek_cons hb.noDoc]
    exact hamp rfl
  have hparam : Reads (typeUnless startsBareParam >>= fun type? => eatPunct '&' >>= fun byRef =>
      eat (·.kind == .ellipsis) >>= fun variadic => variableName >>= fun name =>
      defaultValue (· == ',') >>= fun default? =>
      Pure.pure (Param.mk name type? default? byRef variadic p.modifiers []))
      (typeParts p.type? ++ (refParts p.byRef ++
        (dotsParts p.variadic ++ (.var p.name :: defaultParts p.default?)))) p.reread EndsParam := by
    refine (reads_typeUnless (fun _ _ _ => rfl) fun _ _ _ => rfl).bind href fun ts rest hts _ => ?_
    obtain ⟨t, us, he, hb, hbare, -⟩ := exists_bare hts rest
    rw [he, peek_cons hb.noDoc]
    exact ⟨hb.ends, fun _ => hbare⟩
  have hhead {ts rest : List Token} (hts : Spells ts (typeParts p.type? ++ (refParts p.byRef ++
      (dotsParts p.variadic ++ (.var p.name :: defaultParts p.default?))))) :
      ∃ t more, ts ++ rest = t :: more ∧ TypedHead t := by
    refine exists_typed htype hts fun us hus => ?_
    obtain ⟨t, more, he, hb, -, -⟩ := exists_bare hus rest
    exact ⟨t, more, he, hb⟩
  have hpromoted : Reads (promotion >>= fun modifiers => typeUnless startsBareParam >>= fun type? =>
      eatPunct '&' >>= fun byRef => eat (·.kind == .ellipsis) >>= fun variadic =>
      variableName >>= fun name => defaultValue (· == ',') >>= fun default? =>
      Pure.pure (Param.mk name type? default? byRef variadic modifiers [])) p.parts p.reread
      EndsParam := by
    refine (reads_promotion p.modifiers).bind hparam fun ts rest hts _ => ?_
    obtain ⟨t, more, he, ht⟩ := hhead hts
    exact ⟨t, more, he, ht.ends⟩
  intro ts rest hts hrest
  have hfirst : ∃ t more, ts ++ rest = t :: more ∧
      (t.kind ≠ .docComment ∧ t.kind ≠ .attributeOpen) := by
    refine exists_modified hts (fun _ _ _ => ⟨nofun, nofun⟩) fun us hus => ?_
    obtain ⟨t, more, he, ht⟩ := hhead hus
    exact ⟨t, more, he, ht.ends.1, ht.noAttribute⟩
  obtain ⟨t, more, he, hdoc, hattribute⟩ := hfirst
  have hnone : attributes (ts ++ rest) = some ([], ts ++ rest) :=
    attributes_none (by rw [he, peek_cons hdoc]; exact hattribute)
  have hread := hpromoted ts rest hts hrest
  unfold param
  simp only [Bind.bind, StateT.bind, hnone, Option.bind_some] at hread ⊢
  exact hread

section Params

variable {ts rest : List Token} {p : Param}

/-- A closing parenthesis ends the parameters. -/
theorem params_close (h : (peek ts).isPunct ')' = true) : params ts = some ([], advance ts) := by
  rw [params, if_pos h]

/-- A parameter is the last one ahead of a closing parenthesis. -/
theorem params_last (ht : (peek ts).isPunct ')' = false) (h : param ts = some (p, rest))
    (hclose : (peek rest).isPunct ')' = true) : params ts = some ([p], advance rest) := by
  rw [params, if_neg (by simp [ht])]
  split
  · next e => simp [h] at e
  · next q mid e =>
    obtain ⟨rfl, rfl⟩ := Prod.mk.inj (Option.some.inj (h.symm.trans e))
    rw [if_pos hclose]

/-- Further parameters follow a comma. -/
theorem params_cons {ps : List Param} {last : List Token} (ht : (peek ts).isPunct ')' = false)
    (h : param ts = some (p, rest)) (hclose : (peek rest).isPunct ')' = false)
    (hcomma : (peek rest).isPunct ',' = true) (hmore : params (advance rest) = some (ps, last)) :
    params ts = some (p :: ps, last) := by
  rw [params, if_neg (by simp [ht])]
  split
  · next e => simp [h] at e
  · next q mid e =>
    obtain ⟨rfl, rfl⟩ := Prod.mk.inj (Option.some.inj (h.symm.trans e))
    rw [if_neg (by simp [hclose]), if_pos hcomma, hmore]
    rfl

end Params

/-- Parameters start with no closing parenthesis. -/
theorem peek_param {p : Param} (hp : p.IsQuiet) {ts : List Token} (hts : Spells ts p.parts)
    (rest : List Token) : (peek (ts ++ rest)).isPunct ')' = false := by
  have hfirst : ∃ t more, ts ++ rest = t :: more ∧ (t.kind ≠ .docComment ∧ t.isPunct ')' = false) := by
    refine exists_modified hts (fun _ _ _ => ⟨nofun, rfl⟩) fun us hus => ?_
    obtain ⟨t, more, he, ht⟩ := exists_typed hp.type hus fun vs hvs => by
      obtain ⟨t, more, he, hb, -, -⟩ := exists_bare hvs rest
      exact ⟨t, more, he, hb⟩
    exact ⟨t, more, he, ht.ends.1, ht.noParen⟩
  obtain ⟨t, more, he, hdoc, hparen⟩ := hfirst
  rw [he, peek_cons hdoc]
  exact hparen

/-- Parameters are read back up to their closing parenthesis. -/
theorem reads_params {ps : List Param} (h : ∀ p ∈ ps, p.IsQuiet) :
    Reads params (commaParts Param.parts ps ++ [.sign ')']) (ps.map Param.reread) Whatever := by
  induction ps with
  | nil =>
    intro ts rest hts _
    obtain ⟨gap, start, us, rfl, -, hus⟩ := hts.exists_word
    obtain rfl := hus.eq_nil
    have := @params_close (⟨.punct ')', gap, (String.ofList [')']).toList, start⟩ :: rest) (by
      rw [peek_cons (by simp)]
      rfl)
    rwa [advance_cons (by simp)] at this
  | cons p ps ih =>
    intro ts rest hts hrest
    obtain ⟨hp, hps⟩ := List.forall_mem_cons.1 h
    cases ps with
    | nil =>
      obtain ⟨us, vs, rfl, hus, hvs⟩ := hts.exists_of_append
      obtain ⟨gap, start, vs, rfl, -, hvs⟩ := hvs.exists_word
      obtain rfl := hvs.eq_nil
      rw [List.append_assoc]
      have hread := reads_param hp us
        (⟨.punct ')', gap, (String.ofList [')']).toList, start⟩ :: rest) hus
        ⟨_, _, _, _, _, rfl, .inr rfl⟩
      have := params_last (peek_param hp hus _) hread (by rw [peek_cons (by simp)]; rfl)
      rwa [advance_cons (by simp)] at this
    | cons q qs =>
      rw [commaParts, List.append_assoc, List.cons_append] at hts
      obtain ⟨us, vs, rfl, hus, hvs⟩ := hts.exists_of_append
      obtain ⟨gap, start, vs, rfl, -, hvs⟩ := hvs.exists_word
      have hread := reads_param hp us
        (⟨.punct ',', gap, (String.ofList [',']).toList, start⟩ :: (vs ++ rest)) hus
        ⟨_, _, _, _, _, rfl, .inl rfl⟩
      have hmore := ih hps vs rest hvs hrest
      rw [List.append_assoc]
      refine params_cons (peek_param hp hus _) hread ?_ ?_ ?_
      · rw [peek_cons (by simp)]
        rfl
      · rw [peek_cons (by simp)]
        rfl
      · rw [advance_cons (by simp)]
        exact hmore

end Reader

/-! ## Methods -/

/-- The parts of the type of a result where there is one. -/
def returnParts (returns? : Option TypeHint) : List Part :=
  (returns?.map fun h => .sign ':' :: h.parts).getD []

/-- The parts of a block, or of the semicolon in its place. -/
def bodyParts (body? : Option Body) : List Part := [(body?.map Part.block).getD (.sign ';')]

namespace MethodDecl

/-- The parts of a method behind its modifiers. -/
def parts (d : MethodDecl) : List Part :=
  .name "function" :: (refParts d.byRef ++ (.name d.name :: .sign '(' ::
    ((commaParts Param.parts d.params ++ [.sign ')']) ++
      (returnParts d.returns? ++ bodyParts d.body?))))

/-- What a method is read back as. -/
def reread (d : MethodDecl) : MethodDecl := { d with params := d.params.map Param.reread }

end MethodDecl

namespace Reader

/-- The type of a result is read back where there is one. -/
theorem reads_returnType (returns? : Option TypeHint) :
    Reads returnType (returnParts returns?) returns? fun rest =>
      EndsType rest ∧ (peek rest).isPunct ':' = false := by
  unfold returnType
  cases returns? with
  | none => exact reads_eat_none.bind (Reads.pure.mono fun _ _ => trivial) (.nil fun _ h => h.2)
  | some h =>
    exact ((reads_eatPunct ':').bind_whatever (reads_typeHint h).bind_pure).mono fun _ h => h.1

/-- A block is read back. -/
theorem reads_block (body : Body) : Reads block [.block body] body Whatever := by
  intro ts rest hts _
  cases hts with
  | @block t inner us _ _ hk hb _ hus =>
    obtain rfl := hus.eq_nil
    obtain ⟨source, hsource, hbody⟩ := hb
    have hopen : expectPunct '{' (t :: (inner ++ rest)) = some ((), inner ++ rest) := by
      unfold expectPunct
      simp only [Bind.bind, StateT.bind, expect_cons
        (t := t) (p := (·.isPunct '{')) (by simp [hk]) (by simp [Token.isPunct, hk]),
        Option.bind_some]
      rfl
    unfold block
    simp only [Bind.bind, StateT.bind, List.append_nil, List.cons_append, hopen, hsource,
      Option.bind_some, hbody]
    rfl

/-- A block, or a semicolon in its place, is read back. -/
theorem reads_blockOrNone (body? : Option Body) :
    Reads blockOrNone (bodyParts body?) body? Whatever := by
  unfold blockOrNone bodyParts
  cases body? with
  | none => exact (reads_eatPunct ';').bind_whatever .pure
  | some body =>
    refine reads_eat_none.bind (reads_block body).bind_pure fun ts rest hts _ => ?_
    cases hts with
    | block hk _ _ _ =>
      rw [List.cons_append, peek_cons (by simp [hk])]
      simp [Token.isPunct, hk]

/-- The token of a block or of the semicolon in its place ends a type and a header. -/
theorem meets_bodyParts {body? : Option Body} {next : List Token → Prop} :
    Meets (bodyParts body?) next fun rest => EndsType rest ∧ (peek rest).isPunct ':' = false := by
  intro ts rest hts _
  have hends {c : Char} {t : Token} {us : List Token} (ht : t.kind = .punct c)
      (hc : c = ';' ∨ c = '{') : EndsType (t :: us) ∧ (peek (t :: us)).isPunct ':' = false := by
    rw [EndsType, peek_cons (by simp [ht])]
    rcases hc with rfl | rfl <;> simp [Token.isPunct, ht]
  cases body? with
  | none =>
    obtain ⟨gap, start, us, rfl, -, -⟩ := hts.exists_word
    exact hends rfl (.inl rfl)
  | some body =>
    cases hts with
    | block hk _ _ _ => exact hends hk (.inr rfl)

/-- A method is read back. -/
theorem reads_method {d : MethodDecl} (h : ∀ p ∈ d.params, p.IsQuiet) :
    Reads (method d.modifiers) d.parts d.reread Whatever := by
  have hbody : Reads (returnType >>= fun returns? => blockOrNone >>= fun body? =>
      Pure.pure (MethodDecl.mk d.name d.modifiers d.byRef (d.params.map Param.reread) returns? body?))
      (returnParts d.returns? ++ bodyParts d.body?) d.reread Whatever :=
    (reads_returnType d.returns?).bind (reads_blockOrNone d.body?).bind_pure meets_bodyParts
  have hname : Reads (name >>= fun name => expectPunct '(' >>= fun _ => params >>= fun params =>
      returnType >>= fun returns? => blockOrNone >>= fun body? =>
      Pure.pure (MethodDecl.mk name d.modifiers d.byRef params returns? body?))
      (.name d.name :: .sign '(' :: ((commaParts Param.parts d.params ++ [.sign ')']) ++
        (returnParts d.returns? ++ bodyParts d.body?))) d.reread Whatever :=
    (reads_name d.name).bind_whatever
      ((reads_expectPunct '(').bind_whatever ((reads_params h).bind_whatever hbody))
  refine reads_expect_bind nofun (fun gap start => ?_) fun _ _ => ?_
  · exact isKeyword_self.trans (by decide)
  · exact reads_mark nofun (fun _ _ => rfl) hname fun _ => .cons fun _ _ _ => by
      rw [peek_cons (by simp)]
      rfl

/-! ## Other members -/

end Reader

/-- The parts of a constant behind its modifiers. -/
def ConstDecl.parts (d : ConstDecl) : List Part :=
  .name "const" :: ((.name d.name :: .sign '=' :: d.value.parts) ++ [.sign ';'])

/-- What a constant is read back as. -/
def ConstDecl.reread (d : ConstDecl) : ConstDecl := { d with value := d.value.reread }

/-- The parts of a property behind its modifiers. -/
def PropertyDecl.parts (d : PropertyDecl) : List Part :=
  typeParts d.type? ++ ((.var d.name :: defaultParts d.default?) ++ [.sign ';'])

/-- What a property is read back as. -/
def PropertyDecl.reread (d : PropertyDecl) : PropertyDecl :=
  { d with default? := d.default?.map Expr.reread }

namespace Reader

/-- A constant is read back behind its keyword. -/
theorem reads_constants {d : ConstDecl} (h : d.value.isPlain = true) :
    Reads (constants d.modifiers) ((.name d.name :: .sign '=' :: d.value.parts) ++ [.sign ';'])
      [d.reread] Whatever := by
  have hvalue : Reads (expression endsEntry) d.value.parts d.value.reread (EndsValue endsEntry) :=
    fun ts rest hts hrest => expression_parts h rfl rfl hts hrest
  have hconstant : Reads (constant d.modifiers) (.name d.name :: .sign '=' :: d.value.parts) d.reread
      (EndsValue endsEntry) :=
    (reads_name d.name).bind_whatever ((reads_expectPunct '=').bind_whatever hvalue.bind_pure)
  exact reads_group hconstant (fun _ _ _ rest => ⟨_, rest, rfl, rfl, .inl rfl⟩)
    fun _ _ _ rest => ⟨_, rest, rfl, rfl, .inl rfl⟩

/-- A property is read back behind its modifiers. -/
theorem reads_properties {d : PropertyDecl} (h : ∀ e ∈ d.default?, e.isPlain = true) :
    Reads (properties d.modifiers) d.parts [d.reread] Whatever := by
  have hends (c : Char) (gap text : List Char) (start : Nat) (rest : List Token)
      (hc : c = ';' ∨ c = ',') : EndsValue endsEntry (⟨.punct c, gap, text, start⟩ :: rest) ∧
      (peek (⟨.punct c, gap, text, start⟩ :: rest)).isPunct '=' = false := by
    rw [peek_cons (by simp)]
    rcases hc with rfl | rfl <;> exact ⟨⟨_, rest, rfl, rfl, .inl rfl⟩, rfl⟩
  have hproperty : Reads (property d.modifiers d.type?) (.var d.name :: defaultParts d.default?)
      d.reread fun rest => EndsValue endsEntry rest ∧ (peek rest).isPunct '=' = false :=
    (reads_variableName d.name).bind_whatever (reads_defaultValue h rfl rfl).bind_pure
  have hgroup : Reads (group (property d.modifiers d.type?) (advances_property d.modifiers d.type?))
      ((.var d.name :: defaultParts d.default?) ++ [.sign ';']) [d.reread] Whatever :=
    reads_group hproperty (fun gap text start rest => hends _ gap text start rest (.inl rfl))
      fun gap text start rest => hends _ gap text start rest (.inr rfl)
  refine (reads_typeUnless (fun _ _ _ => rfl) fun _ _ _ => rfl).bind hgroup ?_
  rw [List.cons_append]
  refine .cons fun gap start rest => ?_
  have hb : BareHead ⟨.var, gap, ("$" ++ d.name).toList, start⟩ rest :=
    .of_kind (.inl rfl) rest
  exact ⟨hb.ends, fun _ => by rw [peek_cons (by simp)]; rfl⟩

/-- A use of traits without adaptations is read back behind its keyword. -/
theorem reads_traitUse {traits : List String} (hne : traits ≠ []) :
    Reads traitUse (commaParts (fun n => [.name n]) traits ++ [.sign ';']) (.traitUse traits none)
      Whatever := by
  have hnone : Reads blockOrNone [.sign ';'] none Whatever := reads_blockOrNone none
  exact (reads_nameList hne).bind hnone.bind_pure (.cons fun _ _ _ => by
    rw [peek_cons (by simp)]
    rfl)

end Reader

end PhpGraft

import PhpGraft.Proofs.Syntax.Reading

/-!
# Parts of declarations read back

Types, lists with commas, modifiers and defaults are read back from their parts.
-/

namespace PhpGraft

open Text

/-! ## Types -/

/-- The parts of a declared type. -/
def TypeHint.parts (h : TypeHint) : List Part :=
  (if h.nullable then [.sign '?'] else []) ++ [.name h.name]

/-- The parts of a type where there is one. -/
def typeParts (type? : Option TypeHint) : List Part := (type?.map TypeHint.parts).getD []

namespace Reader

variable {α : Type}

/-- Tokens that do not continue a type. -/
def EndsType (ts : List Token) : Prop :=
  (peek ts).isPunct '|' = false ∧
    ((peek ts).isPunct '&' = true → (peek (advance ts)).kind ≠ .name)

/-- A type ends where nothing continues it. -/
theorem typeNames_ends {s : String} {ts : List Token} (h : EndsType ts) :
    typeNames s ts = some (s, ts) := by
  obtain ⟨hbar, hand⟩ := h
  unfold typeNames
  split
  · rfl
  · next t rest e =>
    have hpeek : peek ts = t := by rw [peek, e]; rfl
    have hadvance : advance ts = rest := by rw [advance, e]; rfl
    rw [hpeek] at hbar
    rw [hpeek, hadvance] at hand
    rw [if_neg]
    simp only [hbar, Bool.false_or, Bool.and_eq_true, beq_iff_eq, not_and]
    exact hand

/-- A type is read back. -/
theorem reads_typeHint (h : TypeHint) : Reads typeHint h.parts h EndsType := by
  have hnames : Reads (typeNames h.name) [] h.name EndsType := by
    intro ts rest hts hrest
    rw [hts.eq_nil]
    exact typeNames_ends hrest
  have hrest : Reads (name >>= fun first => typeNames first >>= fun names =>
      (Pure.pure ⟨h.nullable, names⟩ : Reader TypeHint)) [.name h.name] h EndsType :=
    (reads_name h.name).bind_whatever hnames.bind_pure
  unfold typeHint TypeHint.parts
  cases hn : h.nullable with
  | true =>
    rw [hn] at hrest
    exact (reads_eatPunct '?').bind_whatever hrest
  | false =>
    rw [hn] at hrest
    exact reads_eat_none.bind hrest (.cons fun _ _ _ => by rw [peek_cons (by simp)]; rfl)

/-- Looking ahead takes nothing. -/
theorem look_bind {f : Token → Reader α} (ts : List Token) :
    (look >>= f) ts = f (peek ts) ts := rfl

/-- The first token of a type is a question mark or a name. -/
theorem peek_typeParts {h : TypeHint} {ts rest : List Token} (hts : Spells ts h.parts) :
    (∃ gap text start, peek (ts ++ rest) = ⟨.punct '?', gap, text, start⟩) ∨
      (h.nullable = false ∧ ∃ gap start, peek (ts ++ rest) = ⟨.name, gap, h.name.toList, start⟩) := by
  unfold TypeHint.parts at hts
  cases hn : h.nullable with
  | true =>
    rw [hn] at hts
    obtain ⟨gap, start, us, rfl, -, -⟩ := hts.exists_word
    exact .inl ⟨gap, _, start, by rw [List.cons_append, peek_cons (by simp)]⟩
  | false =>
    rw [hn] at hts
    obtain ⟨gap, start, us, rfl, -, -⟩ := hts.exists_word
    exact .inr ⟨rfl, gap, start, by rw [List.cons_append, peek_cons (by simp)]⟩

/-- A type is read where there is one. -/
theorem reads_typeUnless {bare : Token → Bool} {type? : Option TypeHint}
    (hmark : ∀ gap text start, bare ⟨.punct '?', gap, text, start⟩ = false)
    (hname : ∀ gap text start, bare ⟨.name, gap, text, start⟩ = false) :
    Reads (typeUnless bare) (typeParts type?) type? fun rest =>
      EndsType rest ∧ (type? = none → bare (peek rest) = true) := by
  intro ts rest hts ⟨hends, hbare⟩
  unfold typeUnless
  rw [look_bind]
  cases type? with
  | none =>
    rw [hts.eq_nil, List.nil_append, if_pos (hbare rfl)]
    rfl
  | some h =>
    have hfirst : bare (peek (ts ++ rest)) = false := by
      rcases peek_typeParts hts with ⟨gap, text, start, hk⟩ | ⟨-, gap, start, hk⟩
      · rw [hk]
        exact hmark gap text start
      · rw [hk]
        exact hname gap _ start
    rw [hfirst]
    exact (reads_typeHint h).bind_pure ts rest hts hends

end Reader

/-! ## Lists with commas -/

/-- The parts of several things with commas between them. -/
def commaParts {α : Type} (f : α → List Part) : List α → List Part
  | [] => []
  | [x] => f x
  | x :: y :: xs => f x ++ .sign ',' :: commaParts f (y :: xs)

namespace Reader

section CommaList

variable {α : Type} {item : Reader α} {hitem : Advances item} {ts rest : List Token} {x : α}

/-- A list ends where no comma follows. -/
theorem commaList_last (h : item ts = some (x, rest)) (hcomma : (peek rest).isPunct ',' = false) :
    commaList item hitem ts = some ([x], rest) := by
  rw [commaList]
  split
  · next e => simp [h] at e
  · next y mid e =>
    obtain ⟨rfl, rfl⟩ := Prod.mk.inj (Option.some.inj (h.symm.trans e))
    rw [if_neg (by simp [hcomma])]

/-- A list goes on behind a comma. -/
theorem commaList_cons {xs : List α} {last : List Token} (h : item ts = some (x, rest))
    (hcomma : (peek rest).isPunct ',' = true)
    (hmore : commaList item hitem (advance rest) = some (xs, last)) :
    commaList item hitem ts = some (x :: xs, last) := by
  rw [commaList]
  split
  · next e => simp [h] at e
  · next y mid e =>
    obtain ⟨rfl, rfl⟩ := Prod.mk.inj (Option.some.inj (h.symm.trans e))
    rw [if_pos hcomma, hmore]

end CommaList

/-- Several things are read back with commas between them. -/
theorem reads_commaList {α β : Type} {item : Reader β} {hitem : Advances item}
    {f : α → List Part} {g : α → β} {next : List Token → Prop} {xs : List α} (hne : xs ≠ [])
    (h : ∀ x ∈ xs, Reads item (f x) (g x) next)
    (hcomma : ∀ gap text start rest, next (⟨.punct ',', gap, text, start⟩ :: rest)) :
    Reads (commaList item hitem) (commaParts f xs) (xs.map g) fun rest =>
      next rest ∧ (peek rest).isPunct ',' = false := by
  induction xs with
  | nil => exact absurd rfl hne
  | cons x xs ih =>
    intro ts rest hts ⟨hnext, hlast⟩
    obtain ⟨hx, hxs⟩ := List.forall_mem_cons.1 h
    cases xs with
    | nil => exact commaList_last (hx ts rest hts hnext) hlast
    | cons y ys =>
      rw [commaParts] at hts
      obtain ⟨us, vs, rfl, hus, hvs⟩ := hts.exists_of_append
      obtain ⟨gap, start, vs, rfl, -, hvs⟩ := hvs.exists_word
      have hread := hx us _ hus (hcomma gap (String.ofList [',']).toList start (vs ++ rest))
      have hmore := ih (List.cons_ne_nil _ _) hxs vs rest hvs ⟨hnext, hlast⟩
      rw [List.append_assoc, List.cons_append]
      refine commaList_cons hread ?_ ?_
      · rw [peek_cons (by simp)]
        rfl
      · rw [advance_cons (by simp)]
        exact hmore

/-- Several names are read back. -/
theorem reads_nameList {names : List String} (hne : names ≠ []) :
    Reads nameList (commaParts (fun n => [.name n]) names) names fun rest =>
      (peek rest).isPunct ',' = false := by
  have h := @reads_commaList String String name advances_name (fun n => [.name n]) id Whatever names
    hne (fun n _ => reads_name n) fun _ _ _ _ => trivial
  rw [List.map_id] at h
  exact h.mono fun rest hrest => ⟨trivial, hrest⟩

/-- A single thing is read back as a group. -/
theorem reads_group {α : Type} {item : Reader α} {hitem : Advances item} {ps : List Part} {x : α}
    {next : List Token → Prop} (h : Reads item ps x next)
    (hsemicolon : ∀ gap text start rest, next (⟨.punct ';', gap, text, start⟩ :: rest))
    (hcomma : ∀ gap text start rest, next (⟨.punct ',', gap, text, start⟩ :: rest)) :
    Reads (group item hitem) (ps ++ [.sign ';']) [x] Whatever := by
  have hlist := @reads_commaList Unit α item hitem (fun _ => ps) (fun _ => x) next [()]
    (List.cons_ne_nil _ _) (fun _ _ => h) hcomma
  have hend : Reads (expectPunct ';' >>= fun _ => (Pure.pure [x] : Reader (List α))) [.sign ';'] [x]
      Whatever := (reads_expectPunct ';').bind_pure
  refine hlist.bind hend (.cons fun gap start rest => ⟨hsemicolon _ _ _ _, ?_⟩)
  rw [peek_cons (by simp)]
  rfl

/-- A name behind a keyword is read back. -/
theorem reads_nameBehind (keyword n : String) :
    Reads (nameBehind keyword) [.name keyword, .name n] (some n) Whatever :=
  (reads_eatKeyword keyword).bind_whatever (reads_name n).bind_pure

/-- No name is read where the keyword is missing. -/
theorem reads_nameBehind_none (keyword : String) :
    Reads (nameBehind keyword) [] none fun rest => (peek rest).isKeyword keyword = false :=
  reads_eat_none.bind (Reads.pure.mono fun _ _ => trivial) (.nil fun _ h => h)

/-- Names behind a keyword are read back. -/
theorem reads_namesBehind (keyword : String) {names : List String} (hne : names ≠ []) :
    Reads (namesBehind keyword) (.name keyword :: commaParts (fun n => [.name n]) names) names
      fun rest => (peek rest).isPunct ',' = false :=
  (reads_eatKeyword keyword).bind_whatever (reads_nameList hne)

/-- No names are read where the keyword is missing. -/
theorem reads_namesBehind_none (keyword : String) :
    Reads (namesBehind keyword) [] [] fun rest => (peek rest).isKeyword keyword = false :=
  reads_eat_none.bind (Reads.pure.mono fun _ _ => trivial) (.nil fun _ h => h)

end Reader

/-! ## Modifiers -/

/-- The parts of modifiers. -/
def Modifiers.parts (ms : Modifiers) : List Part := ms.keywords.map .name

/-- The modifiers in the order in which they are written are those of the set. -/
theorem Modifiers.foldl_written (ms : Modifiers) :
    (Modifier.written.filter ms.has).foldl Modifiers.insert .none = ms := by
  obtain ⟨a, b, c, d, e, f, g⟩ := ms
  revert a b c d e f g
  decide

/-- The keyword of a modifier is that of no other one, and it is not `var`. -/
theorem Modifier.ofKeyword?_keyword (m : Modifier) :
    Modifier.ofKeyword? m.keyword = some m ∧ eqIgnoreCase m.keyword "var" = false := by
  cases m <;> decide

/-- Whether a word announces a member or modifies one. -/
def announces (s : String) : Bool :=
  (Modifier.ofKeyword? s).isSome || eqIgnoreCase s "var" || eqIgnoreCase s "const" ||
    eqIgnoreCase s "function"

namespace Reader

/-- A token that is no modifier and no doc comment. -/
def EndsModifiers (t : Token) : Prop :=
  t.kind ≠ .docComment ∧ (if t.kind == .name then Modifier.ofKeyword? t.source else none) = none

/-- The token of a modifier. -/
theorem modifierToken (m : Modifier) (gap : List Char) (start : Nat) :
    let t : Token := ⟨.name, gap, m.keyword.toList, start⟩
    isDoc t = false ∧ t.isKeyword "var" = false ∧
      (if t.kind == .name then Modifier.ofKeyword? t.source else none) = some m := by
  obtain ⟨h₁, h₂⟩ := Modifier.ofKeyword?_keyword m
  refine ⟨rfl, isKeyword_self.trans h₂, ?_⟩
  have : (Token.mk .name gap m.keyword.toList start).source = m.keyword := String.ofList_toList
  rw [this, h₁]
  rfl

/-- Modifiers are read up to a token that is none. -/
theorem modifiersAhead_append {ms : List Modifier} {found : Modifiers} {ts : List Token} {t : Token}
    {rest : List Token} (hts : Spells ts (ms.map fun m => .name m.keyword)) (ht : EndsModifiers t)
    (hvar : t.isKeyword "var" = false) :
    modifiersAhead found false (ts ++ t :: rest) = ((ms.foldl .insert found, false), t :: rest) := by
  induction ms generalizing found ts with
  | nil =>
    rw [hts.eq_nil, List.nil_append, modifiersAhead, if_neg (by simp [isDoc, ht.1]),
      if_neg (by simp [hvar]), ht.2]
    rfl
  | cons m ms ih =>
    rw [List.map_cons] at hts
    obtain ⟨gap, start, us, rfl, -, hus⟩ := hts.exists_word
    obtain ⟨h₁, h₂, h₃⟩ := modifierToken m gap start
    rw [List.cons_append, modifiersAhead, if_neg (by simp [h₁]), if_neg (by simp [h₂]), h₃]
    exact ih hus

/-- Modifiers of a parameter are read up to a token that is none. -/
theorem promotionAhead_append {ms : List Modifier} {found : Modifiers} {ts : List Token} {t : Token}
    {rest : List Token} (hts : Spells ts (ms.map fun m => .name m.keyword))
    (ht : EndsModifiers t) :
    promotionAhead found (ts ++ t :: rest) = (ms.foldl .insert found, t :: rest) := by
  induction ms generalizing found ts with
  | nil =>
    rw [hts.eq_nil, List.nil_append, promotionAhead, if_neg (by simp [isDoc, ht.1]), ht.2]
    rfl
  | cons m ms ih =>
    rw [List.map_cons] at hts
    obtain ⟨gap, start, us, rfl, -, hus⟩ := hts.exists_word
    obtain ⟨h₁, -, h₃⟩ := modifierToken m gap start
    rw [List.cons_append, promotionAhead, if_neg (by simp [h₁]), h₃]
    exact ih hus

/-- The parts of modifiers are those of their keywords as they are written. -/
theorem modifiersParts_eq (ms : Modifiers) :
    ms.parts = (Modifier.written.filter ms.has).map fun m => .name m.keyword := by
  rw [Modifiers.parts, Modifiers.keywords, List.map_map]
  rfl

/-- Modifiers are read back. -/
theorem reads_modifiers (ms : Modifiers) :
    Reads modifiers ms.parts (ms, false) fun rest =>
      ∃ t us, rest = t :: us ∧ EndsModifiers t ∧ t.isKeyword "var" = false := by
  intro ts rest hts ⟨t, us, hrest, ht, hvar⟩
  rw [modifiersParts_eq] at hts
  rw [modifiers, hrest, modifiersAhead_append hts ht hvar, Modifiers.foldl_written]

/-- The modifiers of a parameter are read back. -/
theorem reads_promotion (ms : Modifiers) :
    Reads promotion ms.parts ms fun rest => ∃ t us, rest = t :: us ∧ EndsModifiers t := by
  intro ts rest hts ⟨t, us, hrest, ht⟩
  rw [modifiersParts_eq] at hts
  rw [promotion, hrest, promotionAhead_append hts ht, Modifiers.foldl_written]

end Reader

end PhpGraft

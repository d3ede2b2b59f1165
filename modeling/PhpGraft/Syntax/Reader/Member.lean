import PhpGraft.Syntax.Reader.Attribute
import PhpGraft.Syntax.Reader.Value

/-!
# Reading members

A member of a class or interface is a use of traits, a group of constants, a group of properties or
a method. A group gives one node for each of its names, and the first of them takes the doc comment
and the attributes. A member of any other form is kept as source text up to its end.
-/

namespace PhpGraft.Reader

/-- Source and what is left behind it, with a token and its gap ahead of the source. -/
def consSource (t : Token) (parts : List Char × List Token) : List Char × List Token :=
  (t.gap ++ t.text ++ parts.1, parts.2)

/-- Reads the source between a pair of braces, of which the opening one is read: up to the closing
delimiter outside all brackets. -/
def blockSource? (depth : Nat) : List Token → Option (List Char × List Token)
  | [] => none
  | t :: ts =>
    if t.isEnd then none
    else if t.isOpener then (blockSource? (depth + 1) ts).map (consSource t)
    else if t.closer?.isSome then
      if depth = 0 then some (t.gap, ts) else (blockSource? (depth - 1) ts).map (consSource t)
    else (blockSource? depth ts).map (consSource t)

/-- Reading the source between braces takes nothing back. -/
theorem neverGrows_blockSource? (depth : Nat) : NeverGrows (blockSource? depth) := by
  intro ts source rest h
  induction ts generalizing depth source with
  | nil => simp [blockSource?] at h
  | cons t ts ih =>
    have step {d : Nat} (h : (blockSource? d ts).map (consSource t) = some (source, rest)) :
        rest.length ≤ (t :: ts).length := by
      obtain ⟨_, hs, e⟩ := Option.map_eq_some_iff.1 h
      obtain ⟨_, rfl⟩ := Prod.mk.inj e
      exact Nat.le_succ_of_le (ih _ hs)
    unfold blockSource? at h
    repeat' split at h
    · simp at h
    · exact step h
    · obtain ⟨_, rfl⟩ := Prod.mk.inj (Option.some.inj h)
      exact Nat.le_succ _
    · exact step h
    · exact step h

/-- Reads a block of statements in braces. -/
def block : Reader Body := do
  expectPunct '{'
  return Body.ofSource (← blockSource? 0)

/-- A reader of a block advances. -/
theorem advances_block : Advances block :=
  advances_bind_left (advances_expectPunct _) fun _ =>
    neverGrows_bind (neverGrows_blockSource? _) fun _ => neverGrows_pure _

/-- The modifiers that come next and whether `var` is among them, and the tokens behind them. -/
def modifiersAhead (found : Modifiers) (var : Bool) :
    List Token → (Modifiers × Bool) × List Token
  | [] => ((found, var), [])
  | t :: ts =>
    if isDoc t then modifiersAhead found var ts
    else if t.isKeyword "var" then modifiersAhead found true ts
    else
      match if t.kind == .name then Modifier.ofKeyword? t.source else none with
      | some m => modifiersAhead (found.insert m) var ts
      | none => ((found, var), t :: ts)

/-- Passing over modifiers takes nothing back. -/
theorem length_modifiersAhead_le (found : Modifiers) (var : Bool) (ts : List Token) :
    (modifiersAhead found var ts).2.length ≤ ts.length := by
  induction ts generalizing found var with
  | nil => exact Nat.le_refl _
  | cons t ts ih =>
    unfold modifiersAhead
    repeat' split
    · exact Nat.le_succ_of_le (ih _ _)
    · exact Nat.le_succ_of_le (ih _ _)
    · exact Nat.le_succ_of_le (ih _ _)
    · exact Nat.le_refl _

/-- Reads the modifiers that come next and whether `var` is among them. -/
def modifiers : Reader (Modifiers × Bool) := fun ts => some (modifiersAhead .none false ts)

/-- Reading modifiers takes nothing back. -/
theorem neverGrows_modifiers : NeverGrows modifiers := by
  intro ts found rest h
  have := length_modifiersAhead_le .none false ts
  rwa [Option.some.inj h] at this

/-- The modifiers that come next, and the tokens behind them; `var` is none of them. -/
def promotionAhead (found : Modifiers) : List Token → Modifiers × List Token
  | [] => (found, [])
  | t :: ts =>
    if isDoc t then promotionAhead found ts
    else
      match if t.kind == .name then Modifier.ofKeyword? t.source else none with
      | some m => promotionAhead (found.insert m) ts
      | none => (found, t :: ts)

/-- Passing over the modifiers of a parameter takes nothing back. -/
theorem length_promotionAhead_le (found : Modifiers) (ts : List Token) :
    (promotionAhead found ts).2.length ≤ ts.length := by
  induction ts generalizing found with
  | nil => exact Nat.le_refl _
  | cons t ts ih =>
    unfold promotionAhead
    repeat' split
    · exact Nat.le_succ_of_le (ih _)
    · exact Nat.le_succ_of_le (ih _)
    · exact Nat.le_refl _

/-- Reads the modifiers that make a parameter a property. -/
def promotion : Reader Modifiers := fun ts => some (promotionAhead .none ts)

/-- Reading the modifiers of a parameter takes nothing back. -/
theorem neverGrows_promotion : NeverGrows promotion := by
  intro ts found rest h
  have := length_promotionAhead_le .none ts
  rwa [Option.some.inj h] at this

/-- Reads a type, unless the next token tells that there is none. -/
def typeUnless (bare : Token → Bool) : Reader (Option TypeHint) := do
  if bare (← look) then return none
  return some (← typeHint)

/-- Reading a type where there is one takes nothing back. -/
theorem neverGrows_typeUnless (bare : Token → Bool) : NeverGrows (typeUnless bare) := by
  refine neverGrows_bind neverGrows_look fun _ => ?_
  split
  · exact neverGrows_pure _
  · exact neverGrows_bind advances_typeHint.neverGrows fun _ => neverGrows_pure _

/-- Reads the value behind an equals sign, if one comes next. -/
def defaultValue (stop : Char → Bool) : Reader (Option Expr) := do
  if ← eatPunct '=' then return some (← expression stop)
  return none

/-- Reading a value where there is one takes nothing back. -/
theorem neverGrows_defaultValue (stop : Char → Bool) : NeverGrows (defaultValue stop) := by
  refine neverGrows_bind (neverGrows_eat _) fun _ => ?_
  split
  · exact neverGrows_bind (advances_expression _).neverGrows fun _ => neverGrows_pure _
  · exact neverGrows_pure _

/-- Whether a parameter without a type starts with a token. -/
def startsBareParam (t : Token) : Bool := t.kind == .var || t.isPunct '&' || t.kind == .ellipsis

/-- Reads a parameter of a method. -/
def param : Reader Param := do
  let attributes ← attributes
  let modifiers ← promotion
  let type? ← typeUnless startsBareParam
  let byRef ← eatPunct '&'
  let variadic ← eat (·.kind == .ellipsis)
  let name ← variableName
  let default? ← defaultValue (· == ',')
  return { name, type?, default?, byRef, variadic, modifiers, attributes }

/-- A reader of a parameter advances. -/
theorem advances_param : Advances param :=
  advances_bind_right neverGrows_attributes fun _ =>
    advances_bind_right neverGrows_promotion fun _ =>
      advances_bind_right (neverGrows_typeUnless _) fun _ =>
        advances_bind_right (neverGrows_eat _) fun _ =>
          advances_bind_right (neverGrows_eat _) fun _ =>
            advances_bind_left advances_variableName fun _ =>
              neverGrows_bind (neverGrows_defaultValue _) fun _ => neverGrows_pure _

/-- Reads parameters up to and including the closing parenthesis. A comma may stand behind the last
one. -/
def params (ts : List Token) : Option (List Param × List Token) :=
  if (peek ts).isPunct ')' then some ([], advance ts)
  else
    match _h : param ts with
    | none => none
    | some (p, rest) =>
      if (peek rest).isPunct ')' then some ([p], advance rest)
      else if (peek rest).isPunct ',' then
        (params (advance rest)).map fun (ps, rest) => (p :: ps, rest)
      else none
termination_by ts.length
decreasing_by
  have := advances_param _h
  have := length_advance_le rest
  omega

/-- Reading parameters takes nothing back. -/
theorem neverGrows_params : NeverGrows params := by
  intro ts ps rest h
  unfold params at h
  split at h
  · obtain ⟨_, rfl⟩ := Prod.mk.inj (Option.some.inj h)
    exact length_advance_le ts
  · split at h
    · simp at h
    · next p mid e =>
      have := advances_param e
      have := length_advance_le mid
      repeat' split at h
      · obtain ⟨_, rfl⟩ := Prod.mk.inj (Option.some.inj h)
        omega
      · obtain ⟨_, hs, e⟩ := Option.map_eq_some_iff.1 h
        obtain ⟨_, rfl⟩ := Prod.mk.inj e
        have := neverGrows_params hs
        omega
      · simp at h
termination_by ts => ts.length

/-- Reads the declared type of a result, if there is one. -/
def returnType : Reader (Option TypeHint) := do
  if ← eatPunct ':' then return some (← typeHint)
  return none

/-- Reading the type of a result takes nothing back. -/
theorem neverGrows_returnType : NeverGrows returnType := by
  refine neverGrows_bind (neverGrows_eat _) fun _ => ?_
  split
  · exact neverGrows_bind advances_typeHint.neverGrows fun _ => neverGrows_pure _
  · exact neverGrows_pure _

/-- Reads a block, or a semicolon in its place. -/
def blockOrNone : Reader (Option Body) := do
  if ← eatPunct ';' then return none
  return some (← block)

/-- Reading a block or a semicolon takes nothing back. -/
theorem neverGrows_blockOrNone : NeverGrows blockOrNone := by
  refine neverGrows_bind (neverGrows_eat _) fun _ => ?_
  split
  · exact neverGrows_pure _
  · exact neverGrows_bind advances_block.neverGrows fun _ => neverGrows_pure _

/-- Reads a method behind its modifiers. -/
def method (modifiers : Modifiers) : Reader MethodDecl := do
  let _ ← expect (·.isKeyword "function")
  let byRef ← eatPunct '&'
  let name ← name
  expectPunct '('
  let params ← params
  let returns? ← returnType
  let body? ← blockOrNone
  return { name, modifiers, byRef, params, returns?, body? }

/-- A reader of a method advances. -/
theorem advances_method (modifiers : Modifiers) : Advances (method modifiers) :=
  advances_bind_left (advances_expect rfl) fun _ =>
    neverGrows_bind (neverGrows_eat _) fun _ =>
      neverGrows_bind advances_name.neverGrows fun _ =>
        neverGrows_bind (advances_expectPunct _).neverGrows fun _ =>
          neverGrows_bind neverGrows_params fun _ =>
            neverGrows_bind neverGrows_returnType fun _ =>
              neverGrows_bind neverGrows_blockOrNone fun _ => neverGrows_pure _

/-- Whether a character ends the value of one entry in a group. -/
def endsEntry (c : Char) : Bool := c == ',' || c == ';'

/-- Reads one constant of a group. -/
def constant (modifiers : Modifiers) : Reader ConstDecl := do
  let name ← name
  expectPunct '='
  let value ← expression endsEntry
  return { name, modifiers, value }

/-- A reader of a constant advances. -/
theorem advances_constant (modifiers : Modifiers) : Advances (constant modifiers) :=
  advances_bind_left advances_name fun _ =>
    neverGrows_bind (advances_expectPunct _).neverGrows fun _ =>
      neverGrows_bind (advances_expression _).neverGrows fun _ => neverGrows_pure _

/-- Reads one property of a group. A property with hooks is not of this form. -/
def property (modifiers : Modifiers) (type? : Option TypeHint) : Reader PropertyDecl := do
  let name ← variableName
  let default? ← defaultValue endsEntry
  return { name, modifiers, type?, default? }

/-- A reader of a property advances. -/
theorem advances_property (modifiers : Modifiers) (type? : Option TypeHint) :
    Advances (property modifiers type?) :=
  advances_bind_left advances_variableName fun _ =>
    neverGrows_bind (neverGrows_defaultValue _) fun _ => neverGrows_pure _

/-- Reads one or more things with commas between them up to and including a semicolon. -/
def group {α : Type} (item : Reader α) (hitem : Advances item) : Reader (List α) := do
  let items ← commaList item hitem
  expectPunct ';'
  return items

/-- A reader of a group advances. -/
theorem advances_group {α : Type} {item : Reader α} (hitem : Advances item) :
    Advances (group item hitem) :=
  advances_bind_left (advances_commaList hitem) fun _ =>
    neverGrows_bind (advances_expectPunct _).neverGrows fun _ => neverGrows_pure _

/-- Reads a group of constants behind the keyword. A constant with a type is not of this form. -/
def constants (modifiers : Modifiers) : Reader (List ConstDecl) :=
  group (constant modifiers) (advances_constant modifiers)

/-- Reads a group of properties behind its modifiers. -/
def properties (modifiers : Modifiers) : Reader (List PropertyDecl) := do
  let type? ← typeUnless (·.kind == .var)
  group (property modifiers type?) (advances_property modifiers type?)

/-- A reader of a group of properties advances. -/
theorem advances_properties (modifiers : Modifiers) : Advances (properties modifiers) :=
  advances_bind_right (neverGrows_typeUnless _) fun _ => advances_group _

/-- Reads the traits that a class uses, behind the keyword. -/
def traitUse : Reader NodeKind := do
  let traits ← nameList
  let adaptations? ← blockOrNone
  return .traitUse traits adaptations?

/-- A reader of the traits of a class advances. -/
theorem advances_traitUse : Advances traitUse :=
  advances_bind_left advances_nameList fun _ =>
    neverGrows_bind neverGrows_blockOrNone fun _ => neverGrows_pure _

/-- Reads a constant, a method or properties behind their modifiers. -/
def modifiedKinds (modifiers : Modifiers) (var : Bool) : Reader (List NodeKind) := do
  if ← eatKeyword "const" then return (← constants modifiers).map .constDecl
  if (← look).isKeyword "function" then return [.methodDecl (← method modifiers)]
  if modifiers.isEmpty && !var then failure
  else return (← properties modifiers).map .propertyDecl

/-- A reader of a constant, a method or properties advances. -/
theorem advances_modifiedKinds (modifiers : Modifiers) (var : Bool) :
    Advances (modifiedKinds modifiers var) := by
  refine advances_bind_right (neverGrows_eat _) fun _ => ?_
  split
  · exact advances_bind_left (advances_group _) fun _ => neverGrows_pure _
  · refine advances_bind_right neverGrows_look fun _ => ?_
    split
    · exact advances_bind_left (advances_method _) fun _ => neverGrows_pure _
    · split
      · exact advances_failure
      · exact advances_bind_left (advances_properties _) fun _ => neverGrows_pure _

/-- Reads a member behind its attributes: the nodes that it gives, without doc and attributes. -/
def memberKinds : Reader (List NodeKind) := do
  if ← eatKeyword "use" then return [← traitUse]
  let (modifiers, var) ← modifiers
  modifiedKinds modifiers var

/-- A reader of a member behind its attributes advances. -/
theorem advances_memberKinds : Advances memberKinds := by
  refine advances_bind_right (neverGrows_eat _) fun _ => ?_
  split
  · exact advances_bind_left advances_traitUse fun _ => neverGrows_pure _
  · exact advances_bind_right neverGrows_modifiers fun _ => advances_modifiedKinds _ _

/-- The nodes of some kinds, of which the first takes the doc comment and the attributes. -/
def nodesOf (doc? : Option String) (attributes : List Attribute) : List NodeKind → List Outline
  | [] => []
  | kind :: kinds =>
    .leaf { kind, doc?, attributes } :: kinds.map fun kind => .leaf { kind }

/-- Reads the doc comment and the attributes ahead of a declaration. The doc comment may stand on
either side of the attributes. -/
def preamble : Reader (Option String × List Attribute) := fun ts => do
  let (attributes, rest) ← attributes ts
  let doc? := (leadingDoc ts).or (leadingDoc rest)
  some ((doc?, attributes), rest)

/-- Reading what stands ahead of a declaration takes nothing back. -/
theorem neverGrows_preamble : NeverGrows preamble := by
  intro ts found rest h
  obtain ⟨_, hs, e⟩ := Option.bind_eq_some_iff.1 h
  obtain ⟨_, rfl⟩ := Prod.mk.inj (Option.some.inj e)
  exact neverGrows_attributes hs

/-- Reads a member of a known form. -/
def knownMember : Reader (List Outline) := do
  let (doc?, attributes) ← preamble
  return nodesOf doc? attributes (← memberKinds)

/-- A reader of a member of a known form advances. -/
theorem advances_knownMember : Advances knownMember :=
  advances_bind_right neverGrows_preamble fun _ =>
    advances_bind_left advances_memberKinds fun _ => neverGrows_pure _

/-- Whether a token continues the statement whose block ends ahead of it. -/
def continuesBlock (afterDo : Bool) (t : Token) : Bool :=
  t.isKeyword "else" || t.isKeyword "elseif" || t.isKeyword "catch" || t.isKeyword "finally" ||
    (afterDo && t.isKeyword "while")

/-- Cuts off the tokens of one statement or member, of whatever form. It ends at a semicolon outside
all brackets, or with its first block unless that is continued. The token `lead` is the first one of
the statement that is no doc comment. -/
def statementSpan (lead : Token) (depth : Nat) :
    List Token → Except ParseError (List Token × List Token)
  | [] => .error (lead.error .unexpectedEnd)
  | t :: ts =>
    if t.kind == .eof then .error (lead.error .unexpectedEnd)
    else if t.kind == .closeTag then
      if depth = 0 then .ok ([], t :: ts) else .error (t.error .unexpectedCloseTag)
    else if depth = 0 ∧ t.isPunct ';' then .ok ([t], ts)
    else if t.isOpener then (statementSpan lead (depth + 1) ts).map (consFirst t)
    else
      match t.closer? with
      | none => (statementSpan lead depth ts).map (consFirst t)
      | some c =>
        if depth = 0 then .error (t.error (.unexpectedCloser c))
        else if depth = 1 ∧ c = '}' then
          if (peek ts).isPunct ';' then .ok (t :: (ts.takeWhile isDoc ++ [peek ts]), advance ts)
          else if continuesBlock (lead.isKeyword "do") (peek ts) then
            (statementSpan lead 0 ts).map (consFirst t)
          else .ok ([t], ts)
        else (statementSpan lead (depth - 1) ts).map (consFirst t)

/-- The doc comments, the token behind them and what is left are the tokens. -/
theorem takeWhile_append_peek {ts : List Token} (h : skipDocs ts ≠ []) :
    ts.takeWhile isDoc ++ peek ts :: advance ts = ts := by
  have : peek ts :: advance ts = skipDocs ts := by
    unfold peek advance
    cases e : skipDocs ts with
    | nil => exact absurd e h
    | cons t rest => rfl
  rw [this]
  exact List.takeWhile_append_dropWhile

/-- A cut with another token ahead of it is a cut of the tokens ahead of which it stands. -/
theorem exists_of_map_consFirst {t : Token} {cut : Except ParseError (List Token × List Token)}
    {taken rest : List Token} (h : cut.map (consFirst t) = .ok (taken, rest)) :
    ∃ more, cut = .ok (more, rest) ∧ taken = t :: more := by
  cases cut with
  | error e => simp [Except.map] at h
  | ok parts =>
    obtain ⟨rfl, rfl⟩ := Prod.mk.inj (Except.ok.inj h)
    exact ⟨parts.1, rfl, rfl⟩

/-- What was cut off and what is left are the tokens. -/
theorem append_of_statementSpan {lead : Token} {depth : Nat} {ts taken rest : List Token}
    (h : statementSpan lead depth ts = .ok (taken, rest)) : taken ++ rest = ts := by
  induction ts generalizing depth taken rest with
  | nil => simp [statementSpan] at h
  | cons t ts ih =>
    have step {d : Nat} (h : (statementSpan lead d ts).map (consFirst t) = .ok (taken, rest)) :
        taken ++ rest = t :: ts := by
      obtain ⟨more, hs, rfl⟩ := exists_of_map_consFirst h
      exact congrArg (t :: ·) (ih hs)
    unfold statementSpan at h
    repeat' split at h
    · simp at h
    · obtain ⟨rfl, rfl⟩ := Prod.mk.inj (Except.ok.inj h)
      rfl
    · simp at h
    · obtain ⟨rfl, rfl⟩ := Prod.mk.inj (Except.ok.inj h)
      rfl
    · exact step h
    · exact step h
    · simp at h
    · next hp =>
      obtain ⟨rfl, rfl⟩ := Prod.mk.inj (Except.ok.inj h)
      have := takeWhile_append_peek (skipDocs_ne_nil (p := (·.isPunct ';')) rfl hp)
      rw [List.cons_append, List.append_assoc, List.singleton_append, this]
    · exact step h
    · obtain ⟨rfl, rfl⟩ := Prod.mk.inj (Except.ok.inj h)
      rfl
    · exact step h

/-- Nothing is cut off only where the source stands at a close tag. -/
theorem ne_nil_of_statementSpan {lead t : Token} {depth : Nat} {ts taken rest : List Token}
    (h : statementSpan lead depth (t :: ts) = .ok (taken, rest)) (ht : t.kind ≠ .closeTag) :
    taken ≠ [] := by
  have step {d : Nat} (h : (statementSpan lead d ts).map (consFirst t) = .ok (taken, rest)) :
      taken ≠ [] := by
    obtain ⟨_, _, rfl⟩ := exists_of_map_consFirst h
    exact List.cons_ne_nil _ _
  unfold statementSpan at h
  repeat' split at h
  · simp at h
  · next hk _ => exact absurd (eq_of_beq hk) ht
  · simp at h
  · obtain ⟨rfl, _⟩ := Prod.mk.inj (Except.ok.inj h)
    exact List.cons_ne_nil _ _
  · exact step h
  · exact step h
  · simp at h
  · obtain ⟨rfl, _⟩ := Prod.mk.inj (Except.ok.inj h)
    exact List.cons_ne_nil _ _
  · exact step h
  · obtain ⟨rfl, _⟩ := Prod.mk.inj (Except.ok.inj h)
    exact List.cons_ne_nil _ _
  · exact step h

/-- Reads a statement or a member and gives its nodes. The source can be wrong in it. -/
abbrev ItemReader := List Token → Except ParseError (List Outline × List Token)

/-- A reader of statements or members that takes at least one token whenever it succeeds. -/
def ItemReader.Advances (item : ItemReader) : Prop :=
  ∀ ⦃ts found rest⦄, item ts = .ok (found, rest) → rest.length < ts.length

/-- Reads one statement or member as source text, doc comments and attributes included. -/
def verbatim : ItemReader := fun ts =>
  if (peek ts).kind == .closeTag then .error ((peek ts).error .unexpectedCloseTag)
  else
    (statementSpan (peek ts) 0 ts).map fun parts =>
      ([.verbatim (Token.span parts.1)], parts.2)

/-- A reader of a statement or member as source text advances. -/
theorem advances_verbatim : ItemReader.Advances verbatim := by
  intro ts found rest h
  unfold verbatim at h
  split at h
  · simp at h
  · next hlead =>
    cases e : statementSpan (peek ts) 0 ts with
    | error e' => rw [e] at h; simp [Except.map] at h
    | ok parts =>
      rw [e] at h
      obtain ⟨_, rfl⟩ := Prod.mk.inj (Except.ok.inj h)
      have := congrArg List.length (append_of_statementSpan e)
      rw [List.length_append] at this
      have : parts.1 ≠ [] := by
        cases ts with
        | nil => simp [statementSpan] at e
        | cons t ts =>
          refine ne_nil_of_statementSpan e fun ht => hlead ?_
          simp [peek, skipDocs, isDoc, ht]
      have := List.length_pos_iff.2 this
      omega

/-- Reads a member, as source text if it is of no known form. -/
def member : ItemReader := fun ts =>
  match knownMember ts with
  | some found => .ok found
  | none => verbatim ts

/-- A reader of a member advances. -/
theorem advances_member : ItemReader.Advances member := by
  intro ts found rest h
  unfold member at h
  split at h
  · next e => exact advances_knownMember (Except.ok.inj h ▸ e)
  · exact advances_verbatim h

end PhpGraft.Reader

import PhpGraft.Syntax.Reader.Scope

/-!
# Reading statements

The statements that have a form of their own are directives, imports, classes, interfaces and the
return of an anonymous class; any other one is kept as source text. Inside the braces of a class the
brackets have to be balanced, and so they do in a statement of any other form: these are the errors
that a statement can give.
-/

namespace PhpGraft.Reader

/-- Reads a directive: `declare(key=value);`. -/
def directive : Reader NodeKind := do
  let _ ← expect (·.isKeyword "declare")
  expectPunct '('
  let key ← name
  expectPunct '='
  let value ← expression fun _ => false
  expectPunct ')'
  expectPunct ';'
  return .directive key value

/-- A reader of a directive advances. -/
theorem advances_directive : Advances directive :=
  advances_bind_left (advances_expect rfl) fun _ =>
    neverGrows_bind (advances_expectPunct _).neverGrows fun _ =>
      neverGrows_bind advances_name.neverGrows fun _ =>
        neverGrows_bind (advances_expectPunct _).neverGrows fun _ =>
          neverGrows_bind (advances_expression _).neverGrows fun _ =>
            neverGrows_bind (advances_expectPunct _).neverGrows fun _ =>
              neverGrows_bind (advances_expectPunct _).neverGrows fun _ => neverGrows_pure _

/-- Reads a name behind a keyword, if the keyword comes next. -/
def nameBehind (keyword : String) : Reader (Option String) := do
  if ← eatKeyword keyword then return some (← name)
  return none

/-- Reading a name behind a keyword takes nothing back. -/
theorem neverGrows_nameBehind (keyword : String) : NeverGrows (nameBehind keyword) := by
  refine neverGrows_bind (neverGrows_eat _) fun _ => ?_
  split
  · exact neverGrows_bind advances_name.neverGrows fun _ => neverGrows_pure _
  · exact neverGrows_pure _

/-- Reads one or more names behind a keyword, if the keyword comes next. -/
def namesBehind (keyword : String) : Reader (List String) := do
  if ← eatKeyword keyword then nameList else return []

/-- Reading names behind a keyword takes nothing back. -/
theorem neverGrows_namesBehind (keyword : String) : NeverGrows (namesBehind keyword) := by
  refine neverGrows_bind (neverGrows_eat _) fun _ => ?_
  split
  · exact advances_nameList.neverGrows
  · exact neverGrows_pure _

/-- Reads one imported name and its alias. -/
def importedName : Reader NodeKind := do
  let imported ← name
  let alias? ← nameBehind "as"
  return .useDecl imported alias?

/-- A reader of an imported name advances. -/
theorem advances_importedName : Advances importedName :=
  advances_bind_left advances_name fun _ =>
    neverGrows_bind (neverGrows_nameBehind _) fun _ => neverGrows_pure _

/-- Reads an import of one or more names. Functions, constants and groups are not of this form. -/
def imports : Reader (List NodeKind) := do
  let _ ← expect (·.isKeyword "use")
  let ahead ← look
  if ahead.isKeyword "function" || ahead.isKeyword "const" then failure
  else group importedName advances_importedName

/-- A reader of an import advances. -/
theorem advances_imports : Advances imports := by
  refine advances_bind_left (advances_expect rfl) fun _ =>
    neverGrows_bind neverGrows_look fun _ => ?_
  split
  · exact advances_failure.neverGrows
  · exact (advances_group _).neverGrows

/-- Reads the modifiers of a class up to and including the word that starts it. -/
def classModifiers (found : Modifiers) : Reader Modifiers
  | [] => none
  | t :: ts =>
    if isDoc t then classModifiers found ts
    else if t.isKeyword "class" then some (found, ts)
    else if t.isKeyword "abstract" then classModifiers (found.insert .isAbstract) ts
    else if t.isKeyword "final" then classModifiers (found.insert .isFinal) ts
    else if t.isKeyword "readonly" then classModifiers (found.insert .isReadonly) ts
    else none

/-- A reader of the modifiers of a class advances. -/
theorem advances_classModifiers (found : Modifiers) : Advances (classModifiers found) := by
  intro ts modifiers rest h
  induction ts generalizing found with
  | nil => simp [classModifiers] at h
  | cons t ts ih =>
    unfold classModifiers at h
    repeat' split at h
    · exact Nat.lt_succ_of_lt (ih _ h)
    · obtain ⟨_, rfl⟩ := Prod.mk.inj (Option.some.inj h)
      exact Nat.lt_succ_self _
    · exact Nat.lt_succ_of_lt (ih _ h)
    · exact Nat.lt_succ_of_lt (ih _ h)
    · exact Nat.lt_succ_of_lt (ih _ h)
    · simp at h

/-- Reads the head of a class behind its name. -/
def classHeritage (name? : Option String) (modifiers : Modifiers) : Reader ClassDecl := do
  let parent? ← nameBehind "extends"
  let interfaces ← namesBehind "implements"
  return { name?, modifiers, parent?, interfaces }

/-- Reading the head of a class behind its name takes nothing back. -/
theorem neverGrows_classHeritage (name? : Option String) (modifiers : Modifiers) :
    NeverGrows (classHeritage name? modifiers) :=
  neverGrows_bind (neverGrows_nameBehind _) fun _ =>
    neverGrows_bind (neverGrows_namesBehind _) fun _ => neverGrows_pure _

/-- Reads the head of a named class. -/
def namedClass : Reader ClassDecl := do
  let modifiers ← classModifiers .none
  let name ← name
  classHeritage (some name) modifiers

/-- Reads the head of a returned anonymous class. -/
def anonymousClass : Reader ClassDecl := do
  let _ ← expect (·.isKeyword "return")
  let _ ← expect (·.isKeyword "new")
  let _ ← expect (·.isKeyword "class")
  classHeritage none .none

/-- Reads the head of an interface. -/
def interfaceHead : Reader InterfaceDecl := do
  let _ ← expect (·.isKeyword "interface")
  let name ← name
  let parents ← namesBehind "extends"
  return { name, parents }

/-- Whether a return of an anonymous class comes next. -/
def anonymousClassAhead (ts : List Token) : Bool :=
  (peek ts).isKeyword "return" && (peekSecond ts).isKeyword "new" &&
    (peekSecond (advance ts)).isKeyword "class"

/-- Reads the head of a class or interface. -/
def classLikeHead : Reader NodeKind := fun ts =>
  if (peek ts).isKeyword "interface" then (.interfaceDecl <$> interfaceHead) ts
  else if anonymousClassAhead ts then (.classDecl <$> anonymousClass) ts
  else (.classDecl <$> namedClass) ts

/-- A reader of the head of a class or interface advances. -/
theorem advances_classLikeHead : Advances classLikeHead := by
  intro ts kind rest h
  unfold classLikeHead at h
  repeat' split at h
  · refine advances_map _ ?_ h
    exact advances_bind_left (advances_expect rfl) fun _ =>
      neverGrows_bind advances_name.neverGrows fun _ =>
        neverGrows_bind (neverGrows_namesBehind _) fun _ => neverGrows_pure _
  · refine advances_map _ ?_ h
    exact advances_bind_left (advances_expect rfl) fun _ =>
      neverGrows_bind (advances_expect rfl).neverGrows fun _ =>
        neverGrows_bind (advances_expect rfl).neverGrows fun _ => neverGrows_classHeritage _ _
  · refine advances_map _ ?_ h
    exact advances_bind_left (advances_classModifiers _) fun _ =>
      neverGrows_bind advances_name.neverGrows fun _ => neverGrows_classHeritage _ _

/-- Whether a node is an anonymous class. -/
def isAnonymous (kind : NodeKind) : Bool := kind.category == .classDecl && kind.name?.isNone

/-- A reader of statements of known forms. It gives nothing where a statement is of another form,
and the source can be wrong in it. -/
abbrev StatementReader := List Token → Except ParseError (Option (List Outline × List Token))

/-- A reader of statements of known forms that takes at least one token whenever it succeeds. -/
def StatementReader.Advances (read : StatementReader) : Prop :=
  ∀ ⦃ts found rest⦄, read ts = .ok (some (found, rest)) → rest.length < ts.length

/-- Reads the body of a class or interface behind its head. A semicolon has to follow the body of an
anonymous class. -/
def classLikeBody (doc? : Option String) (attributes : List Attribute) (kind : NodeKind) :
    StatementReader := fun ts =>
  if !(peek ts).isPunct '{' then .ok none
  else
    match scopeItems member advances_member ((peek ts).error .unclosedClass) [] (advance ts) with
    | .error e => .error e
    | .ok (members, rest) =>
      let found := [Outline.mk { kind, doc?, attributes } members]
      if !isAnonymous kind then .ok (some (found, rest))
      else if (peek rest).isPunct ';' then .ok (some (found, advance rest))
      else .ok none

/-- A reader of the body of a class or interface advances. -/
theorem advances_classLikeBody (doc? : Option String) (attributes : List Attribute)
    (kind : NodeKind) : StatementReader.Advances (classLikeBody doc? attributes kind) := by
  intro ts found rest h
  unfold classLikeBody at h
  split at h
  · simp at h
  · split at h
    · simp at h
    · next members mid e =>
      have := length_lt_of_scopeItems e
      have := length_advance_le ts
      have := length_advance_le mid
      dsimp only at h
      repeat' split at h
      · obtain ⟨_, rfl⟩ := Prod.mk.inj (Option.some.inj (Except.ok.inj h))
        omega
      · obtain ⟨_, rfl⟩ := Prod.mk.inj (Option.some.inj (Except.ok.inj h))
        omega
      · simp at h

/-- Reads a class or interface behind its attributes. -/
def classLike (doc? : Option String) (attributes : List Attribute) : StatementReader := fun ts =>
  match classLikeHead ts with
  | none => .ok none
  | some (kind, rest) => classLikeBody doc? attributes kind rest

/-- Reads a statement that cannot be wrong behind its doc comment. -/
def simple (doc? : Option String) (read : Reader (List NodeKind)) : StatementReader := fun ts =>
  .ok ((nodesOf doc? [] <$> read) ts)

/-- A reader of statements that cannot be wrong advances as it does. -/
theorem advances_simple {read : Reader (List NodeKind)} (doc? : Option String)
    (h : Advances read) : StatementReader.Advances (simple doc? read) :=
  fun _ _ _ e => advances_map _ h (Except.ok.inj e)

/-- Reads a statement of a known form. -/
def knownStatement : StatementReader := fun ts =>
  match preamble ts with
  | none => .ok none
  | some ((doc?, attributes), rest) =>
    if attributes.isEmpty && (peek rest).isKeyword "declare" then
      simple doc? ((fun kind => [kind]) <$> directive) rest
    else if attributes.isEmpty && (peek rest).isKeyword "use" then simple doc? imports rest
    else classLike doc? attributes rest

/-- A reader of statements of known forms advances. -/
theorem advances_knownStatement : StatementReader.Advances knownStatement := by
  intro ts found rest h
  unfold knownStatement at h
  split at h
  · simp at h
  · next mid e =>
    refine Nat.lt_of_lt_of_le ?_ (neverGrows_preamble e)
    repeat' split at h
    · exact advances_simple _ (advances_map _ advances_directive) h
    · exact advances_simple _ advances_imports h
    · unfold classLike at h
      split at h
      · simp at h
      · next e => exact Nat.lt_trans (advances_classLikeBody _ _ _ h) (advances_classLikeHead e)

/-- Reads a statement, as source text if it is of no known form. -/
def statement : ItemReader := fun ts =>
  match knownStatement ts with
  | .error e => .error e
  | .ok (some found) => .ok found
  | .ok none => verbatim ts

/-- A reader of a statement advances. -/
theorem advances_statement : ItemReader.Advances statement := by
  intro ts found rest h
  unfold statement at h
  split at h
  · simp at h
  · next e => exact advances_knownStatement (Except.ok.inj h ▸ e)
  · exact advances_verbatim h

end PhpGraft.Reader

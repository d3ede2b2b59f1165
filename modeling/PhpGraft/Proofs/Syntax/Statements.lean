import PhpGraft.Proofs.Syntax.Items

/-!
# Statements read back

Directives, imports and named classes are read back as they are, each as one statement. The
statements behind the name of a namespace are those that it governs.
-/

namespace PhpGraft

open Text

/-! ## Statements and their parts -/

/-- The parts of what follows the name of a class. -/
def heritageParts (parent? : Option String) (interfaces : List String) : List Part :=
  (parent?.map fun p => [Part.name "extends", .name p]).getD [] ++
    if interfaces.isEmpty then []
    else .name "implements" :: commaParts (fun n => [.name n]) interfaces

/-- A named class, its doc comment and its members. -/
structure PlainClass where
  /-- The doc comment as it is stored. -/
  doc? : Option String
  /-- The name of the class. -/
  name : String
  /-- The modifiers of the class. -/
  modifiers : Modifiers
  /-- The class that is extended. -/
  parent? : Option String
  /-- The interfaces that are implemented. -/
  interfaces : List String
  /-- The members of the class. -/
  members : List DocMember

namespace PlainClass

/-- The head of the class. -/
def decl (c : PlainClass) : ClassDecl := ⟨some c.name, c.modifiers, c.parent?, c.interfaces⟩

/-- The class as a node with its members. -/
def outline (c : PlainClass) : Outline :=
  .mk { kind := .classDecl c.decl, doc? := c.doc? } (c.members.map DocMember.outline)

/-- The parts of the head of a class. -/
def headParts (c : PlainClass) : List Part :=
  c.modifiers.parts ++ (.name "class" :: .name c.name :: heritageParts c.parent? c.interfaces)

/-- The parts of the members and of the braces around them. -/
def bodyParts (c : PlainClass) : List Part :=
  .sign '{' :: (c.members.flatMap DocMember.parts ++ [.sign '}'])

/-- What a class is read back as. -/
def reread (c : PlainClass) : PlainClass := { c with members := c.members.map DocMember.reread }

end PlainClass

/-- A statement that is read back. -/
inductive PlainStatement where
  /-- A directive. -/
  | directive (key : String) (value : Expr)
  /-- An import. -/
  | useDecl (name : String) (alias? : Option String)
  /-- A class. -/
  | classDecl (c : PlainClass)

namespace PlainStatement

/-- The statement as a node. -/
def outline : PlainStatement → Outline
  | directive key value => .leaf { kind := .directive key value }
  | .useDecl name alias? => .leaf { kind := .useDecl name alias? }
  | .classDecl c => c.outline

/-- The parts of a statement. -/
def parts : PlainStatement → List Part
  | directive key value =>
    [.name "declare", .sign '(', .name key, .sign '='] ++ (value.parts ++ [.sign ')', .sign ';'])
  | .useDecl name alias? =>
    .name "use" :: ((.name name :: (alias?.map fun other => [.name "as", .name other]).getD []) ++
      [.sign ';'])
  | .classDecl c => docParts c.doc? ++ (c.headParts ++ c.bodyParts)

/-- What a statement is read back as. -/
def reread : PlainStatement → PlainStatement
  | directive key value => directive key value.reread
  | .useDecl name alias? => .useDecl name alias?
  | .classDecl c => .classDecl c.reread

/-- Whether the parts of a statement are those of this statement alone. -/
def IsRead : PlainStatement → Prop
  | directive _ value => value.isPlain = true
  | .useDecl name _ => eqIgnoreCase name "function" = false ∧ eqIgnoreCase name "const" = false
  | .classDecl c =>
    (∀ m, c.modifiers.has m = true → m ∈ [Modifier.isAbstract, .isFinal, .isReadonly]) ∧
      ∀ m ∈ c.members, m.kind.IsMember

end PlainStatement

namespace Reader

variable {α β : Type}

/-! ## Directives and imports -/

/-- A directive is read back. -/
theorem reads_directive {value : Expr} (h : value.isPlain = true) (key : String) :
    Reads directive (PlainStatement.directive key value).parts (.directive key value.reread)
      Whatever := by
  have hvalue : Reads (expression fun _ => false) value.parts value.reread
      (EndsValue fun _ => false) := fun ts rest hts hrest => expression_parts h rfl rfl hts hrest
  have hclose : Meets [.sign ')', .sign ';'] Whatever (EndsValue fun _ => false) :=
    .cons fun gap start rest => ⟨_, rest, rfl, rfl, .inr ⟨rfl, rfl⟩⟩
  have hend : Reads (expectPunct ')' >>= fun _ => expectPunct ';' >>= fun _ =>
      Pure.pure (NodeKind.directive key value.reread)) [.sign ')', .sign ';']
      (.directive key value.reread) Whatever :=
    (reads_expectPunct ')').bind_whatever (reads_expectPunct ';').bind_pure
  exact reads_expect_bind nofun (fun _ _ => isKeyword_self.trans (by decide)) fun _ _ =>
    (reads_expectPunct '(').bind_whatever <| (reads_name key).bind_whatever <|
      (reads_expectPunct '=').bind_whatever <| hvalue.bind hend hclose

/-- An imported name and its alias are read back. -/
theorem reads_importedName (name : String) (alias? : Option String) :
    Reads importedName
      (.name name :: (alias?.map fun other => [Part.name "as", .name other]).getD [])
      (.useDecl name alias?) fun rest => (peek rest).isKeyword "as" = false := by
  refine (reads_name name).bind_whatever ?_
  cases alias? with
  | none => exact (reads_nameBehind_none "as").bind_pure
  | some other => exact ((reads_nameBehind "as" other).mono fun _ _ => trivial).bind_pure

/-- An import is read back, unless its name announces a function or a constant. -/
theorem reads_imports {name : String} (h₁ : eqIgnoreCase name "function" = false)
    (h₂ : eqIgnoreCase name "const" = false) (alias? : Option String) :
    Reads imports (PlainStatement.useDecl name alias?).parts [.useDecl name alias?] Whatever := by
  refine reads_expect_bind nofun (fun _ _ => isKeyword_self.trans (by decide)) fun _ _ => ?_
  have hgroup := @reads_group _ _ advances_importedName _ _ _ (reads_importedName name alias?)
    (fun gap text start rest => by rw [peek_cons (by simp)]; rfl)
    fun gap text start rest => by rw [peek_cons (by simp)]; rfl
  intro ts rest hts hrest
  have hread := hgroup ts rest hts hrest
  obtain ⟨gap, start, us, rfl, -, -⟩ := hts.exists_word
  have hpeek (keyword : String) :
      (peek (⟨.name, gap, name.toList, start⟩ :: us ++ rest)).isKeyword keyword =
        eqIgnoreCase name keyword := by
    rw [List.cons_append, peek_cons (by simp)]
    exact isKeyword_self
  rw [look_bind, hpeek, hpeek, h₁, h₂]
  exact hread

/-! ## Classes -/

/-- What follows the name of a class is read back ahead of its brace. -/
theorem reads_classHeritage (c : PlainClass) :
    Reads (classHeritage (some c.name) c.modifiers) (heritageParts c.parent? c.interfaces) c.decl
      fun rest => (peek rest).isPunct '{' = true := by
  have hbrace {rest : List Token} (h : (peek rest).isPunct '{' = true) (keyword : String) :
      (peek rest).isKeyword keyword = false ∧ (peek rest).isPunct ',' = false := by
    have hkind : (peek rest).kind = .punct '{' := eq_of_beq h
    simp [Token.isKeyword, Token.isPunct, hkind]
  have hinterfaces : Reads (namesBehind "implements")
      (if c.interfaces.isEmpty then []
        else .name "implements" :: commaParts (fun n => [.name n]) c.interfaces) c.interfaces
      fun rest => (peek rest).isPunct '{' = true := by
    cases h : c.interfaces with
    | nil => exact (reads_namesBehind_none _).mono fun _ h => (hbrace h _).1
    | cons n names =>
      exact (reads_namesBehind _ (List.cons_ne_nil _ _)).mono fun _ h => (hbrace h "").2
  have hparent : Reads (nameBehind "extends")
      ((c.parent?.map fun p => [Part.name "extends", .name p]).getD []) c.parent?
      fun rest => (peek rest).isKeyword "extends" = false := by
    cases h : c.parent? with
    | none => exact reads_nameBehind_none _
    | some p => exact (reads_nameBehind _ p).mono fun _ _ => trivial
  refine hparent.bind hinterfaces.bind_pure ?_
  cases h : c.interfaces with
  | nil => exact .nil fun _ h => (hbrace h _).1
  | cons n names =>
    exact .cons fun gap start rest => by
      rw [peek_cons (by simp)]
      exact isKeyword_self.trans (by decide)

/-- The modifiers of a class are read up to the word behind them. -/
theorem classModifiers_append {ms : List Modifier}
    (h : ∀ m ∈ ms, m ∈ [Modifier.isAbstract, .isFinal, .isReadonly]) {found : Modifiers}
    {ts : List Token} {t : Token} {rest : List Token}
    (hts : Spells ts (ms.map fun m => .name m.keyword)) (hdoc : isDoc t = false)
    (ht : t.isKeyword "class" = true) :
    classModifiers found (ts ++ t :: rest) = some (ms.foldl .insert found, rest) := by
  induction ms generalizing found ts with
  | nil => rw [hts.eq_nil, List.nil_append, classModifiers, if_neg (by simp [hdoc]), if_pos ht]; rfl
  | cons m ms ih =>
    rw [List.map_cons] at hts
    obtain ⟨gap, start, us, rfl, -, hus⟩ := hts.exists_word
    have hword {keyword : String} {b : Bool} (hk : eqIgnoreCase m.keyword keyword = b) :
        (Token.mk .name gap m.keyword.toList start).isKeyword keyword = b := isKeyword_self.trans hk
    have hread : classModifiers (found.insert m) (us ++ t :: rest) =
        some (ms.foldl .insert (found.insert m), rest) :=
      ih (fun m hm => h m (List.mem_cons_of_mem _ hm)) hus
    rw [List.cons_append, classModifiers, if_neg (by simp [isDoc])]
    have hm := h m (List.mem_cons_self ..)
    simp only [List.mem_cons, List.not_mem_nil, or_false] at hm
    rcases hm with rfl | rfl | rfl
    · rw [if_neg (by rw [hword (b := false) (by decide)]; decide),
        if_pos (hword (by decide))]
      exact hread
    · rw [if_neg (by rw [hword (b := false) (by decide)]; decide),
        if_neg (by rw [hword (b := false) (by decide)]; decide), if_pos (hword (by decide))]
      exact hread
    · rw [if_neg (by rw [hword (b := false) (by decide)]; decide),
        if_neg (by rw [hword (b := false) (by decide)]; decide),
        if_neg (by rw [hword (b := false) (by decide)]; decide), if_pos (hword (by decide))]
      exact hread

/-- The head of a class is read back ahead of its brace. -/
theorem reads_namedClass {c : PlainClass}
    (h : ∀ m, c.modifiers.has m = true → m ∈ [Modifier.isAbstract, .isFinal, .isReadonly]) :
    Reads namedClass c.headParts c.decl fun rest => (peek rest).isPunct '{' = true := by
  have hmodifiers : Reads (classModifiers .none) (c.modifiers.parts ++ [.name "class"]) c.modifiers
      Whatever := by
    intro ts rest hts _
    obtain ⟨us, vs, rfl, hus, hvs⟩ := hts.exists_of_append
    obtain ⟨gap, start, vs, rfl, -, hvs⟩ := hvs.exists_word
    obtain rfl := hvs.eq_nil
    rw [modifiersParts_eq] at hus
    rw [List.append_assoc, List.singleton_append, classModifiers_append
      (fun m hm => h m (List.mem_filter.1 hm).2) hus rfl (isKeyword_self.trans (by decide)),
      Modifiers.foldl_written]
  have hname : Reads (name >>= fun name => classHeritage (some name) c.modifiers)
      (.name c.name :: heritageParts c.parent? c.interfaces) c.decl
      fun rest => (peek rest).isPunct '{' = true :=
    (reads_name c.name).bind_whatever (reads_classHeritage c)
  have hread : Reads namedClass _ c.decl _ := hmodifiers.bind_whatever hname
  rw [List.append_assoc] at hread
  exact hread

/-- A token that starts a class or another statement that is no namespace. -/
structure StatementHead (t : Token) : Prop extends ItemHead t where
  noKeyword : ∀ keyword ∈ ["namespace", "interface", "return"], t.isKeyword keyword = false

/-- The first token of a class starts a statement that is neither a directive nor an import. -/
theorem exists_classHead {c : PlainClass} {ps : List Part} {ts : List Token}
    (hts : Spells ts (c.headParts ++ ps)) (rest : List Token) :
    ∃ t more, ts ++ rest = t :: more ∧ StatementHead t ∧
      t.isKeyword "declare" = false ∧ t.isKeyword "use" = false := by
  have hhead {s : String} (gap : List Char) (start : Nat)
      (hs : ∀ keyword ∈ ["namespace", "interface", "return", "declare", "use"],
        eqIgnoreCase s keyword = false) :
      let t : Token := ⟨.name, gap, s.toList, start⟩
      StatementHead t ∧ t.isKeyword "declare" = false ∧ t.isKeyword "use" = false :=
    ⟨⟨.of_name, fun keyword hk => isKeyword_self.trans (hs keyword (by
      simp only [List.mem_cons, List.not_mem_nil, or_false] at hk
      rcases hk with rfl | rfl | rfl <;> simp))⟩, isKeyword_self.trans (hs _ (by simp)), isKeyword_self.trans (hs _ (by simp))⟩
  rw [PlainClass.headParts, List.append_assoc] at hts
  refine exists_modified hts (fun m gap start => hhead gap start ?_) fun us hus => ?_
  · cases m <;> decide
  · obtain ⟨gap, start, us, rfl, -, -⟩ := hus.exists_word
    exact ⟨_, _, rfl, hhead gap start (by decide)⟩

/-- What starts with neither of their keywords is no interface and no anonymous class. -/
theorem classLikeHead_named {ts : List Token}
    (h : ∀ keyword ∈ ["interface", "return"], (peek ts).isKeyword keyword = false) :
    classLikeHead ts = (.classDecl <$> namedClass) ts := by
  rw [classLikeHead, if_neg (by simp [h]), if_neg (by simp [anonymousClassAhead, h])]

/-- A doc comment ahead of a class is passed over. -/
theorem namedClass_doc {t : Token} (h : isDoc t = true) (ts : List Token) :
    namedClass (t :: ts) = namedClass ts := by
  have hmodifiers (found : Modifiers) : classModifiers found (t :: ts) = classModifiers found ts := by
    rw [classModifiers, if_pos h]
  simp only [namedClass, Bind.bind, StateT.bind, hmodifiers]

/-- The body of a class is read back behind its head. -/
theorem classLikeBody_class {c : PlainClass} (h : ∀ m ∈ c.members, m.kind.IsMember)
    {ts rest : List Token} (hts : Spells ts c.bodyParts) :
    classLikeBody c.doc? [] (.classDecl c.decl) (ts ++ rest) =
      .ok (some ([c.reread.outline], rest)) := by
  obtain ⟨gap, start, us, rfl, -, hus⟩ := hts.exists_word
  have hmembers {unclosed : ParseError} : scopeItems member advances_member unclosed [] (us ++ rest) =
      .ok (c.members.map fun m => m.reread.outline, rest) := scopeItems_members h hus
  rw [List.cons_append, classLikeBody, if_neg (by rw [peek_cons (by simp)]; simp [Token.isPunct]),
    advance_cons (by simp), hmembers]
  dsimp only
  rw [if_pos (by rfl)]
  simp only [PlainClass.outline, PlainClass.reread, PlainClass.decl, List.map_map]
  rfl

/-- A class is read back behind its doc comment. -/
theorem classLike_class {c : PlainClass} (h : (PlainStatement.classDecl c).IsRead)
    {ts us rest : List Token} (hus : Spells us (c.headParts ++ c.bodyParts))
    (hts : DocAhead ts us) :
    classLike c.doc? [] (ts ++ rest) = .ok (some ([c.reread.outline], rest)) := by
  obtain ⟨hmodifiers, hmembers⟩ := h
  obtain ⟨t, more, he, ht, -⟩ := exists_classHead hus rest
  obtain ⟨vs, ws, rfl, hvs, hws⟩ := hus.exists_of_append
  have hbrace : (peek (ws ++ rest)).isPunct '{' = true := by
    obtain ⟨gap, start, ws, rfl, -, -⟩ := hws.exists_word
    rw [List.cons_append, peek_cons (by simp)]
    rfl
  have hnamed : namedClass (ts ++ rest) = some (c.decl, ws ++ rest) := by
    have hread := reads_namedClass hmodifiers vs (ws ++ rest) hvs hbrace
    rw [← List.append_assoc] at hread
    rcases hts with rfl | ⟨d, rfl, hd⟩
    · exact hread
    · rw [List.cons_append, namedClass_doc hd]
      exact hread
  have hpeek : peek (ts ++ rest) = t := hts.peek_append (by rw [← he]) ht.noDoc
  have hhead : classLikeHead (ts ++ rest) = some (.classDecl c.decl, ws ++ rest) := by
    rw [classLikeHead_named fun keyword hk => by
      rw [hpeek]
      exact ht.noKeyword keyword (List.mem_cons_of_mem _ hk)]
    simp only [Functor.map, StateT.map, hnamed]
    rfl
  rw [classLike, hhead]
  exact classLikeBody_class hmembers hws

/-- A word that is no keyword of another statement starts one. -/
theorem StatementHead.of_name {s : String} (gap : List Char) (start : Nat)
    (h : ∀ keyword ∈ ["namespace", "interface", "return"], eqIgnoreCase s keyword = false) :
    StatementHead ⟨.name, gap, s.toList, start⟩ :=
  ⟨.of_name, fun keyword hk => isKeyword_self.trans (h keyword hk)⟩

/-- The first token of a statement starts one that is no namespace. -/
theorem peek_statement {s : PlainStatement} {ts : List Token} (hts : Spells ts s.parts)
    (rest : List Token) : StatementHead (peek (ts ++ rest)) := by
  cases s with
  | directive key value =>
    obtain ⟨gap, start, us, rfl, -, -⟩ := hts.exists_word
    rw [List.cons_append, peek_cons (by simp)]
    exact .of_name gap start (by decide)
  | useDecl name alias? =>
    obtain ⟨gap, start, us, rfl, -, -⟩ := hts.exists_word
    rw [List.cons_append, peek_cons (by simp)]
    exact .of_name gap start (by decide)
  | classDecl c =>
    have hhead (us : List Token) (hus : Spells us (c.headParts ++ c.bodyParts)) :
        ∃ t more, us ++ rest = t :: more ∧ StatementHead t := by
      obtain ⟨t, more, he, ht, -⟩ := exists_classHead hus rest
      exact ⟨t, more, he, ht⟩
    obtain ⟨us, hus, -, hdoc⟩ := exists_of_docParts hts fun us hus => by
      obtain ⟨t, more, he, ht⟩ := hhead us hus
      exact ⟨t, more, he, ht.toItemHead⟩
    obtain ⟨t, more, he, ht⟩ := hhead us hus
    rw [hdoc.peek_append he ht.noDoc]
    exact ht

/-- A statement is read back. -/
theorem statement_parts {s : PlainStatement} (h : s.IsRead) {ts rest : List Token}
    (hts : Spells ts s.parts) : statement (ts ++ rest) = .ok ([s.reread.outline], rest) := by
  -- A statement without a doc comment is known by its first word.
  have hpreamble {gap text : List Char} {start : Nat} {us : List Token} :
      preamble (⟨.name, gap, text, start⟩ :: us) =
        some ((none, []), ⟨.name, gap, text, start⟩ :: us) := by
    unfold preamble
    rw [attributes_none (by rw [peek_cons (by simp)]; simp)]
    simp [@leadingDoc_none ⟨.name, gap, text, start⟩ us nofun]
  have hknown (hfound : knownStatement (ts ++ rest) = .ok (some ([s.reread.outline], rest))) :
      statement (ts ++ rest) = .ok ([s.reread.outline], rest) := by
    rw [statement, hfound]
  refine hknown ?_
  cases s with
  | directive key value =>
    have hread := reads_directive h key ts rest hts trivial
    obtain ⟨gap, start, us, rfl, -, -⟩ := hts.exists_word
    have hdeclare : (Token.mk .name gap "declare".toList start).isKeyword "declare" = true :=
      isKeyword_self.trans (by decide)
    rw [List.cons_append] at hread ⊢
    rw [knownStatement, hpreamble]
    dsimp only
    rw [peek_cons (by simp), hdeclare, if_pos (by rfl), simple]
    simp only [Functor.map, StateT.map, hread]
    rfl
  | useDecl name alias? =>
    have hread := reads_imports h.1 h.2 alias? ts rest hts trivial
    obtain ⟨gap, start, us, rfl, -, -⟩ := hts.exists_word
    have hdeclare : (Token.mk .name gap "use".toList start).isKeyword "declare" = false :=
      isKeyword_self.trans (by decide)
    have huse : (Token.mk .name gap "use".toList start).isKeyword "use" = true :=
      isKeyword_self.trans (by decide)
    rw [List.cons_append] at hread ⊢
    rw [knownStatement, hpreamble]
    dsimp only
    rw [peek_cons (by simp), hdeclare, huse, if_neg (by simp), if_pos (by rfl), simple]
    simp only [Functor.map, StateT.map, hread]
    rfl
  | classDecl c =>
    obtain ⟨us, hus, hpreamble, hdoc⟩ := exists_of_docParts hts fun us hus => by
      obtain ⟨t, more, he, ht, -⟩ := exists_classHead hus rest
      exact ⟨t, more, he, ht.toItemHead⟩
    obtain ⟨t, more, he, ht, hdeclare, huse⟩ := exists_classHead hus rest
    rw [knownStatement, hpreamble]
    dsimp only
    rw [hdoc.peek_append he ht.noDoc, hdeclare, huse, if_neg (by simp), if_neg (by simp)]
    exact classLike_class h hus hdoc

/-! ## Files -/

/-- A statement has parts. -/
theorem parts_ne_nil (s : PlainStatement) : s.parts ≠ [] := by
  cases s with
  | directive _ _ | useDecl _ _ => exact List.cons_ne_nil _ _
  | classDecl c => simp [PlainStatement.parts, PlainClass.headParts]

/-- Nothing is placed in a file where no comments stand. -/
theorem Draft.settle_blank (d : Draft) : d.settle ⟨none, [], none⟩ = d := by
  obtain ⟨root, _ | ⟨head, items⟩⟩ := d
  · rw [Draft.settle, Reader.settle_blank]
  · rw [Draft.settle, Reader.settle_blank]
    cases items <;> rfl

/-- The statements of a file are read back one after another. -/
theorem statements_append {ss : List PlainStatement} (h : ∀ s ∈ ss, s.IsRead) {d : Draft}
    {ts rest : List Token} (hts : Spells ts (ss.flatMap PlainStatement.parts)) :
    statements d (ts ++ rest) =
      statements (ss.foldl (fun d s => d.push none [s.reread.outline]) d) rest := by
  induction ss generalizing d ts with
  | nil => rw [hts.eq_nil]; rfl
  | cons s ss ih =>
    rw [List.flatMap_cons] at hts
    obtain ⟨us, vs, rfl, hus, hvs⟩ := hts.exists_of_append
    have hgap := blank_of_spells hus (parts_ne_nil s) (vs ++ rest)
    have hhead := peek_statement hus (vs ++ rest)
    have hread : statement (us ++ (vs ++ rest)) = .ok ([s.reread.outline], vs ++ rest) :=
      statement_parts (h s (List.mem_cons_self ..)) hus
    rw [List.append_assoc, statements, placement_blank hgap, Draft.settle_blank]
    dsimp only
    rw [if_neg (by simp [hhead.noEnd]),
      if_neg (by simp [namespaceAhead, hhead.noKeyword "namespace" (by simp)]),
      if_neg (by simp [hhead.noClose])]
    split
    · next e => simp [hread] at e
    · next found behind e =>
      rw [hread] at e
      obtain ⟨rfl, rfl⟩ := Prod.mk.inj (Except.ok.inj e)
      exact ih (fun s hs => h s (List.mem_cons_of_mem _ hs)) hvs

/-- The name of a namespace without a block is read back, and the namespace governs what follows. -/
theorem statements_namespace {name : String} {d : Draft} {ts rest : List Token}
    (hts : Spells ts [.name "namespace", .name name, .sign ';']) :
    statements d (ts ++ rest) =
      statements (d.pushNamespace { kind := .namespaceDecl name } none) rest := by
  have hgap := blank_of_spells hts nofun rest
  obtain ⟨gap, start, us, rfl, -, hus⟩ := hts.exists_word
  obtain ⟨gap₂, start₂, vs, rfl, -, hvs⟩ := hus.exists_word
  obtain ⟨gap₃, start₃, ws, rfl, -, hws⟩ := hvs.exists_word
  obtain rfl := hws.eq_nil
  have hkeyword : (Token.mk .name gap "namespace".toList start).isKeyword "namespace" = true :=
    isKeyword_self.trans (by decide)
  have hsource : (Token.mk .name gap₂ name.toList start₂).source = name := String.ofList_toList
  rw [List.cons_append, List.cons_append, List.cons_append, List.nil_append] at hgap ⊢
  have hahead : namespaceAhead (⟨.name, gap, "namespace".toList, start⟩ ::
      ⟨.name, gap₂, name.toList, start₂⟩ ::
        ⟨.punct ';', gap₃, (String.ofList [';']).toList, start₃⟩ :: rest) = true := by
    rw [namespaceAhead, peek_cons (by simp), hkeyword, peekSecond, advance_cons (by simp),
      peek_cons (by simp)]
    rfl
  have hread : namespaceDecl (⟨.name, gap, "namespace".toList, start⟩ ::
      ⟨.name, gap₂, name.toList, start₂⟩ ::
        ⟨.punct ';', gap₃, (String.ofList [';']).toList, start₃⟩ :: rest) =
      .ok (({ kind := .namespaceDecl name }, none), rest) := by
    have hname : namespaceName (⟨.name, gap₂, name.toList, start₂⟩ ::
        ⟨.punct ';', gap₃, (String.ofList [';']).toList, start₃⟩ :: rest) =
        (name, ⟨.punct ';', gap₃, (String.ofList [';']).toList, start₃⟩ :: rest) := by
      rw [namespaceName, peek_cons (by simp), advance_cons (by simp), hsource]
      rfl
    have hbody : namespaceBody
        (⟨.punct ';', gap₃, (String.ofList [';']).toList, start₃⟩ :: rest) = .ok (none, rest) := by
      rw [namespaceBody, peek_cons (by simp), advance_cons (by simp)]
      rfl
    rw [namespaceDecl, advance_cons (by simp), hname]
    dsimp only
    rw [hbody, leadingDoc_none (by simp)]
  have hend : (peek (⟨.name, gap, "namespace".toList, start⟩ ::
      ⟨.name, gap₂, name.toList, start₂⟩ ::
        ⟨.punct ';', gap₃, (String.ofList [';']).toList, start₃⟩ :: rest)).isEnd = false := by
    rw [peek_cons (by simp)]
    rfl
  generalize Token.mk .name gap "namespace".toList start :: _ = us at hgap hahead hread hend ⊢
  rw [statements, placement_blank hgap, Draft.settle_blank]
  dsimp only
  rw [if_neg (by simp [hend]), if_pos hahead]
  split
  · next e => simp [hread] at e
  · next head block? behind e =>
    rw [hread] at e
    obtain ⟨found, rfl⟩ := Prod.mk.inj (Except.ok.inj e)
    obtain ⟨rfl, rfl⟩ := Prod.mk.inj found
    rfl

/-- A file ends where the source does. -/
theorem statements_end {d : Draft} {ts : List Token} (hts : Spells ts [.word .eof ""]) :
    statements d ts = .ok d.statements := by
  have hgap := blank_of_spells hts nofun []
  obtain ⟨gap, start, us, rfl, -, hus⟩ := hts.exists_word
  obtain rfl := hus.eq_nil
  rw [List.append_nil] at hgap
  rw [statements, placement_blank hgap, Draft.settle_blank]
  dsimp only
  rw [if_pos (by rw [peek_cons (by simp)]; rfl)]

end Reader

/-- A file that is read back: statements, and a namespace with those that it governs. -/
structure PlainFile where
  /-- The statements ahead of the namespace. -/
  root : List PlainStatement
  /-- The name of the namespace and the statements that it governs, if there is one. -/
  scope? : Option (String × List PlainStatement)

namespace PlainFile

/-- The statements of a file as outlines. -/
def outlines (f : PlainFile) : List Outline :=
  f.root.map PlainStatement.outline ++
    (f.scope?.map fun scope => Outline.mk { kind := .namespaceDecl scope.1 }
      (scope.2.map PlainStatement.outline)).toList

/-- The parts of a file behind its open tag. -/
def parts (f : PlainFile) : List Part :=
  f.root.flatMap PlainStatement.parts ++
    (f.scope?.map fun scope => [.name "namespace", .name scope.1, .sign ';'] ++
      scope.2.flatMap PlainStatement.parts).getD []

/-- What a file is read back as. -/
def reread (f : PlainFile) : PlainFile where
  root := f.root.map PlainStatement.reread
  scope? := f.scope?.map fun scope => (scope.1, scope.2.map PlainStatement.reread)

/-- Whether each statement of a file is read back. -/
structure IsRead (f : PlainFile) : Prop where
  root : ∀ s ∈ f.root, s.IsRead
  scope : ∀ scope ∈ f.scope?, ∀ s ∈ scope.2, s.IsRead

end PlainFile

namespace Reader

/-- Statements at the top of a file go behind those at its top. -/
theorem foldl_push_root {items : Items} (ss : List PlainStatement) :
    ss.foldl (fun d s => d.push none [s.reread.outline]) (Draft.mk items none) =
      ⟨(ss.map fun s => s.reread.outline).reverse ++ items, none⟩ := by
  have hcomment (s : PlainStatement) : s.outline.node.comment? = none := by cases s <;> rfl
  induction ss generalizing items with
  | nil => rfl
  | cons s ss ih =>
    have hpush : (Draft.mk items none).push none [s.reread.outline] =
        ⟨s.reread.outline :: items, none⟩ := by
      rw [Draft.push, push_blank items (hcomment s.reread)]
    rw [List.foldl_cons, hpush, ih]
    simp

/-- Statements in a namespace go behind those in it. -/
theorem foldl_push_scope {root items : Items} {head : Node} (ss : List PlainStatement) :
    ss.foldl (fun d s => d.push none [s.reread.outline]) (Draft.mk root (some (head, items))) =
      ⟨root, some (head, (ss.map fun s => s.reread.outline).reverse ++ items)⟩ := by
  have hcomment (s : PlainStatement) : s.outline.node.comment? = none := by cases s <;> rfl
  induction ss generalizing items with
  | nil => rfl
  | cons s ss ih =>
    have hpush : (Draft.mk root (some (head, items))).push none [s.reread.outline] =
        ⟨root, some (head, s.reread.outline :: items)⟩ := by
      rw [Draft.push]
      dsimp only
      rw [push_blank items (hcomment s.reread)]
    rw [List.foldl_cons, hpush, ih]
    simp

/-- The statements of a file are read back. -/
theorem statements_parts {f : PlainFile} (h : f.IsRead) {ts : List Token}
    (hts : Spells ts (f.parts ++ [.word .eof ""])) :
    statements ⟨[], none⟩ ts = .ok f.reread.outlines := by
  obtain ⟨root, scope?⟩ := f
  obtain ⟨hroot, hscope⟩ := h
  obtain ⟨us, vs, rfl, hus, hvs⟩ := hts.exists_of_append
  cases scope? with
  | none =>
    rw [PlainFile.parts, Option.map_none, Option.getD_none, List.append_nil] at hus
    rw [statements_append hroot hus, foldl_push_root, statements_end hvs]
    simp [Draft.statements, Draft.close, PlainFile.outlines, PlainFile.reread, Function.comp_def]
  | some scope =>
    obtain ⟨name, ss⟩ := scope
    obtain ⟨us, ws, rfl, hfront, hws⟩ := hus.exists_of_append
    obtain ⟨hs, bs, rfl, hhead, hbody⟩ := hws.exists_of_append
    rw [List.append_assoc, List.append_assoc, statements_append hroot hfront, foldl_push_root,
      statements_namespace hhead, Draft.pushNamespace, Draft.close,
      statements_append (hscope _ rfl) hbody, foldl_push_scope, statements_end hvs]
    simp [Draft.statements, Draft.close, PlainFile.outlines, PlainFile.reread, Function.comp_def]

end Reader

/-- A file that starts with the open tag has the tokens of the code behind it. -/
theorem Lexer.file_of_tokens {source : String} {code : List Char} {ts : List Token}
    (hsource : source.toList = openTag ++ code) (h : tokens (byteLength openTag) code = .ok ts) :
    Lexer.file source = .ok (⟨.openTag, [], openTag, 0⟩ :: ts) := by
  have hsplit : splitOnce? openTag (openTag ++ code) = some ([], code) := rfl
  rw [Lexer.file, hsource, hsplit]
  dsimp only
  rw [if_pos (by rfl), byteLength, Nat.zero_add, h]
  rfl

/-- A file is read as the statements behind its open tag. -/
theorem Outline.parse_of_tokens {source : String} {ts : List Token} {found : List Outline}
    (hfile : Lexer.file source = .ok (⟨.openTag, [], Lexer.openTag, 0⟩ :: ts))
    (h : Reader.statements ⟨[], none⟩ ts = .ok found) :
    Outline.parse source = .ok (Outline.file found) := by
  rw [Outline.parse, hfile]
  simp only [Bind.bind, Except.bind]
  rw [if_pos (by rfl), h]
  rfl

/-- A file whose tokens are those of some statements is read as them. -/
theorem Outline.parse_of_scans {f : PlainFile} (h : f.IsRead) {code : List Char}
    (hcode : Scans code (f.parts ++ [.word .eof ""])) :
    Outline.parse (String.ofList (Lexer.openTag ++ code)) = .ok (Outline.file f.reread.outlines) := by
  obtain ⟨ts, hts, hspells⟩ := hcode (byteLength Lexer.openTag)
  exact Outline.parse_of_tokens (Lexer.file_of_tokens (String.toList_ofList ..) hts)
    (Reader.statements_parts h hspells)

end PhpGraft

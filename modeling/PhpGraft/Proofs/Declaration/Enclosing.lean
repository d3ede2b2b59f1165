import PhpGraft.Proofs.Declaration.Recovered

/-!
# The block that a declaration stands in

A file is one block of statements, or it is divided into the blocks of its namespaces, with nothing but
directives and source text between them. The scan goes from block to block: each one brings its own name and its
own imports, until one of them holds a declaration that is wanted (`around_ofOutlines`). So what is read back is
the first declaration of its form, with the name of its own block and with the imports that stand there, before
it and behind it, and with no import of any other block (`ofFile_of_blocks`).

A file below another one is no block of its own: its statements stand where it stands. In a file that was parsed
there is none (`statements_of_parse`).
-/

namespace PhpGraft

/-! ## Blocks -/

/-- The statements of a namespace, or those of a file that has none. -/
structure FileBlock where
  /-- The name of the namespace, or none for the global one. -/
  scope? : Option String
  /-- The statements. -/
  statements : List Outline

namespace Outline

mutual

/-- What stands among statements in the place of a node: for a file its statements. -/
def spread : Outline → List Outline
  | .mk n children => if n.category = .file then spreadAll children else [.mk n children]

/-- What stands in the place of several nodes. -/
def spreadAll : List Outline → List Outline
  | [] => []
  | o :: os => spread o ++ spreadAll os

end

/-- The statements that a node holds, with those of files among them. -/
def statements (o : Outline) : List Outline := spreadAll o.children

/-- The import that a node is. -/
def import? (o : Outline) : Option Import :=
  match o.node.kind with
  | .useDecl name alias? => some ⟨name, alias?⟩
  | _ => none

/-- The block of a namespace. -/
def block? (o : Outline) : Option FileBlock :=
  match o.node.kind with
  | .namespaceDecl name => some ⟨if name.isEmpty then none else some name, o.statements⟩
  | _ => none

/-- The blocks of a file: those of its namespaces, or a single one. -/
def blocks (file : Outline) : List FileBlock :=
  if file.statements.any (·.category == .namespaceDecl) then file.statements.filterMap block?
  else [⟨none, file.statements⟩]

/-- Whether a node can stand among namespaces: it is a directive, source text, or a namespace that holds no
further ones. -/
def IsOuter (o : Outline) : Prop :=
  o.category = .directive ∨ o.category = .verbatim ∨
    o.category = .namespaceDecl ∧ ∀ c ∈ o.statements, c.category ≠ .namespaceDecl

instance (o : Outline) : Decidable o.IsOuter := inferInstanceAs (Decidable (_ ∨ _ ∨ _))

/-- Whether a file is made of blocks: it has no namespace, or nothing else than what stands among
namespaces. -/
def IsDivided (file : Outline) : Prop :=
  (∀ o ∈ file.statements, o.category ≠ .namespaceDecl) ∨ ∀ o ∈ file.statements, o.IsOuter

instance (file : Outline) : Decidable file.IsDivided := inferInstanceAs (Decidable (_ ∨ _))

variable {o : Outline} {os : List Outline}

/-- The statements of a file stand in its place. -/
theorem spread_of_file (h : o.category = .file) : o.spread = o.statements := by
  obtain ⟨n, children⟩ := o
  exact if_pos h

/-- All other nodes stand in their own place. -/
theorem spread_of_ne_file (h : o.category ≠ .file) : o.spread = [o] := by
  obtain ⟨n, children⟩ := o
  exact if_neg h

/-- Nodes that are no files stand in their own places. -/
theorem spreadAll_eq_self (h : ∀ o ∈ os, o.category ≠ .file) : spreadAll os = os := by
  induction os with
  | nil => rfl
  | cons o os ih =>
    obtain ⟨ho, hos⟩ := List.forall_mem_cons.1 h
    rw [spreadAll, spread_of_ne_file ho, ih hos, List.singleton_append]

/-- The statements of a file that was parsed are its children. -/
theorem statements_of_parse {source : String} {file : Outline} (h : parse source = .ok file) :
    file.statements = file.children := by
  obtain ⟨statements, rfl, hstatements⟩ := exists_of_parse h
  exact spreadAll_eq_self fun o ho hfile => by simpa [hfile, Category.isStatement] using hstatements o ho

mutual

/-- No file stands in the place of a node. -/
theorem ne_file_of_mem_spread {c : Outline} : ∀ o : Outline, c ∈ o.spread → c.category ≠ .file
  | .mk n children, h => by
    rw [spread] at h
    split at h
    · exact ne_file_of_mem_spreadAll children h
    · next hn => exact List.mem_singleton.1 h ▸ hn

/-- No file stands in the place of several nodes. -/
theorem ne_file_of_mem_spreadAll {c : Outline} : ∀ os : List Outline, c ∈ spreadAll os → c.category ≠ .file
  | [], h => absurd h List.not_mem_nil
  | o :: os, h => by
    rw [spreadAll, List.mem_append] at h
    exact h.elim (ne_file_of_mem_spread o) (ne_file_of_mem_spreadAll os)

end

/-- Statements without a namespace hold no statements themselves. -/
theorem areFlat_spreadAll (h : ∀ c ∈ spreadAll os, c.category ≠ .namespaceDecl) : AreFlat (spreadAll os) :=
  fun c hc => ⟨ne_file_of_mem_spreadAll os hc, h c hc⟩

end Outline

namespace FileBlock

/-- The imports of a block, in order. -/
def imports (b : FileBlock) : List Import := b.statements.filterMap Outline.import?

/-- The first declaration of a form in a block. -/
def first? (c : Category) (b : FileBlock) : Option Outline := b.statements.find? (·.category == c)

end FileBlock

/-- The first block of a file that has a declaration of a form. -/
def Outline.firstBlock? (c : Category) (file : Outline) : Option FileBlock :=
  file.blocks.find? fun b => (b.first? c).isSome

/-! ## From block to block -/

namespace FileScan

/-- What a scan found, but for whether types are strict: directives behind the block of the declaration may still
be read. -/
def around (s : FileScan) : FileScan := { s with strict := false }

/-- The scan of a block, unless the declaration was found before. -/
def enter (c : Category) (s : FileScan) (b : FileBlock) : FileScan :=
  if s.declaration?.isSome then s
  else { s with scope? := b.scope?, imports := b.imports, declaration? := b.first? c }

variable {c : Category} {wanted : Node → Bool} {s : FileScan} {o : Outline} {os : List Outline}
  {bs : List FileBlock}

/-- Behind the declaration no block is entered. -/
theorem foldl_enter_of_isSome (h : s.declaration?.isSome = true) : bs.foldl (enter c) s = s := by
  induction bs with
  | nil => rfl
  | cons b bs ih => rw [List.foldl_cons, enter, if_pos h, ih]

/-- Going from block to block ends in the first one that has the declaration. -/
theorem foldl_enter_eq {b : FileBlock} (hs : s.declaration? = none)
    (hb : bs.find? (fun b => (b.first? c).isSome) = some b) :
    bs.foldl (enter c) s =
      { s with scope? := b.scope?, imports := b.imports, declaration? := b.first? c } := by
  induction bs generalizing s with
  | nil => cases hb
  | cons b' bs ih =>
    rw [List.foldl_cons, enter, if_neg (by rw [hs]; exact Bool.false_ne_true)]
    rw [List.find?_cons] at hb
    cases hfirst : b'.first? c with
    | some o =>
      rw [hfirst] at hb
      obtain rfl := Option.some.inj hb
      rw [hfirst, foldl_enter_of_isSome rfl]
    | none =>
      rw [hfirst] at hb
      rw [ih rfl hb]

/-- The scan of a file goes through its statements. -/
theorem visit_of_file (h : o.category = .file) : visit wanted s o = visitAll wanted s o.children := by
  obtain ⟨⟨kind, doc?, attributes, comment?, trailing?⟩, children⟩ := o
  cases kind with
  | file =>
    rw [visit]
    rfl
  | _ => cases h

/-- Only a namespace can end a scan. -/
theorem visitAll_cons (h : o.category ≠ .namespaceDecl) :
    visitAll wanted s (o :: os) = visitAll wanted (visit wanted s o) os := by
  rw [visitAll, if_neg]
  rw [beq_eq_false_iff_ne.2 h, Bool.and_false]
  exact Bool.false_ne_true

mutual

/-- A node that has no namespace in its place is scanned like what stands there. -/
theorem visit_eq_visitAll_spread : ∀ (s : FileScan) (o : Outline), AreFlat o.spread →
    visit wanted s o = visitAll wanted s o.spread
  | s, .mk n children, h => by
    by_cases hn : (Outline.mk n children).category = .file
    · rw [Outline.spread_of_file hn] at h ⊢
      rw [visit_of_file hn]
      exact visitAll_eq_visitAll_spreadAll s children h
    · rw [Outline.spread_of_ne_file hn] at h ⊢
      rw [visitAll_cons (h _ (List.mem_singleton_self _)).2, visitAll]

/-- Nodes that have no namespace in their place are scanned like what stands there. -/
theorem visitAll_eq_visitAll_spreadAll : ∀ (s : FileScan) (os : List Outline),
    AreFlat (Outline.spreadAll os) → visitAll wanted s os = visitAll wanted s (Outline.spreadAll os)
  | _, [], _ => rfl
  | s, o :: os, h => by
    rw [Outline.spreadAll] at h ⊢
    have ho : AreFlat o.spread := fun c hc => h c (List.mem_append_left _ hc)
    have hos : AreFlat (Outline.spreadAll os) := fun c hc => h c (List.mem_append_right _ hc)
    have hne : o.category ≠ .namespaceDecl := by
      intro hcategory
      have hspread := Outline.spread_of_ne_file (o := o) (by rw [hcategory]; decide)
      exact (ho o (hspread ▸ List.mem_singleton_self o)).2 hcategory
    rw [visitAll_cons hne, visitAll_append ho, visit_eq_visitAll_spread s o ho,
      visitAll_eq_visitAll_spreadAll _ os hos]

end

/-- A class or interface is the declaration if it is wanted and there is none yet. -/
theorem visit_of_isClassLike (h : o.category.isClassLike = true) :
    visit wanted s o =
      { s with declaration? := s.declaration?.or (if wanted o.node then some o else none) } := by
  obtain ⟨⟨kind, doc?, attributes, comment?, trailing?⟩, children⟩ := o
  obtain ⟨strict, scope?, imports, declaration?⟩ := s
  cases kind with
  | classDecl d | interfaceDecl d =>
    rw [visit, Outline.node]
    cases declaration? with
    | some found => rfl
    | none => cases wanted _ <;> rfl
  | _ => cases h

/-- Other statements add the imports that they are. -/
theorem exists_visit_of_not_isClassLike (hfile : o.category ≠ .file)
    (hnamespace : o.category ≠ .namespaceDecl) (h : o.category.isClassLike = false) :
    ∃ strict, visit wanted s o = { s with strict, imports := s.imports ++ o.import?.toList } := by
  obtain ⟨⟨kind, doc?, attributes, comment?, trailing?⟩, children⟩ := o
  cases kind with
  | file => exact absurd rfl hfile
  | namespaceDecl name => exact absurd rfl hnamespace
  | classDecl d | interfaceDecl d => cases h
  | useDecl name alias? => exact ⟨s.strict, by rw [visit]; rfl⟩
  | directive key value =>
    rw [visit]
    simp only [Outline.import?, Outline.node, Option.toList_none, List.append_nil]
    split
    · exact ⟨_, rfl⟩
    · exact ⟨s.strict, rfl⟩
  | _ =>
    rw [visit]
    simp only [Outline.import?, Outline.node, Option.toList_none, List.append_nil]
    exact ⟨s.strict, rfl⟩

/-- A class or interface is no import. -/
theorem import?_of_isClassLike (h : o.category.isClassLike = true) : o.import? = none := by
  obtain ⟨⟨kind, doc?, attributes, comment?, trailing?⟩, children⟩ := o
  cases kind <;> first | rfl | cases h

/-- The scan of statements adds their imports, and finds the first declaration of the form. -/
theorem exists_visitAll (hc : c.isClassLike = true) (h : AreFlat os) :
    ∃ strict, visitAll (·.category == c) s os =
      { s with
        strict
        imports := s.imports ++ os.filterMap Outline.import?
        declaration? := s.declaration?.or (os.find? (·.category == c)) } := by
  induction os generalizing s with
  | nil => exact ⟨s.strict, by simp [visitAll]⟩
  | cons o os ih =>
    obtain ⟨⟨hfile, hnamespace⟩, h⟩ := List.forall_mem_cons.1 h
    rw [visitAll_cons hnamespace, List.filterMap_cons, List.find?_cons]
    cases hlike : o.category.isClassLike with
    | true =>
      obtain ⟨strict, hrest⟩ := @ih (visit (·.category == c) s o) h
      refine ⟨strict, hrest.trans ?_⟩
      rw [visit_of_isClassLike hlike, import?_of_isClassLike hlike, Outline.category]
      cases o.node.category == c <;> simp
    | false =>
      obtain ⟨_, hvisit⟩ :=
        @exists_visit_of_not_isClassLike (·.category == c) s o hfile hnamespace hlike
      have hne : (o.category == c) = false :=
        beq_false_of_ne fun he => by rw [he, hc] at hlike; cases hlike
      obtain ⟨strict, hrest⟩ := @ih (visit (·.category == c) s o) h
      refine ⟨strict, hrest.trans ?_⟩
      rw [hvisit, hne]
      cases o.import? <;> simp

/-- The scan of a namespace goes through its statements, with imports of its own. -/
theorem visit_of_block? {b : FileBlock} (h : o.block? = some b) :
    visit wanted s o = visitAll wanted { s with scope? := b.scope?, imports := [] } o.children ∧
      b.statements = o.statements := by
  obtain ⟨⟨kind, doc?, attributes, comment?, trailing?⟩, children⟩ := o
  cases kind with
  | namespaceDecl name =>
    obtain rfl := Option.some.inj h
    exact ⟨by rw [visit]; rfl, rfl⟩
  | _ => cases h

/-- A namespace is a block. -/
theorem exists_block? (h : o.category = .namespaceDecl) : ∃ b, o.block? = some b := by
  obtain ⟨⟨kind, doc?, attributes, comment?, trailing?⟩, children⟩ := o
  cases kind with
  | namespaceDecl name => exact ⟨_, rfl⟩
  | _ => cases h

/-- Directives and source text are neither imports nor blocks. -/
theorem import?_and_block?_eq_none (h : o.category = .directive ∨ o.category = .verbatim) :
    o.import? = none ∧ o.block? = none := by
  obtain ⟨⟨kind, doc?, attributes, comment?, trailing?⟩, children⟩ := o
  cases kind <;> first | exact ⟨rfl, rfl⟩ | exact h.elim nofun nofun

/-- What stands among namespaces is scanned like its block if it is one, and says nothing otherwise. -/
theorem around_visit_of_isOuter (hc : c.isClassLike = true) (h : o.IsOuter)
    (hs : o.category = .namespaceDecl → s.declaration? = none) :
    (visit (·.category == c) s o).around = o.block?.toList.foldl (enter c) s.around := by
  rcases or_assoc.2 h with hplain | ⟨hnamespace, hinner⟩
  · obtain ⟨himport, hblock⟩ := import?_and_block?_eq_none hplain
    obtain ⟨strict, hvisit⟩ := @exists_visit_of_not_isClassLike (·.category == c) s o
      (by rcases hplain with h | h <;> rw [h] <;> decide) (by rcases hplain with h | h <;> rw [h] <;> decide)
      (by rcases hplain with h | h <;> rw [h] <;> rfl)
    rw [hvisit, himport, hblock, around, Option.toList_none, List.append_nil]
    rfl
  · obtain ⟨b, hb⟩ := exists_block? hnamespace
    obtain ⟨hvisit, hstatements⟩ := @visit_of_block? (·.category == c) s o b hb
    have hflat : AreFlat o.statements := Outline.areFlat_spreadAll hinner
    obtain ⟨strict, hscan⟩ := @exists_visitAll c { s with scope? := b.scope?, imports := [] } _ hc hflat
    have hnone := hs hnamespace
    rw [hvisit, visitAll_eq_visitAll_spreadAll _ _ hflat, ← Outline.statements, hscan, hb, hnone,
      ← hstatements]
    simp [around, enter, hnone, FileBlock.imports, FileBlock.first?]

mutual

/-- What stands in the place of a node is scanned block by block. A namespace is not visited at all when the
declaration was found before. -/
theorem around_visit (hc : c.isClassLike = true) : ∀ (s : FileScan) (o : Outline),
    (∀ x ∈ o.spread, x.IsOuter) → (o.category = .namespaceDecl → s.declaration? = none) →
      (visit (·.category == c) s o).around = (o.spread.filterMap Outline.block?).foldl (enter c) s.around
  | s, .mk n children, h, hs => by
    by_cases hn : (Outline.mk n children).category = .file
    · rw [Outline.spread_of_file hn] at h ⊢
      rw [visit_of_file hn]
      exact around_visitAll hc s children h
    · rw [Outline.spread_of_ne_file hn] at h ⊢
      rw [around_visit_of_isOuter hc (h _ (List.mem_singleton_self _)) hs, List.filterMap_cons,
        List.filterMap_nil]
      cases (Outline.mk n children).block? <;> rfl

/-- What stands among namespaces is scanned block by block, up to the end of the one that has the
declaration. -/
theorem around_visitAll (hc : c.isClassLike = true) : ∀ (s : FileScan) (os : List Outline),
    (∀ x ∈ Outline.spreadAll os, x.IsOuter) →
      (visitAll (·.category == c) s os).around =
        ((Outline.spreadAll os).filterMap Outline.block?).foldl (enter c) s.around
  | _, [], _ => rfl
  | s, o :: os, h => by
    rw [Outline.spreadAll] at h ⊢
    have ho : ∀ x ∈ o.spread, x.IsOuter := fun x hx => h x (List.mem_append_left _ hx)
    have hos : ∀ x ∈ Outline.spreadAll os, x.IsOuter := fun x hx => h x (List.mem_append_right _ hx)
    rw [visitAll]
    split
    · next hstop =>
      -- the scan ends here, and the blocks that are left would not be entered either
      have hfound : s.around.declaration?.isSome = true := (Bool.and_eq_true_iff.1 hstop).1
      rw [foldl_enter_of_isSome hfound]
    · next hgo =>
      have hs : o.category = .namespaceDecl → s.declaration? = none := by
        intro hnamespace
        rw [hnamespace, beq_self_eq_true, Bool.and_true] at hgo
        exact Option.not_isSome_iff_eq_none.1 hgo
      rw [around_visitAll hc _ os hos, around_visit hc s o ho hs, List.filterMap_append, List.foldl_append]

end

/-- The scan of a file that is made of blocks goes from block to block. -/
theorem around_ofOutlines {file : Outline} (hc : c.isClassLike = true) (hfile : file.category = .file)
    (h : file.IsDivided) :
    (ofOutlines (·.category == c) [file]).around = file.blocks.foldl (enter c) {} := by
  have hscan : ofOutlines (·.category == c) [file] = visitAll (·.category == c) {} file.children := by
    rw [ofOutlines, visitAll_cons (by rw [hfile]; decide), visitAll, visit_of_file hfile]
  rw [hscan, Outline.blocks]
  by_cases hany : file.statements.any (·.category == .namespaceDecl) = true
  · rw [if_pos hany]
    refine around_visitAll hc {} file.children (h.resolve_left fun hnone => ?_)
    obtain ⟨o, ho, hcategory⟩ := List.any_eq_true.1 hany
    exact hnone o ho (beq_iff_eq.1 hcategory)
  · rw [if_neg hany]
    have hflat : AreFlat file.statements := Outline.areFlat_spreadAll fun o ho hcategory =>
      hany (List.any_eq_true.2 ⟨o, ho, beq_iff_eq.2 hcategory⟩)
    obtain ⟨strict, hfound⟩ := @exists_visitAll c {} _ hc hflat
    rw [visitAll_eq_visitAll_spreadAll _ _ hflat, ← Outline.statements, hfound]
    rfl

/-- The scan of a file finds the first declaration of a form, and what is around it in its block. -/
theorem exists_firstBlock? {file : Outline} (hc : c.isClassLike = true) (hfile : file.category = .file)
    (h : file.IsDivided) (hdeclaration : ∃ b ∈ file.blocks, ∃ o ∈ b.statements, o.category = c)
    (hs : ofOutlines (·.category == c) [file] = s) :
    ∃ b o, file.firstBlock? c = some b ∧ b.first? c = some o ∧ o.category = c ∧
      s.declaration? = some o ∧ s.scope? = b.scope? ∧ s.imports = b.imports := by
  have hsome : (file.firstBlock? c).isSome = true := by
    obtain ⟨b, hb, o, ho, hcategory⟩ := hdeclaration
    rw [Outline.firstBlock?, List.find?_isSome]
    exact ⟨b, hb, List.find?_isSome.2 ⟨o, ho, beq_iff_eq.2 hcategory⟩⟩
  obtain ⟨b, hb⟩ := Option.isSome_iff_exists.1 hsome
  have hfirst : (b.first? c).isSome = true := by simpa using List.find?_some hb
  obtain ⟨o, ho⟩ := Option.isSome_iff_exists.1 hfirst
  have hscan := around_ofOutlines hc hfile h
  rw [foldl_enter_eq rfl hb, ho, hs] at hscan
  exact ⟨b, o, hb, ho, by simpa using List.find?_some ho, congrArg declaration? hscan, congrArg scope? hscan,
    congrArg imports hscan⟩

/-- The scan of a declaration alone finds nothing around it. -/
theorem ofOutlines_singleton (hc : c.isClassLike = true) (h : o.category = c) :
    ofOutlines (·.category == c) [o] = { declaration? := some o } := by
  have hne : o.category ≠ .namespaceDecl := by
    rintro hcategory
    rw [← h, hcategory] at hc
    cases hc
  have hwanted : (o.node.category == c) = true := beq_iff_eq.2 h
  rw [ofOutlines, visitAll_cons hne, visitAll, visit_of_isClassLike (h ▸ hc), hwanted]
  rfl

end FileScan

namespace ClassSpec

/-- A class is read back from its declaration, with what the scan found around it. -/
theorem exists_ofScan? {s : FileScan} {o : Outline} (ho : s.declaration? = some o) (h : o.category = .classDecl) :
    ∃ c, ofScan? s = some c ∧ c.scope? = s.scope? ∧ c.imports = .ofList s.imports ∧
      recover? [o] = some { c with scope? := none, strict := false, imports := .empty } := by
  have hrecover : recover? [o] = ofScan? { declaration? := some o } :=
    congrArg ofScan? (FileScan.ofOutlines_singleton rfl h)
  rw [hrecover, ofScan?, ofScan?, ho, Option.bind_some, Option.bind_some]
  obtain ⟨⟨kind, doc?, attributes, comment?, trailing?⟩, children⟩ := o
  cases kind with
  | classDecl d => exact ⟨_, rfl, rfl, rfl, rfl⟩
  | _ => cases h

end ClassSpec

namespace InterfaceSpec

/-- An interface is read back from its declaration, with what the scan found around it. -/
theorem exists_ofScan? {s : FileScan} {o : Outline} (ho : s.declaration? = some o)
    (h : o.category = .interfaceDecl) :
    ∃ i, ofScan? s = some i ∧ i.scope? = s.scope? ∧ i.imports = .ofList s.imports ∧
      recover? [o] = some { i with scope? := none, strict := false, imports := .empty } := by
  have hrecover : recover? [o] = ofScan? { declaration? := some o } :=
    congrArg ofScan? (FileScan.ofOutlines_singleton rfl h)
  rw [hrecover, ofScan?, ofScan?, ho, Option.bind_some, Option.bind_some]
  obtain ⟨⟨kind, doc?, attributes, comment?, trailing?⟩, children⟩ := o
  cases kind with
  | interfaceDecl d => exact ⟨_, rfl, rfl, rfl, rfl⟩
  | _ => cases h

end InterfaceSpec

/-- From a file that is made of blocks and has a class, the first one is read back: what is read from the class
alone, with the name of its block and with the imports of its block and of no other one, the last import of each
name where the first one stands. It is the same for interfaces. -/
theorem ofFile_of_blocks (file : Outline) (hfile : file.category = .file) (h : file.IsDivided) :
    ((∃ b ∈ file.blocks, ∃ o ∈ b.statements, o.category = .classDecl) →
      ∃ b o c, file.firstBlock? .classDecl = some b ∧ b.first? .classDecl = some o ∧
        ClassSpec.ofFile file = .ok c ∧ c.scope? = b.scope? ∧
          c.imports.items = NameMap.latest b.imports ∧
          ClassSpec.recover? [o] = some { c with scope? := none, strict := false, imports := .empty }) ∧
    ((∃ b ∈ file.blocks, ∃ o ∈ b.statements, o.category = .interfaceDecl) →
      ∃ b o i, file.firstBlock? .interfaceDecl = some b ∧ b.first? .interfaceDecl = some o ∧
        InterfaceSpec.ofFile file = .ok i ∧ i.scope? = b.scope? ∧
          i.imports.items = NameMap.latest b.imports ∧
          InterfaceSpec.recover? [o] = some { i with scope? := none, strict := false, imports := .empty }) := by
  constructor
  · intro hdeclaration
    obtain ⟨b, o, hb, ho, hcategory, hfound, hscope, himports⟩ :=
      FileScan.exists_firstBlock? rfl hfile h hdeclaration rfl
    obtain ⟨c, hc, hscope', himports', halone⟩ := ClassSpec.exists_ofScan? hfound hcategory
    have hrecover : ClassSpec.recover? [file] = some c := hc
    refine ⟨b, o, c, hb, ho, by rw [ClassSpec.ofFile, hrecover], hscope'.trans hscope, ?_, halone⟩
    rw [himports', NameMap.items_ofList_eq, himports]
  · intro hdeclaration
    obtain ⟨b, o, hb, ho, hcategory, hfound, hscope, himports⟩ :=
      FileScan.exists_firstBlock? rfl hfile h hdeclaration rfl
    obtain ⟨i, hi, hscope', himports', halone⟩ := InterfaceSpec.exists_ofScan? hfound hcategory
    have hrecover : InterfaceSpec.recover? [file] = some i := hi
    refine ⟨b, o, i, hb, ho, by rw [InterfaceSpec.ofFile, hrecover], hscope'.trans hscope, ?_, halone⟩
    rw [himports', NameMap.items_ofList_eq, himports]

/-- A file with two namespaces. The one without a name has two classes, with imports around the first one, of
which two have one name. -/
def dividedFile : Outline :=
  .file [.leaf { kind := .directive "strict_types" (.int 1) },
    .mk { kind := .namespaceDecl "Front" }
      [.leaf { kind := .useDecl "Lib\\Page" none }, .leaf { kind := .interfaceDecl { name := "View" } }],
    .mk { kind := .namespaceDecl "" }
      [.leaf { kind := .useDecl "Lib\\Log" (some "Journal") }, .leaf { kind := .useDecl "Lib\\Mail" none },
        .leaf { kind := .classDecl { name? := some "Post" } }, .leaf { kind := .useDecl "\\lib\\log" none },
        .leaf { kind := .classDecl { name? := some "Rest" } }]]

/-- The first class has the imports of its own block, the later one of the two in the place of the earlier one, and
the interface has the only one of the other block. -/
theorem ofFile_of_blocks_divided :
    (∃ c, ClassSpec.ofFile dividedFile = .ok c ∧ c.name? = some "Post" ∧ c.scope? = none ∧
      c.imports.items = [⟨"\\lib\\log", none⟩, ⟨"Lib\\Mail", none⟩]) ∧
    ∃ i, InterfaceSpec.ofFile dividedFile = .ok i ∧ i.scope? = some "Front" ∧
      i.imports.items = [⟨"Lib\\Page", none⟩] := by
  obtain ⟨hclass, hinterface⟩ := ofFile_of_blocks dividedFile rfl (by decide +kernel)
  obtain ⟨b, o, c, hb, ho, hc, hscope, himports, halone⟩ := hclass (by decide +kernel)
  obtain ⟨b', o', i, hb', ho', hi, hscope', himports', -⟩ := hinterface (by decide +kernel)
  obtain rfl := Option.some.inj hb
  obtain rfl := Option.some.inj ho
  obtain rfl := Option.some.inj hb'
  have hname := congrArg (Option.map ClassSpec.name?) halone
  refine ⟨⟨c, hc, (Option.some.inj hname).symm, hscope, himports.trans ?_⟩,
    i, hi, hscope', himports'.trans ?_⟩
  all_goals decide +kernel

/-- A file that has a class, and ahead of it a file with an import. -/
def nestedFile : Outline :=
  .file [.file [.leaf { kind := .useDecl "Lib\\Log" none }],
    .leaf { kind := .classDecl { name? := some "Post" } }]

/-- The imports are not only those among the children of a file: those of a file below it count as well. -/
theorem not_ofFile_of_children :
    ¬∀ file : Outline, file.category = .file → (∀ o ∈ file.children, o.category ≠ .namespaceDecl) →
      (∃ o ∈ file.children, o.category = .classDecl) →
        ∃ c, ClassSpec.ofFile file = .ok c ∧
          c.imports.items = NameMap.latest (file.children.filterMap Outline.import?) := by
  intro hall
  obtain ⟨c, hc, himports⟩ := hall nestedFile rfl (by decide +kernel) (by decide +kernel)
  have hfound : (ClassSpec.ofFile nestedFile).toOption.map (·.imports.items) = some [⟨"Lib\\Log", none⟩] := by
    decide +kernel
  have hnone : NameMap.latest (nestedFile.children.filterMap Outline.import?) = [] := by decide +kernel
  rw [hc] at hfound
  have himports' : c.imports.items = [⟨"Lib\\Log", none⟩] := Option.some.inj hfound
  rw [himports, hnone] at himports'
  cases himports'

end PhpGraft

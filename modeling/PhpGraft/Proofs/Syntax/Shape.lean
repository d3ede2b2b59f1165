import PhpGraft.Syntax.Reader.File

/-!
# The statements of a parsed file

What stands at the top of a file that was read is a directive, a namespace, an import, a class, an
interface or source text (`Outline.exists_of_parse`). Members stand in declarations only, and there is
no file within a file.
-/

namespace PhpGraft

/-- Whether nodes of this form are statements. -/
def Category.isStatement : Category → Bool
  | directive | namespaceDecl | useDecl | classDecl | interfaceDecl | verbatim => true
  | file | traitUse | constDecl | propertyDecl | methodDecl => false

/-- Whether some outlines are statements of a file. -/
def AreStatements (os : List Outline) : Prop := ∀ o ∈ os, o.category.isStatement = true

namespace Reader

variable {ts rest : List Token} {found : List Outline} {doc? : Option String}
  {attributes : List Attribute}

/-- What is read in a list has what every single reading has. -/
theorem forall_of_commaList {α : Type} {item : Reader α} {hitem : Advances item} {xs : List α}
    {P : α → Prop} (hP : ∀ ts x rest, item ts = some (x, rest) → P x) {ts rest : List Token}
    (h : commaList item hitem ts = some (xs, rest)) : ∀ x ∈ xs, P x := by
  unfold commaList at h
  split at h
  · cases h
  · next x mid hx =>
    have := hitem hx
    have := length_advance_le mid
    split at h
    · split at h
      · cases h
      · next ys last hys =>
        obtain ⟨rfl, rfl⟩ := Prod.mk.inj (Option.some.inj h)
        exact List.forall_mem_cons.2 ⟨hP _ _ _ hx, forall_of_commaList hP hys⟩
    · obtain ⟨rfl, rfl⟩ := Prod.mk.inj (Option.some.inj h)
      exact List.forall_mem_singleton.2 (hP _ _ _ hx)
termination_by ts.length

/-- Nodes that are made of kinds of statements are statements. -/
theorem areStatements_nodesOf {kinds : List NodeKind}
    (h : ∀ k ∈ kinds, k.category.isStatement = true) :
    AreStatements (nodesOf doc? attributes kinds) := by
  cases kinds with
  | nil => exact List.forall_mem_nil _
  | cons kind kinds =>
    obtain ⟨hkind, hkinds⟩ := List.forall_mem_cons.1 h
    refine List.forall_mem_cons.2 ⟨hkind, ?_⟩
    rw [List.forall_mem_map]
    exact hkinds

/-- A directive is a statement. -/
theorem isStatement_of_directive {kind : NodeKind} (h : directive ts = some (kind, rest)) :
    kind.category.isStatement = true := by
  obtain ⟨_, _, -, h⟩ := bind_eq_some h
  obtain ⟨_, _, -, h⟩ := bind_eq_some h
  obtain ⟨_, _, -, h⟩ := bind_eq_some h
  obtain ⟨_, _, -, h⟩ := bind_eq_some h
  obtain ⟨_, _, -, h⟩ := bind_eq_some h
  obtain ⟨_, _, -, h⟩ := bind_eq_some h
  obtain ⟨_, _, -, h⟩ := bind_eq_some h
  obtain ⟨rfl, -⟩ := Prod.mk.inj (Option.some.inj h)
  rfl

/-- An imported name is a statement. -/
theorem isStatement_of_importedName {kind : NodeKind}
    (h : importedName ts = some (kind, rest)) : kind.category.isStatement = true := by
  obtain ⟨_, _, -, h⟩ := bind_eq_some h
  obtain ⟨_, _, -, h⟩ := bind_eq_some h
  obtain ⟨rfl, -⟩ := Prod.mk.inj (Option.some.inj h)
  rfl

/-- Imports are statements. -/
theorem isStatement_of_imports {kinds : List NodeKind} (h : imports ts = some (kinds, rest)) :
    ∀ k ∈ kinds, k.category.isStatement = true := by
  obtain ⟨_, _, -, h⟩ := bind_eq_some h
  obtain ⟨ahead, _, -, h⟩ := bind_eq_some h
  split at h
  · cases h
  · obtain ⟨names, _, hnames, h⟩ := bind_eq_some h
    obtain ⟨_, _, -, h⟩ := bind_eq_some h
    obtain ⟨rfl, -⟩ := Prod.mk.inj (Option.some.inj h)
    exact forall_of_commaList (fun _ _ _ => isStatement_of_importedName) hnames

/-- A class or interface is a statement. -/
theorem isStatement_of_classLikeHead {kind : NodeKind}
    (h : classLikeHead ts = some (kind, rest)) : kind.category.isStatement = true := by
  unfold classLikeHead at h
  split at h
  · obtain ⟨d, -, rfl⟩ := map_eq_some h
    rfl
  · split at h
    · obtain ⟨d, -, rfl⟩ := map_eq_some h
      rfl
    · obtain ⟨d, -, rfl⟩ := map_eq_some h
      rfl

/-- What is read as the body of a statement is that statement. -/
theorem areStatements_of_classLikeBody {kind : NodeKind} (hkind : kind.category.isStatement = true)
    (h : classLikeBody doc? attributes kind ts = .ok (some (found, rest))) :
    AreStatements found := by
  unfold classLikeBody at h
  split at h
  · cases h
  · split at h
    · cases h
    · dsimp only at h
      repeat' split at h
      · obtain ⟨rfl, -⟩ := Prod.mk.inj (Option.some.inj (Except.ok.inj h))
        exact List.forall_mem_singleton.2 hkind
      · obtain ⟨rfl, -⟩ := Prod.mk.inj (Option.some.inj (Except.ok.inj h))
        exact List.forall_mem_singleton.2 hkind
      · cases h

/-- Statements that cannot be wrong are statements. -/
theorem areStatements_of_simple {read : Reader (List NodeKind)}
    (hread : ∀ {ts kinds rest}, read ts = some (kinds, rest) →
      ∀ k ∈ kinds, k.category.isStatement = true)
    (h : simple doc? read ts = .ok (some (found, rest))) : AreStatements found := by
  obtain ⟨kinds, hkinds, rfl⟩ := map_eq_some (Except.ok.inj h)
  exact areStatements_nodesOf (hread hkinds)

/-- Statements of known forms are statements. -/
theorem areStatements_of_knownStatement (h : knownStatement ts = .ok (some (found, rest))) :
    AreStatements found := by
  unfold knownStatement at h
  split at h
  · cases h
  · split at h
    · refine areStatements_of_simple (fun hread => ?_) h
      obtain ⟨kind, hkind, rfl⟩ := map_eq_some hread
      exact List.forall_mem_singleton.2 (isStatement_of_directive hkind)
    · split at h
      · exact areStatements_of_simple isStatement_of_imports h
      · unfold classLike at h
        split at h
        · cases h
        · next hhead => exact areStatements_of_classLikeBody (isStatement_of_classLikeHead hhead) h

/-- What is read as a statement is one. -/
theorem areStatements_of_statement (h : statement ts = .ok (found, rest)) :
    AreStatements found := by
  unfold statement at h
  split at h
  · cases h
  · next hknown =>
    obtain rfl := Except.ok.inj h
    exact areStatements_of_knownStatement hknown
  · unfold verbatim at h
    split at h
    · cases h
    · cases hspan : statementSpan (peek ts) 0 ts with
      | error e =>
        rw [hspan] at h
        cases h
      | ok parts =>
        rw [hspan] at h
        obtain ⟨rfl, -⟩ := Prod.mk.inj (Except.ok.inj h)
        exact List.forall_mem_singleton.2 rfl

namespace Items

variable {items : Items} {p : Placement} {P : Outline → Prop}

/-- Items have a property that comments do not change, also where comments are put in place that have it
by themselves. -/
theorem forall_settle (h : ∀ o ∈ items, P o) (htrailing : ∀ o text, P o → P (o.withTrailing text))
    (hdetached : ∀ text ∈ p.detached, P (.verbatim text)) : ∀ o ∈ items.settle p, P o := by
  unfold settle
  refine List.forall_mem_append.2 ⟨fun o ho => ?_, ?_⟩
  · obtain ⟨text, htext, rfl⟩ := List.mem_map.1 (List.mem_reverse.1 ho)
    exact hdetached text htext
  · split
    · obtain ⟨hlast, hbefore⟩ := List.forall_mem_cons.1 h
      exact List.forall_mem_cons.2 ⟨htrailing _ _ hlast, hbefore⟩
    · exact h

/-- Items have a property that comments do not change, also where nodes are put behind them that have
it. -/
theorem forall_push (h : ∀ o ∈ items, P o) (hcomment : ∀ o text, P o → P (o.withComment text))
    (hfound : ∀ o ∈ found, P o) (comment? : Option (List Char)) :
    ∀ o ∈ items.push comment? found, P o := by
  cases found with
  | nil => exact h
  | cons first more =>
    obtain ⟨hfirst, hmore⟩ := List.forall_mem_cons.1 hfound
    exact List.forall_mem_append.2 ⟨fun o ho => hmore o (List.mem_reverse.1 ho),
      List.forall_mem_cons.2 ⟨hcomment _ _ hfirst, h⟩⟩

/-- Comments that are put in place leave statements what they are, and stand among them by
themselves. -/
theorem areStatements_settle (h : AreStatements items) (p : Placement) :
    AreStatements (items.settle p) :=
  forall_settle h (fun o _ h => by cases o; exact h) fun _ _ => rfl

/-- Statements behind statements are statements. -/
theorem areStatements_push (h : AreStatements items) (comment? : Option (List Char))
    (hfound : AreStatements found) : AreStatements (items.push comment? found) :=
  forall_push h (fun o _ h => by cases o; exact h) hfound comment?

end Items

end Reader

namespace Draft

variable {d : Draft}

/-- A draft of a file: what is finished are statements, and what is being read belongs to a
namespace. -/
structure IsFile (d : Draft) : Prop where
  /-- What is finished are statements. -/
  root : AreStatements d.root
  /-- The statements that are being read stand in a namespace. -/
  scope : ∀ head items, d.scope? = some (head, items) → head.category = .namespaceDecl

/-- The empty draft is one of a file. -/
theorem isFile_empty : IsFile ⟨[], none⟩ where
  root o ho := absurd ho List.not_mem_nil
  scope head items he := absurd he (by simp)

/-- Comments that are put in place leave a draft one of a file. -/
theorem IsFile.settle (h : d.IsFile) (p : Placement) : (d.settle p).IsFile := by
  obtain ⟨root, scope?⟩ := d
  cases scope? with
  | none => exact ⟨Reader.Items.areStatements_settle h.root p, fun _ _ he => by cases he⟩
  | some inner =>
    obtain ⟨head, items⟩ := inner
    refine ⟨h.root, fun head' items' he => ?_⟩
    obtain ⟨rfl, rfl⟩ := Prod.mk.inj (Option.some.inj he)
    have hhead := h.scope head items rfl
    split
    · exact hhead
    · exact hhead

/-- A statement behind a draft of a file leaves it one. -/
theorem IsFile.push (h : d.IsFile) (comment? : Option (List Char)) {found : List Outline}
    (hfound : AreStatements found) : (d.push comment? found).IsFile := by
  obtain ⟨root, scope?⟩ := d
  cases scope? with
  | none => exact ⟨Reader.Items.areStatements_push h.root comment? hfound, fun _ _ he => by cases he⟩
  | some inner =>
    obtain ⟨head, items⟩ := inner
    refine ⟨h.root, fun head' items' he => ?_⟩
    obtain ⟨rfl, rfl⟩ := Prod.mk.inj (Option.some.inj he)
    exact h.scope head items rfl

/-- The end of a namespace leaves a draft one of a file. -/
theorem IsFile.close (h : d.IsFile) : d.close.IsFile := by
  obtain ⟨root, scope?⟩ := d
  cases scope? with
  | none => exact h
  | some inner =>
    obtain ⟨head, items⟩ := inner
    refine ⟨List.forall_mem_cons.2 ⟨?_, h.root⟩, fun _ _ he => by cases he⟩
    show head.category.isStatement = true
    rw [h.scope head items rfl]
    rfl

/-- A namespace behind a draft of a file leaves it one. -/
theorem IsFile.pushNamespace (h : d.IsFile) {head : Node} (hhead : head.category = .namespaceDecl)
    (block? : Option (List Outline)) : (d.pushNamespace head block?).IsFile := by
  cases block? with
  | none =>
    refine ⟨h.close.root, fun head' items' he => ?_⟩
    obtain ⟨rfl, rfl⟩ := Prod.mk.inj (Option.some.inj he)
    exact hhead
  | some items =>
    refine ⟨List.forall_mem_cons.2 ⟨?_, h.close.root⟩, h.close.scope⟩
    show head.category.isStatement = true
    rw [hhead]
    rfl

end Draft

/-- What is read behind a draft of a file are statements. -/
theorem Reader.areStatements_of_statements {d : Draft} {ts : List Token} {found : List Outline}
    (hd : d.IsFile) (h : Reader.statements d ts = .ok found) : AreStatements found := by
  unfold Reader.statements at h
  dsimp only at h
  have hsettled := hd.settle (placement d.afterItem ts)
  split at h
  · obtain rfl := Except.ok.inj h
    exact fun o ho => hsettled.close.root o (List.mem_reverse.1 ho)
  · split at h
    · split at h
      · cases h
      · next head block? rest hnamespace =>
        refine Reader.areStatements_of_statements (hsettled.pushNamespace ?_ block?) h
        unfold namespaceDecl at hnamespace
        dsimp only at hnamespace
        split at hnamespace
        · cases hnamespace
        · obtain ⟨he, -⟩ := Prod.mk.inj (Except.ok.inj hnamespace)
          obtain ⟨rfl, -⟩ := Prod.mk.inj he
          rfl
    · split at h
      · cases h
      · split at h
        · cases h
        · next statement rest hstatement =>
          exact Reader.areStatements_of_statements
            (hsettled.push _ (Reader.areStatements_of_statement hstatement)) h
termination_by ts.length
decreasing_by
  · exact advances_statement ‹_›
  · exact length_lt_of_namespaceDecl ‹_›

/-- A file that was read consists of statements. -/
theorem Outline.exists_of_parse {source : String} {file : Outline}
    (h : Outline.parse source = .ok file) :
    ∃ statements, file = .file statements ∧ AreStatements statements := by
  unfold Outline.parse at h
  cases htokens : Lexer.file source with
  | error e => rw [htokens] at h; cases h
  | ok ts =>
    rw [htokens] at h
    cases ts with
    | nil =>
      obtain rfl := Except.ok.inj h
      exact ⟨[], rfl, List.forall_mem_nil _⟩
    | cons first rest =>
      dsimp only [bind, Except.bind] at h
      split at h
      · cases hstatements : Reader.statements ⟨[], none⟩ rest with
        | error e => rw [hstatements] at h; cases h
        | ok statements =>
          rw [hstatements] at h
          obtain rfl := Except.ok.inj h
          exact ⟨statements, rfl, Reader.areStatements_of_statements Draft.isFile_empty hstatements⟩
      · obtain rfl := Except.ok.inj h
        exact ⟨[], rfl, List.forall_mem_nil _⟩

end PhpGraft

import PhpGraft.Graft.Pass
import PhpGraft.Proofs.Tree

/-!
# A pass is one change of the tree

A pass looks at the tree, decides, and then makes at most one change: it attaches new leaves to one
node, it puts a namespace around the statements of the file, or it gives a class or interface another
head. `Pass.plan` is the decision, and `Pass.on_apply` says that running a pass is making the change
that it plans. So a pass that fails, or that finds its element, leaves the tree as it was, and what
holds after a pass follows from what its change does.
-/

namespace PhpGraft

open Edit

/-- One change of a tree. -/
inductive Change where
  /-- New leaves ahead of the child with the given number. -/
  | insert (parent index : Nat) (nodes : List Node)
  /-- A namespace around the statements of the file, except for the directives ahead of them. -/
  | wrap (name : String)
  /-- Another head of a class or interface. -/
  | head (id : Nat) (kind : NodeKind)

/-- The tree with the statements of the file in a namespace, except for the directives ahead of
them. -/
def Tree.wrapped (t : Tree) (name : String) : Tree :=
  let count := leadingDirectives t root
  let statements := t.children root
  let (id, inner) := (t.takeChildren root).2.allocWith { kind := .namespaceDecl name }
    (statements.drop count)
  inner.modifyChildren root fun cs => statements.take count ++ cs ++ [id]

/-- The tree after a change. -/
def Change.apply (t : Tree) : Change → Tree
  | insert parent index nodes => t.insertNodes parent index nodes
  | wrap name => t.wrapped name
  | head id kind => t.modifyNode id fun n => { n with kind }

/-- Fails, leaves the tree alone, or makes a change, as it was planned. -/
def commit (t : Tree) : Except Error (Option Change) → Except Error Outcome × Tree
  | .error e => (.error e, t)
  | .ok none => (.ok .unchanged, t)
  | .ok (some c) => (.ok .inserted, c.apply t)

/-! ## What a pass plans -/

/-- The change of the head of a class, where one is asked for. An interface is none. -/
def classHead (name? : Option String) (f : ClassDecl → Except Error (Option ClassDecl)) :
    NodeKind → Except Error (Option NodeKind)
  | .classDecl d => (f d).map (Option.map .classDecl)
  | _ => .error (.missingDeclaration (className name?))

/-- The change of the head of an interface, where one is asked for. A class is none. -/
def interfaceHead (name : String) (f : InterfaceDecl → Option InterfaceDecl) :
    NodeKind → Except Error (Option NodeKind)
  | .interfaceDecl d => .ok ((f d).map .interfaceDecl)
  | _ => .error (.missingDeclaration name)

/-- Plans another head for the class or interface of a name. -/
def planHead (t : Tree) (name? : Option String)
    (f : NodeKind → Except Error (Option NodeKind)) : Except Error (Option Change) :=
  match t.findClassLike? name? with
  | none => .error (.missingDeclaration (className name?))
  | some id => (f (t.node id).kind).map (Option.map (.head id))

/-- Plans a member of the class or interface of a name, unless it has one of its form with a name
that satisfies the test. -/
def planMember (t : Tree) (name? : Option String) (c : Category) (same : String → Bool)
    (realize : Bool → Except Error Node) : Except Error (Option Change) :=
  match t.findClassLike? name? with
  | none => .error (.missingDeclaration (className name?))
  | some id =>
    if hasMember t id c same then .ok none
    else (realize (t.category id == .interfaceDecl)).map fun node =>
      some (.insert id (memberIndex t id node.category) [node])

/-- Plans the traits that a class lacks. -/
def planTraits (t : Tree) (name? : Option String) (names : List String) :
    Except Error (Option Change) :=
  match t.findClassLike? name? with
  | none => .error (.missingDeclaration (className name?))
  | some id =>
    if t.category id != .classDecl then .error (.missingDeclaration (className name?))
    else
      let missing := Name.missing (fun name => name) (usedTraits t id) names
      .ok (if missing.isEmpty then none
        else some (.insert id 0 (missing.map fun name => { kind := .traitUse [name] none })))

/-- Plans a declaration behind the statements of the file, unless it has one of the name. -/
def planDeclaration (t : Tree) (name? : Option String) (kind : NodeKind) (doc? : Option String)
    (attributes : List AttributeSpec) : Except Error (Option Change) :=
  if (t.findClassLike? name?).isSome then .ok none
  else (realizeAttributes attributes).map fun attributes =>
    some (.insert t.scope (t.children t.scope).length
      [{ kind, doc? := renderSummary? doc?, attributes }])

/-- Plans the imports that the file lacks. -/
def planImports (t : Tree) (imports : List Import) : Option Change :=
  let missing := Name.missing Import.name (importedNames t t.scope) imports
  if missing.isEmpty then none
  else some (.insert t.scope (leadingDirectives t t.scope) (missing.map Import.node))

/-- The directive for strict types as a node. -/
def strictDirective : Node := { kind := .directive strictKey (.int 1) }

/-- What a pass wants to change in a tree. -/
def Pass.plan (t : Tree) : Pass → Except Error (Option Change)
  | strictTypes =>
    .ok (if (t.findChild? Tree.root isStrictDirective).isSome then none
      else some (.insert Tree.root 0 [strictDirective]))
  | namespaceDecl name =>
    .ok (if t.namespace?.isSome then none else some (.wrap (Name.bare name)))
  | imports l => .ok (planImports t l)
  | classDecl name? modifiers doc? attributes =>
    planDeclaration t name? (.classDecl { name?, modifiers }) doc? attributes
  | interfaceDecl name doc? attributes =>
    planDeclaration t (some name) (.interfaceDecl { name }) doc? attributes
  | parent class? name => planHead t class? (classHead class? (withParent class? name))
  | interfaces class? names =>
    planHead t class? (classHead class? fun d => .ok (withInterfaces? names d))
  | interfaceParents name names =>
    planHead t (some name) (interfaceHead name (withParents? names))
  | traits class? names => planTraits t class? names
  | constant class? spec =>
    planMember t class? .constDecl (· == spec.name) fun _ => spec.realize
  | property class? spec =>
    planMember t class? .propertyDecl (· == spec.name) fun _ => spec.realize
  | method class? spec =>
    planMember t class? .methodDecl (Text.eqIgnoreCase · spec.name) spec.realize

/-! ## Running edits -/

namespace Edit

variable {α β : Type} (t : Tree)

theorem on_pure (a : α) : (pure a : Edit α).on t = (.ok a, t) := rfl

theorem on_get : (get : Edit Tree).on t = (.ok t, t) := rfl

theorem on_modify (f : Tree → Tree) : (modify f : Edit PUnit).on t = (.ok ⟨⟩, f t) := rfl

/-- What does not look at the tree leaves it alone. -/
theorem on_lift (x : Except Error α) : (liftM x : Edit α).on t = (x, t) := by
  cases x <;> rfl

/-- An edit after another one runs on the tree that the first one leaves, if that succeeds. -/
theorem on_bind (e : Edit α) (f : α → Edit β) :
    (e >>= f).on t =
      match e.on t with
      | (.ok a, t') => (f a).on t'
      | (.error e, t') => (.error e, t') := by
  unfold on
  simp only [ExceptT.run_bind, StateT.run_bind]
  generalize e.run.run t = answer
  obtain ⟨_ | _, _⟩ := answer <;> rfl

/-- Looking a declaration up leaves the tree alone. -/
theorem on_findClassLike (name? : Option String) :
    (findClassLike name?).on t =
      match t.findClassLike? name? with
      | some id => (.ok id, t)
      | none => (.error (.missingDeclaration (className name?)), t) := by
  unfold findClassLike
  rw [on_bind, on_get]
  dsimp only
  cases t.findClassLike? name? <;> rfl

theorem on_insertNodes (parent index : Nat) (nodes : List Node) :
    (insertNodes parent index nodes).on t =
      (.ok .inserted, t.insertNodes parent index nodes) := by
  rw [insertNodes, on_bind, on_modify]
  rfl

theorem on_insertMember (parent : NodeId) (node : Node) :
    (insertMember parent node).on t =
      (.ok .inserted, t.insertNodes parent (memberIndex t parent node.category) [node]) := by
  rw [insertMember, on_bind, on_modify]
  rfl

/-- Changing the head of a class is planned. -/
theorem on_changeClass (name? : Option String)
    (f : ClassDecl → Except Error (Option ClassDecl)) :
    (changeClass name? f).on t = commit t (planHead t name? (classHead name? f)) := by
  rw [changeClass, on_bind, on_findClassLike, planHead]
  cases t.findClassLike? name? with
  | none => rfl
  | some id =>
    dsimp only
    rw [on_bind, on_get]
    dsimp only
    cases (t.node id).kind with
    | classDecl d =>
      dsimp only [classHead]
      rcases f d with _ | _ | _ <;> rfl
    | _ => rfl

/-- Changing the head of an interface is planned. -/
theorem on_changeInterface (name : String) (f : InterfaceDecl → Option InterfaceDecl) :
    (changeInterface name f).on t = commit t (planHead t (some name) (interfaceHead name f)) := by
  rw [changeInterface, on_bind, on_findClassLike, planHead]
  cases t.findClassLike? (some name) with
  | none => rfl
  | some id =>
    dsimp only
    rw [on_bind, on_get]
    dsimp only
    cases (t.node id).kind with
    | interfaceDecl d =>
      dsimp only [interfaceHead]
      rcases f d with _ | _ <;> rfl
    | _ => rfl

/-- Adding a member that is missing, however it is realized, is planned. -/
theorem on_addMember (name? : Option String) (c : Category) (same : String → Bool)
    (realize : Bool → Except Error Node) :
    (do
      let id ← findClassLike name?
      let t ← get
      if hasMember t id c same then return .unchanged
      insertMember id (← realize (t.category id == .interfaceDecl)) : Edit Outcome).on t =
      commit t (planMember t name? c same realize) := by
  rw [on_bind, on_findClassLike, planMember]
  cases t.findClassLike? name? with
  | none => rfl
  | some id =>
    dsimp only
    rw [on_bind, on_get]
    dsimp only
    cases hasMember t id c same with
    | true => rfl
    | false =>
      simp only [Bool.false_eq_true, if_false]
      rw [on_bind, on_lift]
      cases realize (t.category id == .interfaceDecl) with
      | error e => rfl
      | ok node => exact on_insertMember t id node

/-- Adding the traits that a class lacks is planned. -/
theorem on_addTraits (name? : Option String) (names : List String) :
    (addTraits name? names).on t = commit t (planTraits t name? names) := by
  rw [addTraits, on_bind, on_findClassLike, planTraits]
  cases t.findClassLike? name? with
  | none => rfl
  | some id =>
    dsimp only
    rw [on_bind, on_get]
    dsimp only
    cases t.category id != .classDecl with
    | true => rfl
    | false =>
      cases h : (Name.missing (fun name => name) (usedTraits t id) names).isEmpty with
      | true => simp [commit, on_pure]
      | false => simp [commit, on_insertNodes, Change.apply]

/-- Adding a declaration that is missing is planned. -/
theorem on_addDeclaration (name? : Option String) (kind : NodeKind) (doc? : Option String)
    (attributes : List AttributeSpec) :
    (addDeclaration name? kind doc? attributes).on t =
      commit t (planDeclaration t name? kind doc? attributes) := by
  rw [addDeclaration, on_bind, on_get, planDeclaration]
  dsimp only
  cases (t.findClassLike? name?).isSome with
  | true => rfl
  | false =>
    simp only [Bool.false_eq_true, if_false]
    rw [on_bind, on_lift]
    cases realizeAttributes attributes with
    | error e => rfl
    | ok attributes =>
      dsimp only
      rw [on_bind, on_modify]
      dsimp only [Except.map, commit, Change.apply, Tree.insertNodes, List.foldr]
      rw [on_pure, Tree.pushChild_eq_insertChild]
      rw [Tree.alloc, Tree.children_allocWith, if_neg (Nat.ne_of_lt t.scope_lt)]

/-- Adding the imports that a file lacks is planned. -/
theorem on_addImports (l : List Import) :
    (addImports l).on t = commit t (.ok (planImports t l)) := by
  rw [addImports, on_bind, on_get, planImports]
  dsimp only
  cases (Name.missing Import.name (importedNames t t.scope) l).isEmpty with
  | true => rfl
  | false => exact on_insertNodes t _ _ _

end Edit

/-- Running a pass is making the change that it plans. -/
theorem Pass.on_apply (p : Pass) (t : Tree) : p.apply.on t = commit t (p.plan t) := by
  cases p with
  | strictTypes =>
    rw [apply, plan, addStrictTypes, on_bind, on_get]
    dsimp only
    cases (t.findChild? Tree.root isStrictDirective).isSome with
    | true => rfl
    | false => exact on_insertNodes t _ _ _
  | namespaceDecl name =>
    rw [apply, plan, addNamespace, on_bind, on_get]
    dsimp only
    cases t.namespace?.isSome <;> rfl
  | imports l => exact on_addImports t l
  | classDecl name? modifiers doc? attributes => exact on_addDeclaration t _ _ _ _
  | interfaceDecl name doc? attributes => exact on_addDeclaration t _ _ _ _
  | parent class? name => exact on_changeClass t _ _
  | interfaces class? names => exact on_changeClass t _ _
  | interfaceParents name names => exact on_changeInterface t _ _
  | traits class? names => exact on_addTraits t _ _
  | constant class? spec => exact on_addMember t class? .constDecl _ fun _ => spec.realize
  | property class? spec => exact on_addMember t class? .propertyDecl _ fun _ => spec.realize
  | method class? spec => exact on_addMember t class? .methodDecl _ spec.realize

end PhpGraft

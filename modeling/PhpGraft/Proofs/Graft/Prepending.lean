import PhpGraft.Proofs.Graft.Run
import PhpGraft.Proofs.Model.Name

/-!
# Names in front of those that are there

Imports go behind the directives at the front of the scope, and traits to the front of a class. They are
attached one after another, the last one first and always ahead of the same child, so that they read in the
order in which they were asked for. A name that is there already is left out, in whatever spelling, and so is
one that was asked for before (`prepended_in_order`).
-/

namespace PhpGraft

open Edit

/-- The wanted things of new names, in order: their names are not known, and of several with spellings of one
name it is the first one. -/
def Name.firstNew {α : Type} (nameOf : α → String) (isKnown : String → Bool) (wanted : List α) : List α :=
  (wanted.filter fun x => !isKnown (nameOf x)).eraseDupsBy fun x y => Name.same (nameOf x) (nameOf y)

namespace Tree

variable {t : Tree} {parent id : NodeId} {front back : List NodeId} {nodes : List Node}

/-- Whether a child of a node imports a name, in whatever spelling. -/
def hasImport (t : Tree) (id : NodeId) (name : String) : Bool :=
  (t.children id).any fun c =>
    match (t.node c).kind with
    | .useDecl n _ => Name.same n name
    | _ => false

/-- Whether a child of a node uses a trait, in whatever spelling, with a block that resolves conflicts or
without one. -/
def hasTrait (t : Tree) (id : NodeId) (name : String) : Bool :=
  (t.children id).any fun c =>
    match (t.node c).kind with
    | .traitUse traits _ => traits.any (Name.same · name)
    | _ => false

/-- A tree, and what it is when a node has been given new leaves in the midst of its children: the children
that it had stand around them, and no other node has been touched. -/
structure Receives (t : Tree) (parent : NodeId) (front : List NodeId) (nodes : List Node)
    (back : List NodeId) (t' : Tree) : Prop where
  /-- The old children. -/
  before : t.children parent = front ++ back
  /-- The new children have handles of their own and no children. -/
  after : ∃ ids : List NodeId, t'.children parent = front ++ ids ++ back ∧ ids.map t'.node = nodes ∧
    ids.Nodup ∧ ∀ id ∈ ids, t.cells.size ≤ id ∧ t'.children id = []
  /-- Nothing else is stored. -/
  size_eq : t'.cells.size = t.cells.size + nodes.length
  /-- The old nodes are the same. -/
  node_eq : ∀ id < t.cells.size, t'.node id = t.node id
  /-- All other nodes have the same children. -/
  children_eq : ∀ id ≠ parent, t'.children id = t.children id

/-- The next handles are different ones. -/
theorem nodup_freshIds (t : Tree) (count : Nat) : (t.freshIds count).Nodup := by
  induction count with
  | zero => exact .nil
  | succ count ih =>
    refine List.nodup_cons.2 ⟨fun hmem => ?_, ih⟩
    have := (le_of_mem_freshIds hmem).2
    omega

/-- A node receives the leaves that are attached to it. -/
theorem receives_insertNodes (hp : parent < t.cells.size) (h : t.children parent = front ++ back)
    (nodes : List Node) :
    t.Receives parent front nodes back (t.insertNodes parent front.length nodes) where
  before := h
  after := by
    have hi : front.length ≤ (t.children parent).length := by
      rw [h, List.length_append]
      exact Nat.le_add_right _ _
    refine ⟨t.freshIds nodes.length, ?_, map_node_freshIds, nodup_freshIds t _, fun id hid => ?_⟩
    · rw [children_insertNodes hp hi, h, List.take_left, List.drop_left]
    · have hle := (le_of_mem_freshIds hid).1
      have hne : id ≠ parent := fun he => absurd hp (Nat.not_lt.2 (he ▸ hle))
      exact ⟨hle, by rw [children_insertNodes_of_ne hne, children_of_le hle]⟩
  size_eq := size_insertNodes
  node_eq _ := node_insertNodes_of_lt
  children_eq _ := children_insertNodes_of_ne

/-- The names of the imports tell whether a name is imported. -/
theorem any_importedNames (t : Tree) (id : NodeId) (name : String) :
    (importedNames t id).any (Name.same · name) = t.hasImport id name := by
  unfold importedNames childrenOf hasImport
  rw [List.any_filterMap, List.any_filter]
  refine congrArg _ (funext fun c => ?_)
  rw [category, Node.category, Node.name?]
  cases (t.node c).kind <;> rfl

/-- The names of the traits tell whether a trait is used. -/
theorem any_usedTraits (t : Tree) (id : NodeId) (name : String) :
    (usedTraits t id).any (Name.same · name) = t.hasTrait id name := by
  unfold usedTraits hasTrait
  rw [List.any_flatMap]
  refine congrArg _ (funext fun c => ?_)
  cases (t.node c).kind <;> rfl

end Tree

section Planned

variable {t : Tree} {parent index : Nat} {nodes : List Node}

/-- Attaching leaves, if there are any, says whether there were. -/
theorem commit_insert : commit t (.ok (if nodes.isEmpty then none else some (.insert parent index nodes))) =
    (.ok (if nodes.isEmpty then .unchanged else .inserted), t.insertNodes parent index nodes) := by
  cases nodes <;> rfl

/-- The pass for imports attaches those of new names. -/
theorem on_apply_imports (t : Tree) (imports : List Import) :
    let new := Name.firstNew Import.name (t.hasImport t.scope) imports
    (Pass.imports imports).apply.on t =
      (.ok (if new.isEmpty then .unchanged else .inserted),
        t.insertNodes t.scope (leadingDirectives t t.scope) (new.map Import.node)) := by
  have hmissing : Name.missing Import.name (importedNames t t.scope) imports =
      Name.firstNew Import.name (t.hasImport t.scope) imports := by
    rw [Name.missing_eq, Name.firstNew]
    simp only [Tree.any_importedNames]
  dsimp only
  rw [Pass.on_apply, Pass.plan, planImports, hmissing, ← List.isEmpty_map (f := Import.node)]
  exact commit_insert

/-- The pass for traits attaches a statement for each of those of new names. -/
theorem on_apply_traits {class? : Option String} {id : NodeId} (hfind : t.findClassLike? class? = some id)
    (hclass : t.category id = .classDecl) (names : List String) :
    let new := Name.firstNew (fun name => name) (t.hasTrait id) names
    (Pass.traits class? names).apply.on t =
      (.ok (if new.isEmpty then .unchanged else .inserted), t.insertNodes id 0 (traitNodes new)) := by
  intro new
  have hmissing : Name.missing (fun name => name) (usedTraits t id) names =
      new := by
    rw [Name.missing_eq]
    simp only [Tree.any_usedTraits, new, Name.firstNew]
  have hplan : planTraits t class? names = .ok (if (traitNodes new).isEmpty then none
      else some (.insert id 0 (traitNodes new))) :=
    planTraits_eq_ok.2 ⟨id, hfind, hclass, by rw [hmissing, traitNodes, List.isEmpty_map]⟩
  rw [Pass.on_apply, Pass.plan, hplan,
    ← List.isEmpty_map (f := fun name => ({ kind := .traitUse [name] none } : Node))]
  exact commit_insert

end Planned

/-- Imports are attached behind the leading directives of the scope, one node for each new name in the order
of the imports, with the first spelling and its alias, and ahead of all other statements. Traits are attached
at the front of the class that is found, one statement for each new name in the order of the names. Nothing
else is touched: the scope and the class are found as before, and if no name is new, nothing is inserted. -/
theorem prepended_in_order :
    (∀ (t : Tree) (imports : List Import), ∃ t',
      let new := Name.firstNew Import.name (t.hasImport t.scope) imports
      (Pass.imports imports).apply.on t =
          (.ok (if new.isEmpty then .unchanged else .inserted), t') ∧
        t'.scope = t.scope ∧
          t.Receives t.scope ((t.children t.scope).takeWhile fun c => t.category c == .directive)
            (new.map fun i => { kind := .useDecl i.name i.alias? })
            ((t.children t.scope).dropWhile fun c => t.category c == .directive) t') ∧
    ∀ (t : Tree) (class? : Option String) (names : List String) (id : NodeId),
      t.findClassLike? class? = some id → t.category id = .classDecl → ∃ t',
        let new := Name.firstNew (fun name => name) (t.hasTrait id) names
        (Pass.traits class? names).apply.on t =
            (.ok (if new.isEmpty then .unchanged else .inserted), t') ∧
          t'.findClassLike? class? = some id ∧
            t.Receives id [] (new.map fun name => { kind := .traitUse [name] none }) (t.children id)
              t' := by
  constructor
  · intro t imports
    have hnodes : ∀ n ∈ (Name.firstNew Import.name (t.hasImport t.scope) imports).map Import.node,
        n.category ≠ .namespaceDecl := by
      intro n hn
      obtain ⟨i, -, rfl⟩ := List.mem_map.1 hn
      exact (by decide : Category.useDecl ≠ .namespaceDecl)
    refine ⟨_, on_apply_imports t imports, ?_, ?_⟩
    · rw [Tree.scope, namespace?_insertNodes Tree.scope_lt Tree.leadingDirectives_le hnodes]
      rfl
    · exact Tree.receives_insertNodes Tree.scope_lt List.takeWhile_append_dropWhile.symm _
  · intro t class? names id hfind hclass
    have hnodes : ∀ n ∈ traitNodes (Name.firstNew (fun name => name) (t.hasTrait id) names),
        n.category ≠ .namespaceDecl ∧ Tree.isClassLike class? n = false := by
      intro n hn
      obtain ⟨name, -, rfl⟩ := List.mem_map.1 hn
      exact ⟨(by decide : Category.traitUse ≠ .namespaceDecl), by cases class? <;> rfl⟩
    have hlt := lt_of_find hfind
    refine ⟨_, on_apply_traits hfind hclass names, ?_, ?_⟩
    · rw [findClassLike?_insertNodes hlt (Nat.zero_le _) (fun n hn => (hnodes n hn).1)
        fun n hn => (hnodes n hn).2]
      exact hfind
    · exact Tree.receives_insertNodes hlt (List.nil_append _).symm _

/-- A class that uses two traits, with a block for what they both have, ahead of a property. -/
def blendedFile : Outline :=
  .file [.leaf { kind := .directive "strict_types" (.int 1) },
    .mk { kind := .classDecl { name? := some "Blend" } }
      [.leaf { kind := .traitUse ["Warm", "\\Tone\\Cold"] (some ⟨[⟨"Warm::mix as heat;", false⟩]⟩) },
        .leaf { kind := .propertyDecl { name := "share" } }]]

/-- Two traits of four are new for the class: one is in the block, and one is asked for twice. -/
theorem prepended_in_order_blended : ∃ t',
    (Pass.traits (some "Blend") ["\\My\\Dye", "Loud", "tone\\cold", "my\\dye"]).apply.on
        (.ofOutline blendedFile) = (.ok .inserted, t') ∧
      t'.findClassLike? (some "Blend") = some 2 ∧
        (Tree.ofOutline blendedFile).Receives 2 []
          [{ kind := .traitUse ["\\My\\Dye"] none }, { kind := .traitUse ["Loud"] none }] [3, 4] t' := by
  have hnew : Name.firstNew (fun name => name) ((Tree.ofOutline blendedFile).hasTrait 2)
      ["\\My\\Dye", "Loud", "tone\\cold", "my\\dye"] = ["\\My\\Dye", "Loud"] := by decide +kernel
  have hchildren : (Tree.ofOutline blendedFile).children 2 = [3, 4] := by decide +kernel
  have h := prepended_in_order.2 (.ofOutline blendedFile) (some "Blend")
    ["\\My\\Dye", "Loud", "tone\\cold", "my\\dye"] 2 (by decide +kernel) (by decide +kernel)
  rw [hnew, hchildren] at h
  exact h

end PhpGraft

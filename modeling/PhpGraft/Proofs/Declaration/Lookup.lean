import PhpGraft.Proofs.Graft.Presence
import PhpGraft.Proofs.Stored

/-!
# Looking things up in a file

The passes look for their elements in the tree of a file. What they find there can be said of the file
as a value: its scope, the declaration of a name in the scope, and the names that a node and its
children hold (`offers_iff`).
-/

namespace PhpGraft

open Edit

namespace Outline

/-- The first namespace of a file, or the file itself if it has none. -/
def scope (file : Outline) : Outline :=
  (file.children.find? fun o => o.category == .namespaceDecl).getD file

/-- The class or interface of a name in the scope of a file. -/
def findClassLike? (file : Outline) (name? : Option String) : Option Outline :=
  file.scope.children.find? fun o => Tree.isClassLike name? o.node

end Outline

/-- The names of a slot that a node and its children hold. -/
def Slot.namesOf (s : Slot) (o : Outline) : List String :=
  s.inHead o.node.kind ++ o.children.flatMap fun c => s.inChild c.node

namespace Tree.Holds

variable {t : Tree} {id : Nat} {o file : Outline} {name? : Option String}

/-- A node has a child exactly when its outline has it. -/
theorem hasChild_iff (h : t.Holds id o) {test : Node → Bool} :
    t.HasChild id test ↔ ∃ c ∈ o.children, test c.node = true := by
  have hchildren := h.children
  unfold Tree.HasChild
  generalize t.children id = ids at hchildren
  generalize o.children = os at hchildren
  induction hchildren with
  | nil => simp
  | cons hc _ ih => simp [hc.node_eq, ih]

/-- A node holds the names that its outline holds. -/
theorem namesAt_eq (h : t.Holds id o) (s : Slot) : s.namesAt t id = s.namesOf o := by
  have hnames : ((t.children id).flatMap fun c => s.inChild (t.node c)) =
      o.children.flatMap fun c => s.inChild c.node := by
    have hchildren := h.children
    generalize t.children id = ids at hchildren
    generalize o.children = os at hchildren
    induction hchildren with
    | nil => rfl
    | cons hc _ ih => rw [List.flatMap_cons, List.flatMap_cons, hc.node_eq, ih]
  rw [Slot.namesAt, Slot.namesOf, h.node_eq, hnames]

/-- A file has a namespace exactly when its outline has one. -/
theorem isSome_namespace? (h : t.Holds root file) :
    t.namespace?.isSome = file.children.any fun o => o.category == .namespaceDecl := by
  have hiff : t.namespace?.isSome = true ↔ ∃ c ∈ file.children,
      (c.node.category == .namespaceDecl) = true := by
    rw [← @hasChild_iff _ _ _ h fun n => n.category == .namespaceDecl, ← isSome_findChild?]
    rfl
  rw [Bool.eq_iff_iff, hiff, List.any_eq_true]
  rfl

/-- The scope of a file is that of its outline. -/
theorem scope (h : t.Holds root file) : t.Holds t.scope file.scope := by
  have hfind := find?_of_holds (p := fun n => n.category == .namespaceDecl) h.children
  rcases hfind with ⟨htree, hfile⟩ | ⟨id, o, htree, hfile, hheld⟩
  · have hnone : t.namespace? = none := htree
    have hnone' : file.children.find? (fun o => o.category == .namespaceDecl) = none := hfile
    rw [Tree.scope, Outline.scope, hnone, hnone']
    exact h
  · have hsome : t.namespace? = some id := htree
    have hsome' : file.children.find? (fun o => o.category == .namespaceDecl) = some o := hfile
    rw [Tree.scope, Outline.scope, hsome, hsome']
    exact hheld

/-- The declaration of a name is found in a file exactly when it is found in its outline. -/
theorem findClassLike? (h : t.Holds root file) (name? : Option String) :
    t.findClassLike? name? = none ∧ file.findClassLike? name? = none ∨
      ∃ id o, t.findClassLike? name? = some id ∧ file.findClassLike? name? = some o ∧
        t.Holds id o :=
  find?_of_holds (p := Tree.isClassLike name?) h.scope.children

/-- A file offers an import when its scope has it. -/
theorem offers_imports_iff {form : Category} {w : String} (h : t.Holds root file) :
    Slot.imports.Offers form name? t w ↔
      ∃ n ∈ Slot.imports.namesOf file.scope, Name.same n w = true := by
  have hnames : Slot.imports.names name? t = Slot.imports.namesOf file.scope :=
    h.scope.namesAt_eq .imports
  rw [Slot.Offers, hnames]
  exact and_iff_right fun hbinds => by cases hbinds

/-- A file offers a name of a declaration when the declaration that is found has it. -/
theorem offers_iff {s : Slot} {form : Category} {w : String} (hs : s ≠ .imports)
    (hfind : t.findClassLike? name? = some id) (h : t.Holds id o) :
    s.Offers form name? t w ↔
      (s.bindsForm = true → o.category = form) ∧ ∃ n ∈ s.namesOf o, s.same n w = true := by
  have hcategory : t.category id = o.category := by
    rw [Tree.category, h.node_eq, Outline.category]
  rw [Slot.Offers, Slot.names_of_find hs hfind, h.namesAt_eq, hfind, ← hcategory]
  simp only [Option.some.injEq, exists_eq_left']

end Tree.Holds

end PhpGraft

import Mathlib.Data.List.Find
import Mathlib.Data.List.TakeWhile
import PhpGraft.Declaration.Basic
import PhpGraft.Proofs.Graft.Change

/-!
# Trees that grow

`Grows name? t t'` says that `t'` is `t` with more in it: stored nodes stay as they are but for the
head of the declaration of that name, children stay in their order, the scope of the file stays, and
so does the declaration of that name once it is there. The relation is transitive. A tree grows when
leaves are attached (`grows_insertNodes`) and when the head of the declaration grows (`grows_head`).

The other kind of step is `Tree.wrapped`, which moves the statements of a file into a new namespace.
The declaration of a name stays what it was (`findClassLike?_wrapped`), but it stands in another
scope from then on.
-/

namespace PhpGraft

open Edit

/-- The head of a class that may have been given a parent and further interfaces, or the head of an
interface that may have been given further parents. -/
inductive HeadGrows : NodeKind → NodeKind → Prop
  /-- A class keeps its name, its modifiers and its parent if it has one. -/
  | ofClass {d d' : ClassDecl} (name : d'.name? = d.name?) (modifiers : d'.modifiers = d.modifiers)
      (parent : d.parent? = none ∨ d'.parent? = d.parent?)
      (interfaces : d.interfaces <+: d'.interfaces) : HeadGrows (.classDecl d) (.classDecl d')
  /-- An interface keeps its name. -/
  | ofInterface {d d' : InterfaceDecl} (name : d'.name = d.name) (parents : d.parents <+: d'.parents) :
      HeadGrows (.interfaceDecl d) (.interfaceDecl d')

/-- The same node with a head that may have grown. -/
def NodeGrows (n n' : Node) : Prop := ∃ kind, HeadGrows n.kind kind ∧ n' = { n with kind }

/-- A head that grew twice grew. -/
theorem HeadGrows.trans {k k' k'' : NodeKind} (h : HeadGrows k k') (h' : HeadGrows k' k'') :
    HeadGrows k k'' := by
  cases h with
  | ofClass name modifiers parent interfaces =>
    cases h' with
    | ofClass name' modifiers' parent' interfaces' =>
      refine .ofClass (name'.trans name) (modifiers'.trans modifiers) ?_
        (interfaces.trans interfaces')
      rcases parent with hnone | heq
      · exact .inl hnone
      · rcases parent' with hnone | heq'
        · exact .inl (heq ▸ hnone)
        · exact .inr (heq'.trans heq)
  | ofInterface name parents =>
    cases h' with
    | ofInterface name' parents' => exact .ofInterface (name'.trans name) (parents.trans parents')

/-- A node that grew twice grew. -/
theorem NodeGrows.trans {n n' n'' : Node} (h : NodeGrows n n') (h' : NodeGrows n' n'') :
    NodeGrows n n'' := by
  obtain ⟨k, hk, rfl⟩ := h
  obtain ⟨k', hk', rfl⟩ := h'
  exact ⟨k', hk.trans hk', rfl⟩

/-- A node that grew keeps its form. -/
theorem NodeGrows.category_eq {n n' : Node} (h : NodeGrows n n') : n'.category = n.category := by
  obtain ⟨k, hk, rfl⟩ := h
  obtain ⟨kind, _, _, _, _⟩ := n
  cases hk <;> rfl

/-- A class or interface that grew is found by the same names. -/
theorem NodeGrows.isClassLike_eq {n n' : Node} (h : NodeGrows n n') (name? : Option String) :
    Tree.isClassLike name? n' = Tree.isClassLike name? n := by
  obtain ⟨k, hk, rfl⟩ := h
  obtain ⟨kind, _, _, _, _⟩ := n
  unfold Tree.isClassLike
  cases hk with
  | ofClass name => cases name? <;> simp only [name]
  | ofInterface name => cases name? <;> simp only [name]

/-- What grew is a class or an interface. -/
theorem NodeGrows.isClassLike {n n' : Node} (h : NodeGrows n n') :
    n.category.isClassLike = true := by
  obtain ⟨k, hk, -⟩ := h
  obtain ⟨kind, _, _, _, _⟩ := n
  cases hk <;> rfl

/-- A tree with more in it. -/
structure Grows (name? : Option String) (t t' : Tree) : Prop where
  /-- Handles stay given out. -/
  size_le : t.cells.size ≤ t'.cells.size
  /-- Nodes stay as they are, except for the head of the declaration of the name. -/
  node : ∀ id, id < t.cells.size → t'.node id = t.node id ∨
    t'.findClassLike? name? = some id ∧ NodeGrows (t.node id) (t'.node id)
  /-- Children stay in their order. -/
  children : ∀ id, (t.children id).Sublist (t'.children id)
  /-- New children are new nodes. -/
  edges : ∀ id c : Nat, c ∈ t'.children id → c ∈ t.children id ∨ t.cells.size ≤ c
  /-- The namespace of the file stays. -/
  namespace_eq : t'.namespace? = t.namespace?
  /-- The declaration of the name stays. -/
  find : ∀ id, t.findClassLike? name? = some id → t'.findClassLike? name? = some id
  /-- No new node is a namespace. -/
  fresh : ∀ id, t.cells.size ≤ id → t'.category id ≠ .namespaceDecl

namespace Grows

variable {name? : Option String} {t t' t'' : Tree}

/-- The scope of the file stays. -/
theorem scope_eq (h : Grows name? t t') : t'.scope = t.scope := by
  unfold Tree.scope
  rw [h.namespace_eq]

/-- Stored nodes keep their forms. -/
theorem category_eq (h : Grows name? t t') {id : Nat} (hid : id < t.cells.size) :
    t'.category id = t.category id := by
  rcases h.node id hid with he | ⟨-, hg⟩
  · rw [Tree.category, Tree.category, he]
  · exact hg.category_eq

/-- A node that is neither a class nor an interface stays as it is. -/
theorem node_eq (h : Grows name? t t') {id : Nat} (hid : id < t.cells.size)
    (hc : (t.category id).isClassLike = false) : t'.node id = t.node id := by
  rcases h.node id hid with he | ⟨-, hg⟩
  · exact he
  · have hlike : (t.category id).isClassLike = true := hg.isClassLike
    rw [hc] at hlike
    exact absurd hlike Bool.false_ne_true

/-- A tree that stays as it is grows. -/
theorem refl (name? : Option String) (t : Tree) : Grows name? t t where
  size_le := Nat.le_refl _
  node := fun _ _ => .inl rfl
  children := fun _ => List.Sublist.refl _
  edges := fun _ _ hc => .inl hc
  namespace_eq := rfl
  find := fun _ h => h
  fresh := fun id hid => by
    rw [Tree.category, Tree.node_of_le hid]
    decide

/-- A tree that grew twice grew. -/
theorem trans (h : Grows name? t t') (h' : Grows name? t' t'') : Grows name? t t'' where
  size_le := Nat.le_trans h.size_le h'.size_le
  node := fun id hid => by
    have hid' : id < t'.cells.size := Nat.lt_of_lt_of_le hid h.size_le
    rcases h.node id hid with he | ⟨hf, hg⟩
    · rw [← he]
      exact h'.node id hid'
    · rcases h'.node id hid' with he' | ⟨hf', hg'⟩
      · exact .inr ⟨h'.find id hf, he' ▸ hg⟩
      · exact .inr ⟨hf', hg.trans hg'⟩
  children := fun id => (h.children id).trans (h'.children id)
  edges := fun id c hc => by
    rcases h'.edges id c hc with hc | hle
    · exact h.edges id c hc
    · exact .inr (Nat.le_trans h.size_le hle)
  namespace_eq := h'.namespace_eq.trans h.namespace_eq
  find := fun id hf => h'.find id (h.find id hf)
  fresh := fun id hid => by
    rcases Nat.lt_or_ge id t'.cells.size with hlt | hge
    · rw [h'.category_eq hlt]
      exact h.fresh id hid
    · exact h'.fresh id hge

end Grows

/-! ## Changes along which a tree grows -/

section Changes

variable {name? : Option String} {t : Tree} {id parent index : Nat} {nodes : List Node}

/-- Attaching leaves that fail a test does not change which child of a node satisfies it first. -/
theorem findChild?_insertNodes {test : Node → Bool} (hp : parent < t.cells.size)
    (hi : index ≤ (t.children parent).length) (hn : ∀ n ∈ nodes, test n = false)
    (hf : test Tree.fileNode = false) :
    (t.insertNodes parent index nodes).findChild? id test = t.findChild? id test := by
  have hnew : ∀ c, t.cells.size ≤ c →
      test ((t.insertNodes parent index nodes).node c) = false := by
    intro c hc
    rcases Tree.node_insertNodes_of_le parent index nodes hc with hmem | hfile
    · exact hn _ hmem
    · rw [hfile, hf]
  have hsame : ∀ c, test ((t.insertNodes parent index nodes).node c) = test (t.node c) := by
    intro c
    rcases Nat.lt_or_ge c t.cells.size with hlt | hge
    · rw [Tree.node_insertNodes_of_lt hlt]
    · rw [hnew c hge, Tree.node_of_le hge, hf]
  have hfresh : (t.freshIds nodes.length).find? (fun c => test (t.node c)) = none := by
    refine List.find?_eq_none.2 fun c hc => ?_
    rw [Tree.node_of_le (Tree.le_of_mem_freshIds hc).1, hf]
    exact Bool.false_ne_true
  unfold Tree.findChild?
  rw [List.find?_congr fun c _ => hsame c]
  by_cases h : id = parent
  · subst h
    conv_rhs => rw [← List.take_append_drop index (t.children id)]
    rw [Tree.children_insertNodes hp hi, List.find?_append, List.find?_append, List.find?_append,
      hfresh, Option.or_none]
  · rw [Tree.children_insertNodes_of_ne h]

/-- Changing a node without changing whether it satisfies a test does not change which child of a
node satisfies it first. -/
theorem findChild?_modifyNode {test : Node → Bool} {f : Node → Node} {parent : Nat}
    (h : test (f (t.node id)) = test (t.node id)) :
    (t.modifyNode id f).findChild? parent test = t.findChild? parent test := by
  unfold Tree.findChild?
  rw [Tree.children_modifyNode]
  refine List.find?_congr fun c _ => ?_
  rw [Tree.node_modifyNode]
  split
  · next hc => rw [h, hc.1]
  · rfl

/-- Attaching leaves that are no namespaces does not change the namespace of the file. -/
theorem namespace?_insertNodes (hp : parent < t.cells.size)
    (hi : index ≤ (t.children parent).length) (hn : ∀ n ∈ nodes, n.category ≠ .namespaceDecl) :
    (t.insertNodes parent index nodes).namespace? = t.namespace? :=
  findChild?_insertNodes hp hi (fun n hmem => beq_eq_false_iff_ne.2 (hn n hmem)) rfl

/-- Attaching leaves that are no namespaces, and no declarations of a name, does not change the
declaration of that name. -/
theorem findClassLike?_insertNodes (hp : parent < t.cells.size)
    (hi : index ≤ (t.children parent).length) (hn : ∀ n ∈ nodes, n.category ≠ .namespaceDecl)
    (hd : ∀ n ∈ nodes, Tree.isClassLike name? n = false) :
    (t.insertNodes parent index nodes).findClassLike? name? = t.findClassLike? name? := by
  rw [Tree.findClassLike?, Tree.scope, namespace?_insertNodes hp hi hn]
  exact findChild?_insertNodes hp hi hd (by cases name? <;> rfl)

/-- A tree grows by leaves that are no namespaces, and no declarations of a name that it has. -/
theorem grows_insertNodes (hp : parent < t.cells.size)
    (hi : index ≤ (t.children parent).length) (hn : ∀ n ∈ nodes, n.category ≠ .namespaceDecl)
    (hd : t.findClassLike? name? = none ∨ ∀ n ∈ nodes, Tree.isClassLike name? n = false) :
    Grows name? t (t.insertNodes parent index nodes) := by
  have hns := namespace?_insertNodes hp hi hn
  refine ⟨by simp, fun id hid => .inl (Tree.node_insertNodes_of_lt hid), fun id => ?_,
    fun id c hc => ?_, hns, fun id hfound => ?_, fun id hid => ?_⟩
  · by_cases h : id = parent
    · subst h
      rw [Tree.children_insertNodes hp hi]
      conv_lhs => rw [← List.take_append_drop index (t.children id)]
      exact (List.sublist_append_left _ _).append (List.Sublist.refl _)
    · rw [Tree.children_insertNodes_of_ne h]
  · by_cases h : id = parent
    · subst h
      rw [Tree.children_insertNodes hp hi, List.mem_append, List.mem_append] at hc
      rcases hc with (hc | hc) | hc
      · exact .inl (List.mem_of_mem_take hc)
      · exact .inr (Tree.le_of_mem_freshIds hc).1
      · exact .inl (List.mem_of_mem_drop hc)
    · rw [Tree.children_insertNodes_of_ne h] at hc
      exact .inl hc
  · rcases hd with hnone | hd
    · rw [hnone] at hfound
      cases hfound
    · rw [findClassLike?_insertNodes hp hi hn hd]
      exact hfound
  · rcases Tree.node_insertNodes_of_le parent index nodes hid with hmem | hfile
    · exact hn _ hmem
    · rw [Tree.category, hfile]
      decide

/-- What is found by a name is a class or an interface of it. -/
theorem isClassLike_of_find (h : t.findClassLike? name? = some id) :
    Tree.isClassLike name? (t.node id) = true := by
  have := List.find?_some h
  exact this

/-- What is found by a name stands in the scope of the file. -/
theorem mem_of_find (h : t.findClassLike? name? = some id) : id ∈ t.children t.scope :=
  List.mem_of_find?_eq_some h

/-- Whatever has the name of a class or interface is one. -/
theorem isClassLike_category {n : Node} (h : Tree.isClassLike name? n = true) :
    n.category.isClassLike = true := by
  unfold Tree.isClassLike at h
  unfold Node.category
  split at h
  · next he => rw [he]; rfl
  · next he => rw [he]; rfl
  · next he => rw [he]; rfl
  · exact absurd h Bool.false_ne_true

/-- What is found by a name is stored. -/
theorem lt_of_find (h : t.findClassLike? name? = some id) : id < t.cells.size := by
  have hc := isClassLike_category (isClassLike_of_find h)
  refine Tree.lt_of_category_ne fun hf => ?_
  rw [Tree.category] at hf
  rw [hf] at hc
  exact Bool.false_ne_true hc

/-- The head of a node that grows does not change the namespace of the file. -/
theorem namespace?_head {kind : NodeKind} (hk : HeadGrows (t.node id).kind kind) :
    (t.modifyNode id fun n => { n with kind }).namespace? = t.namespace? :=
  have hg : NodeGrows (t.node id) { t.node id with kind } := ⟨kind, hk, rfl⟩
  findChild?_modifyNode (by rw [hg.category_eq])

/-- The head of a node that grows does not change what declarations there are. -/
theorem findClassLike?_head {kind : NodeKind} (hk : HeadGrows (t.node id).kind kind) :
    (t.modifyNode id fun n => { n with kind }).findClassLike? name? = t.findClassLike? name? := by
  have hg : NodeGrows (t.node id) { t.node id with kind } := ⟨kind, hk, rfl⟩
  rw [Tree.findClassLike?, Tree.scope, namespace?_head hk]
  exact findChild?_modifyNode (hg.isClassLike_eq name?)

/-- A tree grows by the head of the declaration of the name. -/
theorem grows_head {kind : NodeKind} (hfound : t.findClassLike? name? = some id)
    (hk : HeadGrows (t.node id).kind kind) :
    Grows name? t (t.modifyNode id fun n => { n with kind }) := by
  have hg : NodeGrows (t.node id) { t.node id with kind } := ⟨kind, hk, rfl⟩
  have hns := namespace?_head hk
  have hfind : (t.modifyNode id fun n => { n with kind }).findClassLike? name? =
      t.findClassLike? name? := findClassLike?_head hk
  refine ⟨by simp, fun other _ => ?_, fun other => by simp, fun other c hc => ?_, hns,
    fun other h => hfind.trans h, fun other hid => ?_⟩
  · rw [Tree.node_modifyNode]
    split
    · next h =>
      obtain ⟨rfl, -⟩ := h
      exact .inr ⟨hfind.trans hfound, hg⟩
    · exact .inl rfl
  · rw [Tree.children_modifyNode] at hc
    exact .inl hc
  · have hne : ¬(other = id ∧ id < t.cells.size) := by omega
    rw [Tree.category, Tree.node_modifyNode, if_neg hne, Tree.node_of_le hid]
    decide

end Changes

/-! ## Wrapping the statements of a file -/

namespace Tree

variable {t : Tree} {name : String} {id : Nat}

/-- The handle of the new namespace is the next one. -/
@[simp] theorem size_wrapped : (t.wrapped name).cells.size = t.cells.size + 1 := by
  simp [wrapped, takeChildren]

/-- Wrapping the statements of a file leaves its nodes alone. -/
theorem node_wrapped :
    (t.wrapped name).node id =
      if id = t.cells.size then { kind := .namespaceDecl name } else t.node id := by
  simp [wrapped, takeChildren, node_allocWith]

/-- The file keeps the directives ahead of its statements, and has the namespace behind them. -/
theorem children_wrapped_root :
    (t.wrapped name).children root =
      (t.children root).take (leadingDirectives t root) ++ [t.cells.size] := by
  have hne : root ≠ t.cells.size := Nat.ne_of_lt root_lt
  have hlt : root < t.cells.size + 1 := Nat.lt_succ_of_lt root_lt
  simp [wrapped, takeChildren, children_modifyChildren, children_allocWith, hne, hlt, root_lt]

/-- The namespace has all other statements. -/
theorem children_wrapped_new :
    (t.wrapped name).children t.cells.size =
      (t.children root).drop (leadingDirectives t root) := by
  have hne : t.cells.size ≠ root := Nat.ne_of_gt root_lt
  simp [wrapped, takeChildren, children_modifyChildren, children_allocWith, hne]

/-- The children of all other nodes stay where they are. -/
theorem children_wrapped_of_ne (hroot : id ≠ root) (hnew : id ≠ t.cells.size) :
    (t.wrapped name).children id = t.children id := by
  simp [wrapped, takeChildren, children_modifyChildren, children_allocWith, hroot, hnew]

/-- The leading directives are the longest run of directives at the front. -/
theorem take_leadingDirectives :
    (t.children id).take (leadingDirectives t id) =
      (t.children id).takeWhile fun c => t.category c == .directive :=
  (List.prefix_iff_eq_take.1 (List.takeWhile_prefix _)).symm

/-- There are no more leading directives than children. -/
theorem leadingDirectives_le : leadingDirectives t id ≤ (t.children id).length :=
  (List.takeWhile_prefix _).length_le

/-- What stands ahead of the statements of a file is a directive. -/
theorem category_of_mem_leading {c : Nat}
    (h : c ∈ (t.children id).take (leadingDirectives t id)) : t.category c = .directive := by
  rw [take_leadingDirectives] at h
  have hp := List.mem_takeWhile_imp h
  exact eq_of_beq hp

/-- A wrapped file has the new namespace. -/
theorem namespace?_wrapped : (t.wrapped name).namespace? = some t.cells.size := by
  unfold namespace? findChild?
  rw [children_wrapped_root, List.find?_append, List.find?_eq_none.2, Option.none_or]
  · rw [List.find?_cons_of_pos]
    rw [node_wrapped, if_pos rfl]
    rfl
  · intro c hc
    have hcat := category_of_mem_leading hc
    have hne : c ≠ t.cells.size := by
      rintro rfl
      rw [category, node_of_le (Nat.le_refl _)] at hcat
      cases hcat
    rw [node_wrapped, if_neg hne]
    change ¬(t.category c == .namespaceDecl) = true
    rw [hcat]
    decide

/-- The statements of a wrapped file stand in the new namespace. -/
theorem scope_wrapped : (t.wrapped name).scope = t.cells.size := by
  rw [scope, namespace?_wrapped, Option.getD_some]

/-- Wrapping the statements of a file without a namespace leaves its declarations what they were. -/
theorem findClassLike?_wrapped (h : t.namespace? = none) (name? : Option String) :
    (t.wrapped name).findClassLike? name? = t.findClassLike? name? := by
  have hsame : ∀ c : Nat, isClassLike name? ((t.wrapped name).node c) =
      isClassLike name? (t.node c) := by
    intro c
    rw [node_wrapped]
    split
    · next hc =>
      rw [node_of_le (Nat.le_of_eq hc.symm)]
      cases name? <;> rfl
    · rfl
  have hscope : t.scope = root := by rw [scope, h, Option.getD_none]
  have hnone : ((t.children root).take (leadingDirectives t root)).find?
      (fun c => isClassLike name? (t.node c)) = none := by
    refine List.find?_eq_none.2 fun c hc hlike => ?_
    have := isClassLike_category hlike
    change (t.category c).isClassLike = true at this
    rw [category_of_mem_leading hc] at this
    exact Bool.false_ne_true this
  unfold findClassLike? findChild?
  rw [scope_wrapped, children_wrapped_new, hscope, List.find?_congr fun c _ => hsame c]
  conv_rhs => rw [← List.take_append_drop (leadingDirectives t root) (t.children root)]
  rw [List.find?_append, hnone, Option.none_or]

end Tree

end PhpGraft

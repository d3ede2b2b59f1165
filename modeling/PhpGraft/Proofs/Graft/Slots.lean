import PhpGraft.Proofs.Graft.Stages

/-!
# What a file keeps by name

A file keeps imports, and the declaration of a name keeps a parent, interfaces, traits, constants,
properties and methods (`Slot`). Each of them stands under one node, either in its head or in its children, and
has its own notion of which names are the same. A pass adds to one slot at most; it leaves all others
as they are (`Slot.names_of_step`).
-/

namespace PhpGraft

open Edit

/-- What a file keeps by name. -/
inductive Slot where
  /-- The imports of the file. -/
  | imports
  /-- The parent of the class. -/
  | parent
  /-- The interfaces of the class, or the parents of the interface. -/
  | heritage
  /-- The traits of the class. -/
  | traits
  /-- The constants. -/
  | constants
  /-- The properties of the class. -/
  | properties
  /-- The methods. -/
  | methods
  deriving DecidableEq, Repr

namespace Slot

/-- The form of the nodes that hold the names of a slot; parents and interfaces stand in the head of
the declaration. -/
def category? : Slot → Option Category
  | imports => some .useDecl
  | parent | heritage => none
  | traits => some .traitUse
  | constants => some .constDecl
  | properties => some .propertyDecl
  | methods => some .methodDecl

/-- Whether two names are the same in a slot. -/
def same : Slot → String → String → Bool
  | imports | parent | heritage | traits => Name.same
  | constants | properties => (· == ·)
  | methods => Text.eqIgnoreCase

/-- What the spellings of one name in a slot have in common. -/
def keyOf : Slot → String → String
  | imports | parent | heritage | traits => Name.key
  | constants | properties => id
  | methods => Text.lowerAscii

/-- Names are the same when they have one key. -/
theorem same_eq (s : Slot) (a b : String) : s.same a b = (s.keyOf a == s.keyOf b) := by
  cases s <;> rfl

/-- The names of a slot in the head of a declaration. -/
def inHead : Slot → NodeKind → List String
  | parent, k => k.extends?.toList
  | heritage, k => k.heritage
  | _, _ => []

/-- The names of a slot in a child of that node. -/
def inChild : Slot → Node → List String
  | traits, n => traitNames n
  | s, n => if s.category? = some n.category then n.name?.toList else []

/-- The names of a slot under a node. -/
def namesAt (s : Slot) (t : Tree) (id : Nat) : List String :=
  s.inHead (t.node id).kind ++ (t.children id).flatMap fun c => s.inChild (t.node c)

/-- The node under which a slot stands: the scope of the file for imports, or else the declaration of
the name. -/
def owner? (name? : Option String) (t : Tree) : Slot → Option Nat
  | imports => some t.scope
  | _ => t.findClassLike? name?

/-- The names of a slot in a file; without the declaration there are none. -/
def names (name? : Option String) (t : Tree) (s : Slot) : List String :=
  match s.owner? name? t with
  | some id => s.namesAt t id
  | none => []

/-- How often a slot of a file has a name. -/
def count (name? : Option String) (t : Tree) (s : Slot) (name : String) : Nat :=
  (s.names name? t).countP (s.same · name)

variable {s : Slot} {name? : Option String} {t : Tree} {id parent index : Nat}
  {nodes : List Node}

/-- But for traits, a node of the form of a slot holds one name of it. -/
theorem inChild_eq {n : Node} (hs : s ≠ traits) :
    s.inChild n = if s.category? = some n.category then n.name?.toList else [] := by
  cases s with
  | traits => exact absurd rfl hs
  | _ => rfl

/-- Nodes of other forms hold no names of a slot. -/
theorem inChild_eq_nil {n : Node} (h : s.category? ≠ some n.category) : s.inChild n = [] := by
  cases s with
  | traits =>
    show traitNames n = []
    unfold traitNames
    split
    · next hk => exact absurd (by rw [Node.category, hk]; rfl) h
    · rfl
  | _ => rw [inChild_eq (by simp), if_neg h]

/-- Classes and interfaces hold no names of a slot. -/
theorem inChild_of_isClassLike {n : Node} (h : n.category.isClassLike = true) :
    s.inChild n = [] := by
  refine inChild_eq_nil fun he => ?_
  cases hc : n.category <;> cases s <;> simp_all [category?, Category.isClassLike]

/-- Only classes and interfaces have names in their heads. -/
theorem inHead_eq_nil {k : NodeKind} (h : k.heritage = [] ∧ k.extends? = none) :
    s.inHead k = [] := by
  cases s with
  | parent => rw [inHead, h.2, Option.toList_none]
  | heritage => exact h.1
  | _ => rfl

/-! ## The slots of a node after a change -/

/-- Leaves that are attached to a node add their names to its slots. -/
theorem namesAt_insertNodes (hc : t.Closed) (hp : parent < t.cells.size)
    (hi : index ≤ (t.children parent).length) (hid : id < t.cells.size) :
    (s.namesAt (t.insertNodes parent index nodes) id).Perm
      (s.namesAt t id ++ if id = parent then nodes.flatMap s.inChild else []) := by
  have hold : ∀ l : List Nat, (∀ c ∈ l, c ∈ t.children id) →
      (l.flatMap fun c => s.inChild ((t.insertNodes parent index nodes).node c)) =
        l.flatMap fun c => s.inChild (t.node c) := fun l hl =>
    List.flatMap_congr fun c hmem => by rw [Tree.node_insertNodes_of_lt (hc id c (hl c hmem)).2]
  unfold namesAt
  rw [Tree.node_insertNodes_of_lt hid, List.append_assoc]
  refine List.Perm.append_left _ ?_
  by_cases h : id = parent
  · subst h
    rw [if_pos rfl, Tree.children_insertNodes hp hi, List.flatMap_append, List.flatMap_append,
      hold _ fun _ => List.mem_of_mem_take, hold _ fun _ => List.mem_of_mem_drop]
    have hnew : ((t.freshIds nodes.length).flatMap fun c =>
        s.inChild ((t.insertNodes id index nodes).node c)) = nodes.flatMap s.inChild := by
      conv_rhs => rw [← @Tree.map_node_freshIds t id index nodes]
      rw [List.flatMap_map]
    rw [hnew]
    conv_rhs => rw [← List.take_append_drop index (t.children id), List.flatMap_append]
    rw [List.append_assoc, List.append_assoc]
    exact List.Perm.append_left _ List.perm_append_comm
  · rw [if_neg h, Tree.children_insertNodes_of_ne h, List.append_nil, hold _ fun _ hmem => hmem]

/-- A handle that was not given out has nothing under it. -/
theorem namesAt_insertNodes_of_le (hp : parent < t.cells.size) (hid : t.cells.size ≤ id)
    (hn : ∀ n ∈ nodes, n.kind.heritage = [] ∧ n.kind.extends? = none) :
    s.namesAt (t.insertNodes parent index nodes) id = [] := by
  have hhead : s.inHead ((t.insertNodes parent index nodes).node id).kind = [] := by
    rcases Tree.node_insertNodes_of_le parent index nodes hid with hmem | hfile
    · exact inHead_eq_nil (hn _ hmem)
    · rw [hfile]
      exact inHead_eq_nil ⟨rfl, rfl⟩
  have hne : id ≠ parent := Nat.ne_of_gt (Nat.lt_of_lt_of_le hp hid)
  rw [namesAt, hhead, Tree.children_insertNodes_of_ne hne, Tree.children_of_le hid]
  rfl

/-- Parents and interfaces stand in the head of a declaration. -/
theorem namesAt_of_category? (hs : s.category? = none) :
    s.namesAt t id = s.inHead (t.node id).kind := by
  have hchild : ∀ n, s.inChild n = [] := fun n => inChild_eq_nil (by simp [hs])
  simp [namesAt, hchild]

/-- The head of a declaration holds nothing else. -/
theorem namesAt_head {kind : NodeKind} {other : Nat} (hs : s.category? ≠ none)
    (hk : HeadGrows (t.node id).kind kind) :
    s.namesAt (t.modifyNode id fun n => { n with kind }) other = s.namesAt t other := by
  have hg : NodeGrows (t.node id) { t.node id with kind } := ⟨kind, hk, rfl⟩
  have hhead : ∀ k, s.inHead k = [] := fun k => by
    cases s with
    | parent | heritage => exact absurd rfl hs
    | _ => rfl
  have hchild : ∀ c, s.inChild ((t.modifyNode id fun n => { n with kind }).node c) =
      s.inChild (t.node c) := by
    intro c
    rw [Tree.node_modifyNode]
    split
    · next h =>
      rw [h.1, inChild_of_isClassLike hg.isClassLike,
        inChild_of_isClassLike (by rw [hg.category_eq]; exact hg.isClassLike)]
    · rfl
  unfold namesAt
  rw [hhead, hhead, Tree.children_modifyNode]
  exact congrArg _ (List.flatMap_congr fun c _ => hchild c)

/-- Wrapping the statements of a file leaves the slots of its declarations alone. -/
theorem namesAt_wrapped {name : String} (hc : t.Closed) (hroot : id ≠ Tree.root)
    (hid : id < t.cells.size) : s.namesAt (t.wrapped name) id = s.namesAt t id := by
  have hne := Nat.ne_of_lt hid
  unfold namesAt
  rw [Tree.node_wrapped, if_neg hne, Tree.children_wrapped_of_ne hroot hne]
  refine congrArg _ (List.flatMap_congr fun c hmem => ?_)
  rw [Tree.node_wrapped, if_neg (Nat.ne_of_lt (hc id c hmem).2)]

/-- Wrapping the statements of a file moves all its imports. -/
theorem namesAt_imports_wrapped {name : String} (hc : t.Closed) :
    imports.namesAt (t.wrapped name) t.cells.size = imports.namesAt t Tree.root := by
  have hfront : ((t.children Tree.root).take (leadingDirectives t Tree.root)).flatMap
      (fun c => imports.inChild (t.node c)) = [] := by
    refine List.flatMap_eq_nil_iff.2 fun c hmem => inChild_eq_nil fun he => ?_
    have hcat := Tree.category_of_mem_leading hmem
    rw [Tree.category] at hcat
    rw [hcat] at he
    cases he
  have hnode : ∀ c ∈ (t.children Tree.root).drop (leadingDirectives t Tree.root),
      imports.inChild ((t.wrapped name).node c) = imports.inChild (t.node c) := by
    intro c hmem
    have hlt := (hc _ c (List.mem_of_mem_drop hmem)).2
    rw [Tree.node_wrapped, if_neg (Nat.ne_of_lt hlt)]
  unfold namesAt
  rw [Tree.children_wrapped_new, List.flatMap_congr hnode]
  conv_rhs => rw [← List.take_append_drop (leadingDirectives t Tree.root)
    (t.children Tree.root), List.flatMap_append, hfront]
  rfl

/-! ## The slots of a file after a step -/

section Step

variable {makes? : Option Category} {c : Change}

/-- A declaration is neither the root nor the scope of its file. -/
theorem ne_root_of_find (hc : t.Closed) (h : t.findClassLike? name? = some id) :
    id ≠ Tree.root := by
  rintro rfl
  exact Nat.lt_irrefl 0 (hc _ _ (mem_of_find h)).1

/-- Steps leave a closed tree. -/
theorem closed_of_step (hc : t.Closed) (h : PassStep name? t makes? c) : (c.apply t).Closed := by
  intro p child hmem
  have hsize : t.cells.size ≤ (c.apply t).cells.size := by
    cases h <;> simp [Change.apply]
  have hold : ∀ q, child ∈ t.children q → 0 < child ∧ child < (c.apply t).cells.size :=
    fun q hq => ⟨(hc q child hq).1, Nat.lt_of_lt_of_le (hc q child hq).2 hsize⟩
  cases h with
  | @insert parent index nodes stored place =>
    simp only [Change.apply] at hmem ⊢
    by_cases hp : p = parent
    · subst hp
      rw [Tree.children_insertNodes stored place, List.mem_append, List.mem_append] at hmem
      rcases hmem with (hmem | hmem) | hmem
      · exact hold p (List.mem_of_mem_take hmem)
      · have hfresh := Tree.le_of_mem_freshIds hmem
        rw [Tree.size_insertNodes]
        have := t.rooted
        exact ⟨by omega, hfresh.2⟩
      · exact hold p (List.mem_of_mem_drop hmem)
    · rw [Tree.children_insertNodes_of_ne hp] at hmem
      exact hold p hmem
  | head =>
    rw [Change.apply, Tree.children_modifyNode] at hmem
    exact hold p hmem
  | wrap name =>
    simp only [Change.apply] at hmem ⊢
    by_cases hroot : p = Tree.root
    · subst hroot
      rw [Tree.children_wrapped_root] at hmem
      rcases List.mem_append.1 hmem with hmem | hmem
      · exact hold _ (List.mem_of_mem_take hmem)
      · rw [List.mem_singleton.1 hmem, Tree.size_wrapped]
        exact ⟨t.rooted, Nat.lt_succ_self _⟩
    · by_cases hnew : p = t.cells.size
      · subst hnew
        rw [Tree.children_wrapped_new] at hmem
        exact hold _ (List.mem_of_mem_drop hmem)
      · rw [Tree.children_wrapped_of_ne hroot hnew] at hmem
        exact hold p hmem

/-- The names of a slot are looked for where the nodes that hold them belong. -/
theorem home?_of_category? {cat : Category} (h : s.category? = some cat) :
    t.home? name? cat = s.owner? name? t := by
  cases s <;> cases h <;> rfl

/-- A node under which a slot stands is stored. -/
theorem lt_of_owner? (h : s.owner? name? t = some id) : id < t.cells.size := by
  cases s with
  | imports =>
    obtain rfl := Option.some.inj h
    exact Tree.scope_lt
  | _ => exact lt_of_find h

/-- What is found only after leaves were attached is one of them. -/
theorem le_of_find_insertNodes (hp : parent < t.cells.size)
    (hi : index ≤ (t.children parent).length) (hn : ∀ n ∈ nodes, n.category ≠ .namespaceDecl)
    (hnone : t.findClassLike? name? = none)
    (h : (t.insertNodes parent index nodes).findClassLike? name? = some id) :
    t.cells.size ≤ id := by
  refine Nat.le_of_not_lt fun hlt => ?_
  have hmem := mem_of_find h
  have hlike := isClassLike_of_find h
  rw [Tree.node_insertNodes_of_lt hlt] at hlike
  have hgrows : Grows name? t (t.insertNodes parent index nodes) :=
    grows_insertNodes hp hi hn (.inl hnone)
  rw [hgrows.scope_eq] at hmem
  have hold := (hgrows.edges _ _ hmem).resolve_right (Nat.not_le.2 hlt)
  exact List.find?_eq_none.1 hnone id hold hlike

/-- Attaching leaves adds their names to the slots of a file. -/
theorem names_insertNodes (hc : t.Closed)
    (h : PassStep name? t makes? (.insert parent index nodes)) :
    (s.names name? (t.insertNodes parent index nodes)).Perm
      (s.names name? t ++ nodes.flatMap s.inChild) := by
  obtain ⟨stored, place, form, inside, home, fresh, bare⟩ := h
  have hns : ∀ n ∈ nodes, n.category ≠ .namespaceDecl := fun n hn he =>
    inside (by rw [form n hn, he])
  by_cases hlike : makes?.any Category.isClassLike = true
  · -- A declaration is attached. It is the first of its name, and its slots are empty.
    have hadd : nodes.flatMap s.inChild = [] :=
      List.flatMap_eq_nil_iff.2 fun n hn => inChild_of_isClassLike (by
        rw [form n hn] at hlike
        exact hlike)
    have hnone := fresh hlike
    rw [hadd, List.append_nil]
    cases hs : s.owner? name? (t.insertNodes parent index nodes) with
    | none =>
      have hs' : s.owner? name? t = none := by
        cases s with
        | imports => cases hs
        | _ => exact hnone
      rw [names, names, hs, hs']
    | some id =>
      rcases Nat.lt_or_ge id t.cells.size with hlt | hge
      · have hs' : s.owner? name? t = some id := by
          cases s with
          | imports =>
            rw [← hs, owner?, owner?, Tree.scope, Tree.scope, namespace?_insertNodes stored place hns]
          | _ => exact absurd hlt (Nat.not_lt.2 (le_of_find_insertNodes stored place hns hnone hs))
        have := @namesAt_insertNodes s t id parent index nodes hc stored place hlt
        rw [hadd, ite_self, List.append_nil] at this
        rwa [names, names, hs, hs']
      · have hs' : s.owner? name? t = none := by
          cases s with
          | imports =>
            rw [owner?, Tree.scope, namespace?_insertNodes stored place hns] at hs
            exact absurd hge (Nat.not_le.2 (Option.some.inj hs ▸ Tree.scope_lt))
          | _ => exact hnone
        rw [names, names, hs, hs']
        dsimp only
        rw [namesAt_insertNodes_of_le stored hge bare]
  · -- No declaration is attached, so that every slot stands where it stood.
    have hnot : ∀ n ∈ nodes, Tree.isClassLike name? n = false := fun n hn =>
      Bool.eq_false_iff.2 fun hname => hlike (by
        rw [form n hn]
        exact isClassLike_category hname)
    have hown : s.owner? name? (t.insertNodes parent index nodes) = s.owner? name? t := by
      cases s with
      | imports =>
        rw [owner?, owner?, Tree.scope, Tree.scope, namespace?_insertNodes stored place hns]
      | _ => exact findClassLike?_insertNodes stored place hns hnot
    by_cases hadd : nodes.flatMap s.inChild = []
    · rw [hadd, List.append_nil, names, names, hown]
      cases hs : s.owner? name? t with
      | none => exact List.Perm.refl _
      | some id =>
        have := @namesAt_insertNodes s t id parent index nodes hc stored place (lt_of_owner? hs)
        rwa [hadd, ite_self, List.append_nil] at this
    · -- Leaves that hold names of the slot are attached to the node under which it stands.
      have hs : s.owner? name? t = some parent := by
        obtain ⟨n, hn, hne⟩ : ∃ n ∈ nodes, s.inChild n ≠ [] := by
          simpa [List.flatMap_eq_nil_iff] using hadd
        have hcat : s.category? = some n.category := not_not.1 fun hc => hne (inChild_eq_nil hc)
        rw [← home?_of_category? hcat]
        exact home _ (form n hn)
      have := @namesAt_insertNodes s t parent parent index nodes hc stored place stored
      rw [if_pos rfl] at this
      rwa [names, names, hown, hs]

/-- A step leaves the slots of other forms alone. -/
theorem names_of_step (hc : t.Closed) (h : PassStep name? t makes? c) (hs : makes? ≠ s.category?) :
    (s.names name? (c.apply t)).Perm (s.names name? t) := by
  cases hstep : h with
  | @insert parent index nodes _ _ form =>
    have hadd : nodes.flatMap s.inChild = [] :=
      List.flatMap_eq_nil_iff.2 fun n hn => inChild_eq_nil fun he => hs (by rw [form n hn, he])
    have := @names_insertNodes s name? t parent index nodes makes? hc h
    rwa [hadd, List.append_nil] at this
  | @head id kind found grows form =>
    have hne : s.category? ≠ none := fun he => hs (form.trans he.symm)
    have hown : s.owner? name? (t.modifyNode id fun n => { n with kind }) = s.owner? name? t := by
      cases s with
      | imports => rw [owner?, owner?, Tree.scope, Tree.scope, namespace?_head grows]
      | _ => exact findClassLike?_head grows
    rw [Change.apply, names, names, hown]
    cases s.owner? name? t with
    | none => exact List.Perm.refl _
    | some other =>
      dsimp only
      rw [namesAt_head hne grows]
  | wrap name bare form =>
    have hfind := @Tree.findClassLike?_wrapped t name bare name?
    cases s with
    | imports =>
      have hscope : t.scope = Tree.root := by rw [Tree.scope, bare, Option.getD_none]
      show (imports.namesAt (t.wrapped name) (t.wrapped name).scope).Perm
        (imports.namesAt t t.scope)
      rw [Tree.scope_wrapped, hscope, namesAt_imports_wrapped hc]
    | _ =>
      unfold names owner?
      rw [Change.apply, hfind]
      cases hid : t.findClassLike? name? with
      | none => exact List.Perm.refl _
      | some id =>
        dsimp only
        rw [namesAt_wrapped hc (ne_root_of_find hc hid) (lt_of_find hid)]

end Step

end Slot

end PhpGraft

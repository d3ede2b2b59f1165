import Mathlib.Data.List.Basic
import PhpGraft.Graft.Edit

/-!
# What operations on a tree do to its cells

Storing a node gives it the next handle and leaves the cells that are there alone. Changing what is
stored under a handle leaves every other cell alone. From these two facts follows what attaching new
leaves does (`children_insertNodes`, `node_insertNodes_of_lt`): the old nodes stay as they are, only
the parent gets more children, and the new handles are exactly those behind the old store.
-/

namespace PhpGraft.Tree

variable {t : Tree} {id parent index : Nat} {nodes : List Node}

/-- Nothing is stored behind the store: a handle that was not given out names an empty file. -/
theorem cell_of_le (h : t.cells.size ≤ id) : t.cell id = ⟨fileNode, []⟩ := by
  unfold cell
  rw [Array.getD_eq_getD_getElem?, Array.getElem?_eq_none h, Option.getD_none]

/-- A handle that was not given out names the node of an empty file. -/
theorem node_of_le (h : t.cells.size ≤ id) : t.node id = fileNode := by
  rw [node, cell_of_le h]

/-- A handle that was not given out has no children. -/
theorem children_of_le (h : t.cells.size ≤ id) : t.children id = [] := by
  rw [children, cell_of_le h]

/-- A node of another form than a file is stored. -/
theorem lt_of_category_ne (h : t.category id ≠ .file) : id < t.cells.size := by
  by_contra hlt
  rw [category, node_of_le (Nat.le_of_not_lt hlt)] at h
  exact h rfl

/-- A node with children is stored. -/
theorem lt_of_mem_children {c : Nat} (h : c ∈ t.children id) : id < t.cells.size := by
  by_contra hlt
  rw [children_of_le (Nat.le_of_not_lt hlt)] at h
  exact List.not_mem_nil h

/-- The root is stored. -/
theorem root_lt : root < t.cells.size := t.rooted

/-- What is found as a namespace is one. -/
theorem category_of_namespace? (h : t.namespace? = some id) : t.category id = .namespaceDecl := by
  have := List.find?_some h
  exact eq_of_beq this

/-- The statements of a file stand below a node that is stored. -/
theorem scope_lt : t.scope < t.cells.size := by
  unfold scope
  cases h : t.namespace? with
  | none => exact root_lt
  | some id =>
    have := category_of_namespace? h
    exact lt_of_category_ne (by simp [this])

/-! ## Changing what is stored -/

/-- Only what becomes of the stored cell matters for a change. -/
theorem modify_congr {f g : Cell → Cell} (h : f (t.cell id) = g (t.cell id)) :
    t.modify id f = t.modify id g := by
  unfold modify
  congr 1
  apply Array.ext (by simp)
  intro i hi hi'
  rw [Array.getElem_modify, Array.getElem_modify]
  split
  · next hid =>
    subst hid
    have hid : id < t.cells.size := by simpa using hi
    have hcell : t.cell id = t.cells[id] := by
      rw [cell, Array.getD_eq_getD_getElem?, Array.getElem?_eq_getElem, Option.getD_some]
    rwa [hcell] at h
  · rfl

@[simp] theorem size_modify (f : Cell → Cell) : (t.modify id f).cells.size = t.cells.size := by
  simp [modify]

/-- What is changed is stored, and every other cell stays as it is. -/
theorem cell_modify (f : Cell → Cell) (other : Nat) :
    (t.modify id f).cell other =
      if other = id ∧ id < t.cells.size then f (t.cell id) else t.cell other := by
  unfold cell modify
  rw [Array.getD_eq_getD_getElem?, Array.getElem?_modify]
  by_cases h : id = other
  · subst h
    by_cases hlt : id < t.cells.size
    · simp [hlt]
    · simp [hlt]
  · rw [if_neg h, if_neg fun hc => h hc.1.symm, Array.getD_eq_getD_getElem?]

@[simp] theorem size_modifyNode (f : Node → Node) :
    (t.modifyNode id f).cells.size = t.cells.size := size_modify _

/-- Changing a node leaves all other nodes alone. -/
theorem node_modifyNode (f : Node → Node) (other : Nat) :
    (t.modifyNode id f).node other =
      if other = id ∧ id < t.cells.size then f (t.node id) else t.node other := by
  unfold modifyNode node
  rw [cell_modify]
  split <;> rfl

/-- Changing a node leaves all children where they are. -/
@[simp] theorem children_modifyNode (f : Node → Node) (other : Nat) :
    (t.modifyNode id f).children other = t.children other := by
  unfold modifyNode children
  rw [cell_modify]
  split
  · next h => rw [h.1]
  · rfl

@[simp] theorem size_modifyChildren (f : List NodeId → List NodeId) :
    (t.modifyChildren id f).cells.size = t.cells.size := size_modify _

/-- Changing the children of a node leaves all nodes alone. -/
@[simp] theorem node_modifyChildren (f : List NodeId → List NodeId) (other : Nat) :
    (t.modifyChildren id f).node other = t.node other := by
  unfold modifyChildren node
  rw [cell_modify]
  split
  · next h => rw [h.1]
  · rfl

/-- Changing the children of a node leaves those of all others alone. -/
theorem children_modifyChildren (f : List NodeId → List NodeId) (other : Nat) :
    (t.modifyChildren id f).children other =
      if other = id ∧ id < t.cells.size then f (t.children id) else t.children other := by
  unfold modifyChildren children
  rw [cell_modify]
  split <;> rfl

/-! ## Storing a node -/

/-- A new node has the next handle. -/
@[simp] theorem fst_allocWith (n : Node) (cs : List NodeId) :
    (t.allocWith n cs).1 = t.cells.size := rfl

@[simp] theorem size_allocWith (n : Node) (cs : List NodeId) :
    (t.allocWith n cs).2.cells.size = t.cells.size + 1 := by
  simp [allocWith]

/-- A new node is stored, and every other cell stays as it is. -/
theorem cell_allocWith (n : Node) (cs : List NodeId) (other : Nat) :
    (t.allocWith n cs).2.cell other = if other = t.cells.size then ⟨n, cs⟩ else t.cell other := by
  unfold allocWith cell
  rw [Array.getD_eq_getD_getElem?, Array.getElem?_push]
  split
  · rfl
  · rw [Array.getD_eq_getD_getElem?]

/-- Storing a node leaves the nodes that are there alone. -/
theorem node_allocWith (n : Node) (cs : List NodeId) (other : Nat) :
    (t.allocWith n cs).2.node other = if other = t.cells.size then n else t.node other := by
  unfold node
  rw [cell_allocWith]
  split <;> rfl

/-- Storing a node leaves the children that are there where they are. -/
theorem children_allocWith (n : Node) (cs : List NodeId) (other : Nat) :
    (t.allocWith n cs).2.children other =
      if other = t.cells.size then cs else t.children other := by
  unfold children
  rw [cell_allocWith]
  split <;> rfl

/-! ## Attaching new leaves -/

/-- Behind all children is ahead of the child whose number is theirs. -/
theorem pushChild_eq_insertChild (child : Nat) (h : index = (t.children parent).length) :
    t.pushChild parent child = t.insertChild parent index child := by
  subst h
  apply modify_congr
  simp [children]

/-- The next handles of a tree, the last one first: the order in which new leaves are attached. -/
def freshIds (t : Tree) : Nat → List Nat
  | 0 => []
  | count + 1 => (t.cells.size + count) :: t.freshIds count

/-- The next handles are behind the store. -/
theorem le_of_mem_freshIds {count : Nat} (h : id ∈ t.freshIds count) :
    t.cells.size ≤ id ∧ id < t.cells.size + count := by
  induction count with
  | zero => exact absurd h List.not_mem_nil
  | succ count ih =>
    rcases List.mem_cons.1 h with rfl | h
    · omega
    · have := ih h
      omega

/-- Every handle behind the store, up to a number of them, is a next one. -/
theorem mem_freshIds_of_le {count : Nat} (hle : t.cells.size ≤ id)
    (hlt : id < t.cells.size + count) : id ∈ t.freshIds count := by
  induction count with
  | zero => omega
  | succ count ih =>
    rcases Nat.lt_or_ge id (t.cells.size + count) with h | h
    · exact List.mem_cons_of_mem _ (ih h)
    · have : id = t.cells.size + count := by omega
      exact this ▸ List.mem_cons_self

/-- Storing and attaching one leaf ahead of new ones. -/
theorem insertNodes_cons (n : Node) (nodes : List Node) :
    t.insertNodes parent index (n :: nodes) =
      ((t.insertNodes parent index nodes).alloc n).2.insertChild parent index
        (t.insertNodes parent index nodes).cells.size := rfl

@[simp] theorem size_insertNodes :
    (t.insertNodes parent index nodes).cells.size = t.cells.size + nodes.length := by
  induction nodes with
  | nil => rfl
  | cons n nodes ih =>
    rw [insertNodes_cons, insertChild, insertChildren, size_modifyChildren, alloc, size_allocWith,
      ih, List.length_cons, Nat.add_assoc]

/-- The nodes after a leaf is attached ahead of new ones. -/
theorem node_insertNodes_cons (n : Node) (nodes : List Node) (other : Nat) :
    (t.insertNodes parent index (n :: nodes)).node other =
      if other = t.cells.size + nodes.length then n
      else (t.insertNodes parent index nodes).node other := by
  rw [insertNodes_cons, insertChild, insertChildren, node_modifyChildren, alloc, node_allocWith,
    size_insertNodes]

/-- Attaching leaves leaves the nodes that are there alone. -/
theorem node_insertNodes_of_lt (h : id < t.cells.size) :
    (t.insertNodes parent index nodes).node id = t.node id := by
  induction nodes with
  | nil => rfl
  | cons n nodes ih => rw [node_insertNodes_cons, if_neg (by omega), ih]

/-- The new handles name the new leaves, in their order. -/
theorem map_node_freshIds :
    (t.freshIds nodes.length).map (t.insertNodes parent index nodes).node = nodes := by
  induction nodes with
  | nil => rfl
  | cons n nodes ih =>
    rw [List.length_cons, freshIds, List.map_cons, node_insertNodes_cons, if_pos rfl]
    congr 1
    conv_rhs => rw [← ih]
    refine List.map_congr_left fun id hid => ?_
    have := le_of_mem_freshIds hid
    rw [node_insertNodes_cons, if_neg (by omega)]

/-- A handle names an old node, a new leaf, or nothing. -/
theorem node_insertNodes_of_le (parent index : Nat) (nodes : List Node) (h : t.cells.size ≤ id) :
    (t.insertNodes parent index nodes).node id ∈ nodes ∨
      (t.insertNodes parent index nodes).node id = fileNode := by
  rcases Nat.lt_or_ge id (t.cells.size + nodes.length) with hlt | hge
  · left
    have hmem := List.mem_map_of_mem (f := (t.insertNodes parent index nodes).node)
      (mem_freshIds_of_le h hlt)
    rwa [map_node_freshIds] at hmem
  · right
    exact node_of_le (by simpa using hge)

/-- Attaching leaves to one node leaves the children of all others where they are; the leaves have no
children. -/
theorem children_insertNodes_of_ne (h : id ≠ parent) :
    (t.insertNodes parent index nodes).children id = t.children id := by
  induction nodes with
  | nil => rfl
  | cons n nodes ih =>
    rw [insertNodes_cons, insertChild, insertChildren, children_modifyChildren,
      if_neg fun hc => h hc.1, alloc, children_allocWith, ih, size_insertNodes]
    split
    · next hid => rw [children_of_le (by omega)]
    · rfl

/-- New leaves stand at their place among the children of the parent, in their order. -/
theorem children_insertNodes (hp : parent < t.cells.size)
    (hi : index ≤ (t.children parent).length) :
    (t.insertNodes parent index nodes).children parent =
      (t.children parent).take index ++ t.freshIds nodes.length ++
        (t.children parent).drop index := by
  induction nodes with
  | nil => simp [insertNodes, freshIds]
  | cons n nodes ih =>
    have hlt : parent < ((t.insertNodes parent index nodes).alloc n).2.cells.size := by
      rw [alloc, size_allocWith, size_insertNodes]
      omega
    have hlen : ((t.children parent).take index).length = index := List.length_take_of_le hi
    rw [insertNodes_cons, insertChild, insertChildren, children_modifyChildren,
      if_pos ⟨rfl, hlt⟩, alloc, children_allocWith, if_neg (by rw [size_insertNodes]; omega), ih,
      List.append_assoc ((t.children parent).take index), List.take_left' hlen,
      List.drop_left' hlen, size_insertNodes]
    simp [freshIds]

/-! ## Closed trees -/

/-- Cells whose handles are those of stored nodes, and the first of which is nobody's child. -/
def ClosedCells (cells : Array Cell) : Prop :=
  ∀ id c : Nat, c ∈ (cells.getD id ⟨fileNode, []⟩).children → 0 < c ∧ c < cells.size

/-- A tree whose handles are those of stored nodes, and whose root is nobody's child. -/
def Closed (t : Tree) : Prop := ∀ id c : Nat, c ∈ t.children id → 0 < c ∧ c < t.cells.size

/-- Storing a leaf leaves cells closed. -/
theorem closedCells_push {cells : Array Cell} (h : ClosedCells cells) (n : Node) :
    ClosedCells (cells.push ⟨n, []⟩) := by
  intro id c hc
  rw [Array.getD_eq_getD_getElem?, Array.getElem?_push] at hc
  split at hc
  · cases hc
  · rw [← Array.getD_eq_getD_getElem?] at hc
    rw [Array.size_push]
    exact ⟨(h id c hc).1, Nat.lt_succ_of_lt (h id c hc).2⟩

/-- Giving a cell children that are stored leaves cells closed. -/
theorem closedCells_modify {cells : Array Cell} (h : ClosedCells cells) (parent : Nat)
    {ids : List NodeId} (hids : ∀ c : Nat, c ∈ ids → 0 < c ∧ c < cells.size) :
    ClosedCells (cells.modify parent fun cell => { cell with children := ids }) := by
  intro id c hc
  rw [Array.getD_eq_getD_getElem?, Array.getElem?_modify] at hc
  rw [Array.size_modify]
  split at hc
  · cases hcell : cells[id]? with
    | none =>
      rw [hcell] at hc
      cases hc
    | some cell =>
      rw [hcell] at hc
      exact hids c hc
  · rw [← Array.getD_eq_getD_getElem?] at hc
    exact h id c hc

mutual

/-- Storing an outline leaves cells closed. -/
theorem closedCells_store {cells : Array Cell} (h : ClosedCells cells) (o : Outline) :
    ClosedCells (o.store cells) := by
  cases o with
  | mk node children =>
    have hall := closedCells_storeAll (closedCells_push h node) children
    refine closedCells_modify hall.1 _ fun c hc => ?_
    obtain ⟨hle, hlt⟩ := hall.2 c hc
    rw [Array.size_push] at hle
    exact ⟨Nat.lt_of_lt_of_le (Nat.succ_pos _) hle, hlt⟩

/-- Storing outlines leaves cells closed, and gives handles of new cells. -/
theorem closedCells_storeAll {cells : Array Cell} (h : ClosedCells cells) (os : List Outline) :
    ClosedCells (Outline.storeAll cells os).2 ∧
      ∀ c : Nat, c ∈ (Outline.storeAll cells os).1 →
        cells.size ≤ c ∧ c < (Outline.storeAll cells os).2.size := by
  cases os with
  | nil => exact ⟨h, fun c hc => absurd hc List.not_mem_nil⟩
  | cons o os =>
    have hall := closedCells_storeAll (closedCells_store h o) os
    have hlt := o.size_lt_size_store cells
    have hle := Outline.size_le_size_storeAll (o.store cells) os
    refine ⟨hall.1, fun c hc => ?_⟩
    rcases List.mem_cons.1 hc with rfl | hc
    · exact ⟨Nat.le_refl _, Nat.lt_of_lt_of_le hlt hle⟩
    · exact ⟨Nat.le_trans (Nat.le_of_lt hlt) (hall.2 c hc).1, (hall.2 c hc).2⟩

end

/-- The tree of an outline is closed. -/
theorem closed_ofOutline (o : Outline) : (ofOutline o).Closed :=
  closedCells_store (fun _ _ hc => absurd hc List.not_mem_nil) o

end PhpGraft.Tree

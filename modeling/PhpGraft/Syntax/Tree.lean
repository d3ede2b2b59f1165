import PhpGraft.Syntax.Node

/-!
# Trees with identity

A tree stores nodes under handles, so that a node can be found first and changed later. The handle
of the root is zero. A node that is taken off the tree stays in the store without being reached from
the root. The outline of a tree is what is reached from the root, and it is all that is written.
-/

namespace PhpGraft

/-- The handle of a node in a tree. -/
abbrev NodeId := Nat

/-- A stored node and the handles of its children. -/
structure Cell where
  /-- The node. -/
  node : Node
  /-- The handles of the children, in order. -/
  children : List NodeId
  deriving Inhabited

/-- A store of nodes. -/
structure Tree where
  /-- The nodes by handle; the first one is the root. -/
  cells : Array Cell
  /-- There is a root. -/
  rooted : 0 < cells.size

namespace Tree

/-- The node of an empty file. -/
def fileNode : Node := { kind := .file }

/-- A tree of an empty file. -/
def empty : Tree := ⟨#[⟨fileNode, []⟩], Nat.zero_lt_one⟩

instance : Inhabited Tree := ⟨empty⟩

/-- The handle of the root. -/
def root : NodeId := 0

/-- What is stored under a handle; under a handle that was not given out, an empty file. -/
def cell (t : Tree) (id : NodeId) : Cell := t.cells.getD id ⟨fileNode, []⟩

/-- The node under a handle. -/
def node (t : Tree) (id : NodeId) : Node := (t.cell id).node

/-- The handles of the children of a node. -/
def children (t : Tree) (id : NodeId) : List NodeId := (t.cell id).children

/-- The form of a node. -/
def category (t : Tree) (id : NodeId) : Category := (t.node id).category

/-- Stores a node with the given children and gives its handle. -/
def allocWith (t : Tree) (node : Node) (children : List NodeId) : NodeId × Tree :=
  (t.cells.size, ⟨t.cells.push ⟨node, children⟩, by simp⟩)

/-- Stores a node, attached to no other, and gives its handle. -/
def alloc (t : Tree) (node : Node) : NodeId × Tree := t.allocWith node []

/-- Changes what is stored under a handle. -/
def modify (t : Tree) (id : NodeId) (f : Cell → Cell) : Tree :=
  ⟨t.cells.modify id f, by simpa using t.rooted⟩

/-- Changes a node. -/
def modifyNode (t : Tree) (id : NodeId) (f : Node → Node) : Tree :=
  t.modify id fun c => { c with node := f c.node }

/-- Changes the children of a node. -/
def modifyChildren (t : Tree) (id : NodeId) (f : List NodeId → List NodeId) : Tree :=
  t.modify id fun c => { c with children := f c.children }

/-- Attaches a node behind the children of another one. -/
def pushChild (t : Tree) (parent child : NodeId) : Tree := t.modifyChildren parent (· ++ [child])

/-- Attaches nodes ahead of the child with the given number, or behind all children. -/
def insertChildren (t : Tree) (parent index : Nat) (new : List NodeId) : Tree :=
  t.modifyChildren parent fun cs => cs.take index ++ new ++ cs.drop index

/-- Attaches a node ahead of the child with the given number, or behind all children. -/
def insertChild (t : Tree) (parent index child : Nat) : Tree :=
  t.insertChildren parent index [child]

/-- Takes all children off a node. -/
def takeChildren (t : Tree) (parent : NodeId) : List NodeId × Tree :=
  (t.children parent, t.modifyChildren parent fun _ => [])

/-- The number of a child among its siblings. -/
def position? (t : Tree) (parent child : NodeId) : Option Nat :=
  (t.children parent).findIdx? (· == child)

/-- The first child of a node that satisfies a test. -/
def findChild? (t : Tree) (parent : NodeId) (p : Node → Bool) : Option NodeId :=
  (t.children parent).find? fun id => p (t.node id)

/-- The children of a node that have the given form. -/
def childrenOf (t : Tree) (parent : NodeId) (c : Category) : List NodeId :=
  (t.children parent).filter fun id => t.category id == c

/-- Whether the file has no statements. -/
def isEmpty (t : Tree) : Bool := (t.children root).isEmpty

/-- The first namespace among the statements of the file. -/
def namespace? (t : Tree) : Option NodeId := t.findChild? root (·.category == .namespaceDecl)

/-- The node whose children are the statements of the file: the namespace, if there is one, or else
the root. -/
def scope (t : Tree) : NodeId := t.namespace?.getD root

/-- Whether a node is the class or interface of a name, or an anonymous class if no name is given.
Names compare without regard to the case of ASCII letters. -/
def isClassLike (name? : Option String) (n : Node) : Bool :=
  match n.kind, name? with
  | .classDecl d, none => d.name?.isNone
  | .classDecl d, some name => d.name?.any (Text.eqIgnoreCase · name)
  | .interfaceDecl d, some name => Text.eqIgnoreCase d.name name
  | _, _ => false

/-- The class or interface of a name in the scope of the file, or its first anonymous class if no
name is given. -/
def findClassLike? (t : Tree) (name? : Option String) : Option NodeId :=
  t.findChild? t.scope (isClassLike name?)

/-- What is reached from a node within `fuel` steps. -/
def unfold (t : Tree) : Nat → NodeId → Outline
  | 0, id => .leaf (t.node id)
  | fuel + 1, id => .mk (t.node id) ((t.children id).map (t.unfold fuel))

/-- The tree as a value: everything that is reached from the root. No path in a tree without cycles
is longer than the number of its nodes. -/
def outline (t : Tree) : Outline := t.unfold t.cells.size root

end Tree

mutual

/-- Stores an outline behind the cells of a tree: each node ahead of what is below it. -/
def Outline.store (cells : Array Cell) : Outline → Array Cell
  | .mk node children =>
    let id := cells.size
    let (ids, cells) := Outline.storeAll (cells.push ⟨node, []⟩) children
    cells.modify id fun c => { c with children := ids }

/-- Stores outlines one after another and gives their handles. -/
def Outline.storeAll (cells : Array Cell) : List Outline → List NodeId × Array Cell
  | [] => ([], cells)
  | o :: os =>
    let id := cells.size
    let (ids, cells) := Outline.storeAll (o.store cells) os
    (id :: ids, cells)

end

mutual

/-- Storing an outline adds cells. -/
theorem Outline.size_lt_size_store (cells : Array Cell) (o : Outline) :
    cells.size < (o.store cells).size := by
  cases o with
  | mk node children =>
    have h := Outline.size_le_size_storeAll (cells.push ⟨node, []⟩) children
    rw [Array.size_push] at h
    simp only [Outline.store, Array.size_modify]
    omega

/-- Storing outlines keeps the cells that are there. -/
theorem Outline.size_le_size_storeAll (cells : Array Cell) (os : List Outline) :
    cells.size ≤ (Outline.storeAll cells os).2.size := by
  cases os with
  | nil => simp [Outline.storeAll]
  | cons o os =>
    have h := Outline.size_lt_size_store cells o
    have hs := Outline.size_le_size_storeAll (o.store cells) os
    simp only [Outline.storeAll]
    omega

end

/-- The tree of an outline. Handles are given out in the order in which nodes are written. -/
def Tree.ofOutline (o : Outline) : Tree := ⟨o.store #[], o.size_lt_size_store #[]⟩

end PhpGraft

import PhpGraft.Proofs.Graft.Increment
import PhpGraft.Proofs.Graft.Marker
import PhpGraft.Proofs.Graft.Progress
import PhpGraft.Proofs.Stored

/-!
# Empty files with a directive and a namespace

What goes ahead of a declaration in an empty file is the directive for strict types and the namespace
(`Pipeline.exists_opens`). The directive is the only statement then, or it stands ahead of the namespace; in the
scope of the file there are leaves at most, and the file with further statements there is told by these
(`Tree.Opens`).
-/

namespace PhpGraft

open Edit

/-! ## Leaves below a node -/

/-- The children of a node are leaves, of the given nodes. -/
structure Tree.Lists (t : Tree) (parent : Nat) (nodes : List Node) : Prop where
  /-- The nodes are those of the children. -/
  nodes : (t.children parent).map t.node = nodes
  /-- The children are leaves. -/
  leaves : ∀ c ∈ t.children parent, t.children c = []

namespace Tree.Lists

variable {t : Tree} {parent : Nat} {ns new : List Node}

/-- A node of the list is the one of a child. -/
theorem exists_child (h : t.Lists parent ns) {P : Node → Prop} (hns : ∀ n ∈ ns, P n) :
    ∀ c ∈ t.children parent, P (t.node c) := by
  rw [← h.nodes] at hns
  exact List.forall_mem_map.1 hns

/-- A node with a leaf below it is no leaf. -/
theorem ne_parent (h : t.Lists parent ns) : ∀ c ∈ t.children parent, c ≠ parent := by
  rintro c hmem rfl
  rw [h.leaves c hmem] at hmem
  cases hmem

/-- Leaves that are attached at the end are at the end of the list. -/
theorem insertNodes (h : t.Lists parent ns) (hc : t.Closed) (hp : parent < t.cells.size) :
    (t.insertNodes parent (t.children parent).length new).Lists parent (ns ++ new) := by
  have hchildren : (t.insertNodes parent (t.children parent).length new).children parent =
      t.children parent ++ t.freshIds new.length := by
    rw [Tree.children_insertNodes hp (Nat.le_refl _), List.take_length, List.drop_length, List.append_nil]
  refine ⟨?_, ?_⟩ <;> rw [hchildren]
  · rw [List.map_append, Tree.map_node_freshIds, ← h.nodes]
    refine congrArg (· ++ new) (List.map_congr_left fun c hmem => ?_)
    exact Tree.node_insertNodes_of_lt (hc parent c hmem).2
  · refine List.forall_mem_append.2 ⟨fun c hmem => ?_, fun c hmem => ?_⟩
    · rw [Tree.children_insertNodes_of_ne (h.ne_parent c hmem), h.leaves c hmem]
    · have hle := (Tree.le_of_mem_freshIds hmem).1
      rw [Tree.children_insertNodes_of_ne (Nat.ne_of_gt (Nat.lt_of_lt_of_le hp hle)), Tree.children_of_le hle]

/-- Where the children are the same, they are held as leaves. -/
theorem holds (h : t.Lists parent ns) {u : Tree}
    (hsame : ∀ c ∈ t.children parent, u.node c = t.node c ∧ u.children c = t.children c) :
    List.Forall₂ u.Holds (t.children parent) (ns.map .leaf) := by
  obtain ⟨rfl, hleaves⟩ := h
  rw [List.map_map, List.forall₂_map_right_iff, List.forall₂_same]
  intro c hmem
  obtain ⟨hnode, hchildren⟩ := hsame c hmem
  have hleaf : u.Holds c (.mk (u.node c) []) := .mk (by rw [hchildren, hleaves c hmem]; exact .nil)
  rwa [hnode] at hleaf

/-- Directives stand ahead of nothing else. -/
theorem leadingDirectives_eq (h : t.Lists parent ns) (hns : ∀ n ∈ ns, n.category = .directive) :
    leadingDirectives t parent = (t.children parent).length := by
  rw [leadingDirectives, List.takeWhile_eq_self_iff.2]
  exact fun c hmem => beq_iff_eq.2 (h.exists_child hns c hmem)

end Tree.Lists

/-! ## Heights -/

/-- Outlines reach as far down as the highest of them. -/
theorem Outline.heightAll_le_iff {os : List Outline} {steps : Nat} :
    Outline.heightAll os ≤ steps ↔ ∀ o ∈ os, o.height < steps := by
  induction os with
  | nil => simp [Outline.heightAll]
  | cons o os ih => rw [Outline.heightAll, Nat.max_le, ih, List.forall_mem_cons, Nat.succ_le_iff]

/-- Leaves are as low as can be. -/
theorem Outline.height_leaf {ns : List Node} : ∀ o ∈ ns.map Outline.leaf, o.height = 0 := by
  intro o ho
  obtain ⟨n, -, rfl⟩ := List.mem_map.1 ho
  rfl

/-! ## Files without declarations -/

/-- A file with directives and, below its scope, further statements. -/
def Outline.fileAround (directives : List Node) (scope? : Option String) (os : List Outline) : Outline :=
  .file (directives.map .leaf ++
    scope?.elim os fun name => [.mk { kind := .namespaceDecl (Name.bare name) } os])

/-- The directives that stand in the scope of a file: all of them, if the scope is the file. -/
def directivesInside (directives : List Node) (scope? : Option String) : List Node :=
  scope?.elim directives fun _ => []

/-- A tree of a file with directives and perhaps a namespace, and with nothing else. -/
structure Tree.Opens (t : Tree) (directives : List Node) (scope? : Option String) : Prop where
  /-- The handles are those of stored nodes. -/
  closed : t.Closed
  /-- In the scope there are directives at most. -/
  lists : t.Lists t.scope (directivesInside directives scope?)
  /-- With further statements in the scope, the file is the one with these statements. -/
  around : ∀ u : Tree, t.cells.size < u.cells.size →
    (∀ c < t.cells.size, u.node c = t.node c ∧ (c ≠ t.scope → u.children c = t.children c)) →
    ∀ os : List Outline, (∀ o ∈ os, o.height ≤ 1) →
      List.Forall₂ u.Holds (u.children t.scope) ((directivesInside directives scope?).map .leaf ++ os) →
        u.outline = .fileAround directives scope? os

namespace Tree

variable {t : Tree} {ns : List Node}

/-- A file of leaves that are no namespaces has none. -/
theorem Lists.namespace?_eq_none (h : t.Lists root ns) (hns : ∀ n ∈ ns, n.category = .directive) :
    t.namespace? = none := by
  refine List.find?_eq_none.2 fun c hmem => ?_
  simp [h.exists_child hns c hmem]

/-- A tree of a file with directives only. -/
theorem Lists.opens (h : t.Lists root ns) (hc : t.Closed) (hroot : t.node root = fileNode)
    (hns : ∀ n ∈ ns, n.category = .directive) : t.Opens ns none := by
  have hscope : t.scope = root := by rw [scope, h.namespace?_eq_none hns, Option.getD_none]
  refine ⟨hc, by rw [hscope]; exact h, fun u hsize hsame os hos hheld => ?_⟩
  rw [hscope] at hheld
  have hfile : u.Holds root (.mk (u.node root) _) := .mk hheld
  rw [(hsame root root_lt).1, hroot] at hfile
  refine hfile.unfold_eq ?_
  rw [Outline.height, Outline.heightAll_le_iff, List.forall_mem_append]
  have hrooted := t.rooted
  refine ⟨fun o ho => ?_, fun o ho => ?_⟩
  · rw [Outline.height_leaf o ho]
    omega
  · have := hos o ho
    omega

/-- A tree of a file with directives and a namespace behind them. -/
theorem Lists.opens_wrapped (h : t.Lists root ns) (hc : t.Closed) (hroot : t.node root = fileNode)
    (hns : ∀ n ∈ ns, n.category = .directive) (name : String) :
    (t.wrapped (Name.bare name)).Opens ns (some name) := by
  have hleading := h.leadingDirectives_eq hns
  have hinside : (t.wrapped (Name.bare name)).children t.cells.size = [] := by
    rw [children_wrapped_new, hleading, List.drop_length]
  refine ⟨closed_wrapped hc (h.namespace?_eq_none hns) _, ?_, fun u hsize hsame os hos hheld => ?_⟩
  · rw [scope_wrapped]
    exact ⟨by rw [hinside]; rfl, by rw [hinside]; exact List.forall_mem_nil _⟩
  rw [scope_wrapped] at hsame hheld
  rw [size_wrapped] at hsize hsame
  have hrooted := t.rooted
  -- the directives and the namespace stand in the file
  have hchildren : u.children root = t.children root ++ [t.cells.size] := by
    rw [(hsame root (Nat.lt_succ_of_lt root_lt)).2 (Nat.ne_of_lt root_lt), children_wrapped_root, hleading,
      List.take_length]
  have hleaves := h.holds (u := u) fun c hmem => by
    obtain ⟨hpos, hlt⟩ := hc root c hmem
    obtain ⟨hnode, hchildren⟩ := hsame c (Nat.lt_succ_of_lt hlt)
    rw [node_wrapped, if_neg (Nat.ne_of_lt hlt)] at hnode
    refine ⟨hnode, (hchildren (Nat.ne_of_lt hlt)).trans ?_⟩
    exact children_wrapped_of_ne (Nat.ne_of_gt hpos) (Nat.ne_of_lt hlt)
  have hscope : u.Holds t.cells.size (.mk (u.node t.cells.size) os) := .mk hheld
  rw [(hsame t.cells.size (Nat.lt_succ_self _)).1, node_wrapped, if_pos rfl] at hscope
  have hfile : u.Holds root (.mk (u.node root) _) :=
    .mk (by rw [hchildren]; exact List.rel_append hleaves (.cons hscope .nil))
  rw [(hsame root (Nat.lt_succ_of_lt root_lt)).1, node_wrapped, if_neg (Nat.ne_of_lt root_lt), hroot] at hfile
  refine hfile.unfold_eq ?_
  rw [Outline.height, Outline.heightAll_le_iff, List.forall_mem_append, List.forall_mem_singleton, Outline.height]
  refine ⟨fun o ho => ?_, Nat.lt_of_le_of_lt (Outline.heightAll_le_iff.2 fun o ho => ?_) hsize⟩
  · rw [Outline.height_leaf o ho]
    omega
  · have := hos o ho
    omega

/-- An empty file is closed and has no statements. -/
theorem lists_empty : empty.Closed ∧ empty.Lists root [] ∧ empty.node root = fileNode :=
  ⟨closed_ofOutline (.file []), ⟨rfl, List.forall_mem_nil _⟩, rfl⟩

end Tree

/-- The directives of a file with strict types. -/
def strictDirectives (strict : Bool) : List Node := if strict then [strictDirective] else []

/-- Strict types are all that the directives are about. -/
theorem category_strictDirectives {strict : Bool} : ∀ n ∈ strictDirectives strict, n.category = .directive := by
  unfold strictDirectives
  split
  · exact List.forall_mem_singleton.2 rfl
  · exact List.forall_mem_nil _

/-- An empty file is given the directive and the namespace that are asked for. -/
theorem Pipeline.exists_opens (strict : Bool) (scope? : Option String) : ∃ t,
    Leads ((if strict then [.strictTypes] else []) ++ (scope?.map Pass.namespaceDecl).toList) .empty t ∧
      t.Opens (strictDirectives strict) scope? := by
  obtain ⟨hclosed, hlists, hroot⟩ := Tree.lists_empty
  have hnone : ¬Tree.empty.HasChild Tree.root isStrictDirective := by rintro ⟨c, hmem, -⟩; cases hmem
  -- the directive is the only statement
  obtain ⟨t, ht, hclosed, hlists, hroot⟩ : ∃ t, Leads (if strict then [.strictTypes] else []) .empty t ∧
      t.Closed ∧ t.Lists Tree.root (strictDirectives strict) ∧ t.node Tree.root = Tree.fileNode := by
    cases strict with
    | false => exact ⟨_, leads_nil.2 rfl, hclosed, hlists, hroot⟩
    | true =>
      refine ⟨_, leads_strict.2 rfl, ?_⟩
      rw [if_pos ⟨rfl, hnone⟩]
      refine ⟨?_, hlists.insertNodes hclosed Tree.root_lt, ?_⟩
      · exact Tree.closed_ofOutline (.file [.leaf strictDirective])
      · exact (Tree.node_insertNodes_of_lt Tree.root_lt).trans hroot
  have hopens := hlists.opens hclosed hroot category_strictDirectives
  cases scope? with
  | none => exact ⟨t, by rwa [Option.map_none, Option.toList_none, List.append_nil], hopens⟩
  | some name =>
    have hnamespace := hlists.namespace?_eq_none category_strictDirectives
    refine ⟨_, leads_append.2 ⟨t, ht, leads_namespace.2 (.inr ⟨hnamespace, name, rfl, rfl⟩)⟩, ?_⟩
    exact hlists.opens_wrapped hclosed hroot category_strictDirectives name

end PhpGraft

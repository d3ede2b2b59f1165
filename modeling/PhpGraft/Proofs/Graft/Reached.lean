import PhpGraft.Proofs.Graft.Growth
import PhpGraft.Proofs.Stored
import PhpGraft.Proofs.Syntax.Insertion

/-!
# What is reached from the root

In the tree of an outline, a class or interface that is found by its name stands at one place. With
another head there, what is reached from the root is the outline with that head (`Tree.exists_headAt`).
What is reached from the root of a tree is kept in a tree that has the same nodes, with all their children
in their order, and perhaps with the last statements in a new namespace (`Tree.Inside.kept`,
`Tree.Inside.kept_wrapped`).
-/

namespace PhpGraft

open Outline

/-! ## The place of a head -/

namespace Outline

/-- Other items may stand in front. -/
theorem HeadAt.append {head : NodeKind} {items : NodeKind → List Outline} (h : HeadAt head items)
    (os : List Outline) : HeadAt head fun kind => os ++ items kind := by
  induction os with
  | nil => exact h
  | cons o os ih => exact ih.behind o

/-- Another head does not change how far down the items reach. -/
theorem HeadAt.heightAll_eq {head : NodeKind} {items : NodeKind → List Outline} (h : HeadAt head items)
    (kind kind' : NodeKind) : heightAll (items kind) = heightAll (items kind') := by
  induction h with
  | here _ cs rest => rfl
  | behind o _ ih => rw [heightAll, heightAll, ih]
  | inside _ _ rest ih => rw [heightAll, heightAll, height, height, ih]

end Outline

namespace Tree

variable {t u : Tree} {cells : Array Cell} {os : List Outline} {x y : Nat}

/-- The tree with another kind of node under a handle. -/
def withKind (t : Tree) (id : NodeId) (kind : NodeKind) : Tree := t.modifyNode id fun n => { n with kind }

/-- The cells under all other handles stay. -/
theorem getElem?_withKind (kind : NodeKind) {i : Nat} (h : i ≠ x) :
    (t.withKind x kind).cells[i]? = t.cells[i]? := by
  unfold withKind modifyNode modify
  rw [Array.getElem?_modify, if_neg h.symm]

/-- The kind that a node has changes nothing. -/
theorem withKind_self (t : Tree) (id : NodeId) : t.withKind id (t.node id).kind = t := by
  have hcell : (t.modify id fun c => c) = t := by
    unfold modify
    congr 1
    apply Array.ext (by simp)
    intro i hi hi'
    rw [Array.getElem_modify]
    split <;> rfl
  exact (modify_congr (g := fun c => c) rfl).trans hcell

/-- An outline is held where it was stored, with another kind at its top where that is changed. -/
theorem holds_withKind {o : Outline} (h : t.Continues cells.size (o.store cells)) (kind : NodeKind) :
    (t.withKind cells.size kind).Holds cells.size (.mk { o.node with kind } o.children) := by
  cases o with
  | mk node children =>
    obtain ⟨hcell, hbehind⟩ := h.cell
    have hlt : cells.size < t.cells.size := by
      have hsize := (Outline.mk node children).size_lt_size_store cells
      by_contra hle
      have hget := h cells.size (Nat.le_refl _) hsize
      rw [Array.getElem?_eq_none (Nat.le_of_not_lt hle), Array.getElem?_eq_getElem hsize] at hget
      cases hget
    have hnode : (t.withKind cells.size kind).node cells.size = { node with kind } := by
      rw [withKind, node_modifyNode, if_pos ⟨rfl, hlt⟩, Tree.node, hcell]
    have hbelow : List.Forall₂ (t.withKind cells.size kind).Holds
        ((t.withKind cells.size kind).children cells.size) children := by
      rw [withKind, children_modifyNode, Tree.children, hcell]
      refine holds_of_storeAll children fun i hi hlt => ?_
      rw [Array.size_push] at hi
      rw [← withKind, getElem?_withKind kind (by omega)]
      exact hbehind i (by rwa [Array.size_push]) hlt
    have hheld := Holds.mk hbelow
    rwa [hnode] at hheld

/-- A class or interface that is stored with others has its head there. -/
theorem exists_headAt_of_mem (h : t.Continues cells.size (storeAll cells os).2)
    (hx : x ∈ (storeAll cells os).1) :
    ∃ items, HeadAt (t.node x).kind items ∧ items (t.node x).kind = os ∧
      cells.size ≤ x ∧ x < (storeAll cells os).2.size ∧
      ∀ kind, List.Forall₂ (t.withKind x kind).Holds (storeAll cells os).1 (items kind) := by
  obtain ⟨ids₁, ids₂, os₁, os₂, o, ahead, hids, rfl, hle, rfl, hsize, hheld, hothers⟩ := exists_cut h hx
  have hlt := o.size_lt_size_store ahead
  have hnode : t.node ahead.size = o.node := (holds_of_store o hheld).node_eq
  obtain ⟨node, children⟩ := o
  refine ⟨fun kind => os₁ ++ .mk { node with kind } children :: os₂, ?_, ?_, hle, by omega, fun kind => ?_⟩
  · rw [hnode]
    exact (HeadAt.here rfl children os₂).append os₁
  · rw [hnode]
    rfl
  · have hagree (i : Nat) (hi : i < ahead.size ∨ ((Outline.mk node children).store ahead).size ≤ i) :
        (t.withKind ahead.size kind).cells[i]? = t.cells[i]? := getElem?_withKind kind (by omega)
    obtain ⟨h₁, h₂⟩ := hothers _ hagree
    rw [hids]
    exact List.rel_append h₁ (.cons (holds_withKind hheld kind) h₂)

/-- A class or interface that is stored below one of some outlines has its head there. -/
theorem exists_headAt_below (h : t.Continues cells.size (storeAll cells os).2)
    (hy : y ∈ (storeAll cells os).1) (hx : x ∈ t.children y) (hnests : (t.node y).kind.nesting ≠ .none) :
    ∃ items, HeadAt (t.node x).kind items ∧ items (t.node x).kind = os ∧
      cells.size ≤ x ∧ x < (storeAll cells os).2.size ∧
      ∀ kind, List.Forall₂ (t.withKind x kind).Holds (storeAll cells os).1 (items kind) := by
  obtain ⟨ids₁, ids₂, os₁, os₂, o, ahead, hids, rfl, hle, rfl, hsize, hheld, hothers⟩ := exists_cut h hy
  obtain ⟨node, children⟩ := o
  obtain ⟨hcell, hbehind⟩ := hheld.cell
  rw [Tree.children, hcell] at hx
  rw [Tree.node, hcell] at hnests
  obtain ⟨items, hitems, hself, hxle, hxlt, hbelow⟩ := exists_headAt_of_mem hbehind hx
  rw [Array.size_push] at hxle
  have hstored : ((Outline.mk node children).store ahead).size =
      (storeAll (ahead.push ⟨node, []⟩) children).2.size := by
    simp only [Outline.store, Array.size_modify]
  refine ⟨fun kind => os₁ ++ .mk node (items kind) :: os₂, (hitems.inside hnests os₂).append os₁, ?_,
    by omega, by omega, fun kind => ?_⟩
  · dsimp only
    rw [hself]
  · have hagree (i : Nat) (hi : i < ahead.size ∨ ((Outline.mk node children).store ahead).size ≤ i) :
        (t.withKind x kind).cells[i]? = t.cells[i]? := getElem?_withKind kind (by omega)
    obtain ⟨h₁, h₂⟩ := hothers _ hagree
    have hmiddle : (t.withKind x kind).Holds ahead.size (.mk node (items kind)) := by
      have hnode : (t.withKind x kind).node ahead.size = node := by
        rw [withKind, node_modifyNode, if_neg (by omega), Tree.node, hcell]
      have hchildren : (t.withKind x kind).children ahead.size =
          (storeAll (ahead.push ⟨node, []⟩) children).1 := by
        rw [withKind, children_modifyNode, Tree.children, hcell]
      have hheld := Holds.mk (hchildren ▸ hbelow kind)
      rwa [hnode] at hheld
    rw [hids]
    exact List.rel_append h₁ (.cons hmiddle h₂)

/-- A declaration has its head among the statements of its file, or below a namespace among them. -/
theorem exists_headAt_of_find {node : Node} {name? : Option String}
    (hcell : t.cell root = ⟨node, (storeAll cells os).1⟩)
    (hstored : t.Continues cells.size (storeAll cells os).2) (h : t.findClassLike? name? = some x) :
    ∃ items, HeadAt (t.node x).kind items ∧ items (t.node x).kind = os ∧
      cells.size ≤ x ∧ x < (storeAll cells os).2.size ∧
      ∀ kind, List.Forall₂ (t.withKind x kind).Holds (storeAll cells os).1 (items kind) := by
  have hroot : t.children root = (storeAll cells os).1 := congrArg Cell.children hcell
  have hx := mem_of_find h
  unfold scope at hx
  cases hns : t.namespace? with
  | none =>
    rw [hns, Option.getD_none, hroot] at hx
    exact exists_headAt_of_mem hstored hx
  | some y =>
    rw [hns, Option.getD_some] at hx
    have hy : y ∈ (storeAll cells os).1 := hroot ▸ List.mem_of_find?_eq_some hns
    exact exists_headAt_below hstored hy hx (NodeKind.nesting_ne_none (category_of_namespace? hns))

/-- The head of a declaration in the tree of an outline: what is reached from the root with another head
there is the outline with that head. -/
theorem exists_headAt {file : Outline} {name? : Option String}
    (h : (ofOutline file).findClassLike? name? = some x) :
    ∃ items, HeadAt ((ofOutline file).node x).kind items ∧ items ((ofOutline file).node x).kind =
      file.children ∧ ∀ kind, ((ofOutline file).withKind x kind).outline = .mk file.node (items kind) := by
  obtain ⟨node, os⟩ := file
  have hheight := (Outline.mk node os).height_lt_size_store #[]
  rw [height] at hheight
  have hwhole : (ofOutline (.mk node os)).Continues (#[] : Array Cell).size
    ((Outline.mk node os).store #[]) := fun _ _ _ => rfl
  obtain ⟨hcell, hstored⟩ := Continues.cell hwhole
  obtain ⟨items, hitems, hself, hle, -, hheld⟩ := exists_headAt_of_find hcell hstored h
  refine ⟨items, hitems, hself, fun kind => ?_⟩
  have hfile : ((ofOutline (.mk node os)).withKind x kind).Holds root (.mk node (items kind)) := by
    have hnode : ((ofOutline (.mk node os)).withKind x kind).node root = node := by
      rw [withKind, node_modifyNode, if_neg]
      · exact congrArg Cell.node hcell
      · rintro ⟨rfl, -⟩
        exact absurd hle (by simp [root])
    have hchildren : ((ofOutline (.mk node os)).withKind x kind).children root =
        (storeAll (#[].push ⟨node, []⟩) os).1 := by
      rw [withKind, children_modifyNode]
      exact congrArg Cell.children hcell
    have hbelow := Holds.mk (hchildren ▸ hheld kind)
    rwa [hnode] at hbelow
  refine hfile.unfold_eq ?_
  rw [withKind, size_modifyNode, height, hitems.heightAll_eq _ ((ofOutline (.mk node os)).node x).kind,
    hself]
  change heightAll os ≤ ((Outline.mk node os).store #[]).size
  omega

end Tree

/-! ## What is kept -/

namespace Outline

variable {α : Type} {f g : α → Outline} {l l' : List α}

/-- Two outlines of one node, of which the second has more below the node. -/
def KeptBelow (o o' : Outline) : Prop := o.node = o'.node ∧ Kept o.children o'.children

/-- An item with more below it is kept ahead of items that are kept. -/
theorem KeptBelow.cons {o o' : Outline} {os os' : List Outline} (h : KeptBelow o o') (hs : Kept os os') :
    Kept (o :: os) (o' :: os') := by
  obtain ⟨node, children⟩ := o
  obtain ⟨node', children'⟩ := o'
  obtain ⟨rfl, hbelow⟩ := h
  exact .keep node hbelow hs

/-- Items are kept where each of them is and others stand between them. -/
theorem Kept.of_sublist (h : l.Sublist l') (hstep : ∀ x ∈ l, KeptBelow (f x) (g x)) :
    Kept (l.map f) (l'.map g) := by
  induction h with
  | slnil => exact .nil
  | cons x _ ih => exact .skip _ (ih hstep)
  | cons_cons x _ ih =>
    obtain ⟨hx, hrest⟩ := List.forall_mem_cons.1 hstep
    exact hx.cons (ih hrest)

/-- Items are kept where some of them are and the others stand in a namespace behind those. -/
theorem Kept.of_wrapped {l₁ l₂ : List α} {w : α} {name : String} (h : (l₁ ++ [w]).Sublist l')
    (hstep : ∀ x ∈ l₁, KeptBelow (f x) (g x)) (hkind : (g w).node.kind = .namespaceDecl name)
    (hnamed : name ≠ "") (hinner : Kept (l₂.map f) (g w).children) :
    Kept ((l₁ ++ l₂).map f) (l'.map g) := by
  generalize hl : l₁ ++ [w] = l at h
  induction h generalizing l₁ with
  | slnil => exact absurd hl (by simp)
  | cons x _ ih => exact .skip _ (ih hstep hl)
  | @cons_cons l l' x hsub ih =>
    cases l₁ with
    | nil =>
      obtain ⟨rfl, -⟩ := List.cons.inj hl
      rw [List.nil_append, List.map_cons]
      generalize g w = o at hkind hinner
      obtain ⟨node, children⟩ := o
      exact .wrap hkind hnamed hinner _
    | cons y l₁ =>
      obtain ⟨rfl, hbehind⟩ := List.cons.inj hl
      obtain ⟨hy, hrest⟩ := List.forall_mem_cons.1 hstep
      exact hy.cons (ih hrest hbehind)

end Outline

namespace Tree

variable {b u : Tree} {ids ids' : List Nat} {id : Nat}

/-- Whether the nodes of a tree below the root are nodes of another one, where they have all their
children in their order. -/
structure Inside (b u : Tree) : Prop where
  /-- Children are stored, and the root is none of them. -/
  closed : b.Closed
  /-- Nodes are the same. -/
  node : ∀ id, 0 < id → id < b.cells.size → u.node id = b.node id
  /-- Children stay in their order. -/
  children : ∀ id, 0 < id → id < b.cells.size → (b.children id).Sublist (u.children id)

/-- What is reached from a node of a tree is kept in the other one. -/
theorem Inside.keptBelow (h : b.Inside u) {fuel fuel' : Nat} (hfuel : fuel ≤ fuel') (hpos : 0 < id)
    (hlt : id < b.cells.size) : KeptBelow (b.unfold fuel id) (u.unfold fuel' id) := by
  have hnode := (h.node id hpos hlt).symm
  induction fuel generalizing fuel' id with
  | zero =>
    refine ⟨?_, ?_⟩
    · cases fuel' <;> exact hnode
    · generalize (u.unfold fuel' id).children = os'
      induction os' with
      | nil => exact .nil
      | cons o' os' ih => exact .skip o' ih
  | succ fuel ih =>
    cases fuel' with
    | zero => omega
    | succ fuel' =>
      refine ⟨hnode, Kept.of_sublist (h.children id hpos hlt) fun c hc => ?_⟩
      obtain ⟨hcpos, hclt⟩ := h.closed id c hc
      exact ih (by omega) hcpos hclt (h.node c hcpos hclt).symm

/-- What is reached from the root is kept in a tree where it has all its statements. -/
theorem Inside.kept (h : b.Inside u) (hsize : b.cells.size ≤ u.cells.size)
    (hroot : (b.children root).Sublist (u.children root)) : Kept b.outline.children u.outline.children := by
  obtain ⟨fuel, hb⟩ := Nat.exists_eq_succ_of_ne_zero (Nat.ne_of_gt b.rooted)
  obtain ⟨fuel', hu⟩ := Nat.exists_eq_succ_of_ne_zero (Nat.ne_of_gt u.rooted)
  rw [outline, outline, hb, hu]
  refine Kept.of_sublist hroot fun c hc => ?_
  obtain ⟨hpos, hlt⟩ := h.closed root c hc
  exact h.keptBelow (by omega) hpos hlt

/-- What is reached from the root is kept in a tree where the last of its statements stand in a namespace
that has a name. -/
theorem Inside.kept_wrapped (h : b.Inside u) (hsize : b.cells.size < u.cells.size) {w : Nat} {name : String}
    (hids : b.children root = ids ++ ids') (hroot : (ids ++ [w]).Sublist (u.children root))
    (hinner : ids'.Sublist (u.children w)) (hkind : (u.node w).kind = .namespaceDecl name)
    (hnamed : name ≠ "") : Kept b.outline.children u.outline.children := by
  obtain ⟨fuel, hb⟩ := Nat.exists_eq_succ_of_ne_zero (Nat.ne_of_gt b.rooted)
  obtain ⟨fuel', hu⟩ := Nat.exists_eq_succ_of_ne_zero (Nat.ne_of_gt u.rooted)
  have hstep (c : Nat) (hc : c ∈ ids ++ ids') (k k' : Nat) (hk : k ≤ k') :
      KeptBelow (b.unfold k c) (u.unfold k' c) := by
    obtain ⟨hpos, hlt⟩ := h.closed root c (hids ▸ hc)
    exact h.keptBelow hk hpos hlt
  -- the namespace is one level deeper than the statements were
  obtain ⟨below, rfl⟩ : ∃ below, fuel' = below + 1 := Nat.exists_eq_succ_of_ne_zero (by omega)
  rw [outline, outline, hb, hu]
  change Kept ((b.children root).map (b.unfold fuel)) ((u.children root).map (u.unfold (below + 1)))
  rw [hids]
  refine Kept.of_wrapped hroot (fun c hc => hstep c (List.mem_append_left _ hc) _ _ (by omega)) hkind
    hnamed ?_
  exact Kept.of_sublist hinner fun c hc => hstep c (List.mem_append_right _ hc) _ _ (by omega)

end Tree

end PhpGraft

import Mathlib.Data.List.Forall2
import PhpGraft.Proofs.Syntax.Provenance
import PhpGraft.Proofs.Tree

/-!
# Trees of outlines

The tree of an outline holds the outline under its root: every node of the outline is stored, and the
handles of its children are those under which the outlines of its children are held
(`holds_ofOutline`). So what is looked up in the tree is what the outline has at that place, and what is
reached from the root is the outline (`outline_ofOutline`).
-/

namespace PhpGraft

/-- A tree holds an outline under a handle. -/
inductive Tree.Holds (t : Tree) : Nat → Outline → Prop
  /-- The node is stored under the handle, and the outlines below it under those of its children. -/
  | mk {id : Nat} {os : List Outline} (children : List.Forall₂ t.Holds (t.children id) os) :
      t.Holds id (.mk (t.node id) os)

namespace Tree

variable {t : Tree} {id : Nat} {o : Outline}

/-- What is held has the node of the handle. -/
theorem Holds.node_eq (h : t.Holds id o) : t.node id = o.node := by
  cases h
  rfl

/-- What is held has the children of the handle. -/
theorem Holds.children (h : t.Holds id o) : List.Forall₂ t.Holds (t.children id) o.children := by
  cases h with
  | mk children => exact children

end Tree

mutual

/-- Storing an outline leaves the cells that are there alone. -/
theorem Outline.getElem?_store (cells : Array Cell) (o : Outline) {i : Nat} (hi : i < cells.size) :
    (o.store cells)[i]? = cells[i]? := by
  cases o with
  | mk node children =>
    have hall := Outline.getElem?_storeAll (cells.push ⟨node, []⟩) children
      (by rw [Array.size_push]; exact Nat.lt_succ_of_lt hi)
    rw [Outline.store]
    dsimp only
    rw [Array.getElem?_modify, if_neg (Nat.ne_of_gt hi), hall, Array.getElem?_push,
      if_neg (Nat.ne_of_lt hi)]

/-- Storing outlines leaves the cells that are there alone. -/
theorem Outline.getElem?_storeAll (cells : Array Cell) (os : List Outline) {i : Nat}
    (hi : i < cells.size) : (Outline.storeAll cells os).2[i]? = cells[i]? := by
  cases os with
  | nil => rfl
  | cons o os =>
    have hlt := o.size_lt_size_store cells
    rw [Outline.storeAll]
    dsimp only
    rw [Outline.getElem?_storeAll (o.store cells) os (Nat.lt_trans hi hlt),
      Outline.getElem?_store cells o hi]

end

namespace Tree

variable {t : Tree}

/-- Whether the cells of a tree are given ones from a number on, as far as these go. -/
def Continues (t : Tree) (start : Nat) (cells : Array Cell) : Prop :=
  ∀ i, start ≤ i → i < cells.size → t.cells[i]? = cells[i]?

/-- A node is stored ahead of the outlines below it, with their handles. -/
theorem Continues.cell {cells : Array Cell} {node : Node} {children : List Outline}
    (h : t.Continues cells.size ((Outline.mk node children).store cells)) :
    t.cell cells.size = ⟨node, (Outline.storeAll (cells.push ⟨node, []⟩) children).1⟩ ∧
      t.Continues (cells.push ⟨node, []⟩).size
        (Outline.storeAll (cells.push ⟨node, []⟩) children).2 := by
  have hle := Outline.size_le_size_storeAll (cells.push ⟨node, []⟩) children
  rw [Array.size_push] at hle ⊢
  have hsize : ((Outline.mk node children).store cells).size =
      (Outline.storeAll (cells.push ⟨node, []⟩) children).2.size := by
    simp only [Outline.store, Array.size_modify]
  constructor
  · have hpush := Outline.getElem?_storeAll (cells.push ⟨node, []⟩) children
      (i := cells.size) (by simp)
    rw [Tree.cell, Array.getD_eq_getD_getElem?, h cells.size (Nat.le_refl _) (by omega), Outline.store]
    dsimp only
    rw [Array.getElem?_modify, if_pos rfl, hpush, Array.getElem?_push, if_pos rfl]
    rfl
  · intro i hi hlt
    rw [h i (by omega) (by omega), Outline.store]
    dsimp only
    rw [Array.getElem?_modify, if_neg (by omega)]

/-- The first of some outlines is stored ahead of the others. -/
theorem Continues.cons {cells : Array Cell} {o : Outline} {os : List Outline}
    (h : t.Continues cells.size (Outline.storeAll cells (o :: os)).2) :
    t.Continues cells.size (o.store cells) ∧
      t.Continues (o.store cells).size (Outline.storeAll (o.store cells) os).2 := by
  have hlt := o.size_lt_size_store cells
  have hle := Outline.size_le_size_storeAll (o.store cells) os
  refine ⟨fun i hi hlt' => ?_, fun i hi hlt' => h i (by omega) hlt'⟩
  rw [h i hi (Nat.lt_of_lt_of_le hlt' hle)]
  exact Outline.getElem?_storeAll _ os hlt'

mutual

/-- An outline is held where it was stored. -/
theorem holds_of_store {cells : Array Cell} (o : Outline)
    (h : t.Continues cells.size (o.store cells)) : t.Holds cells.size o := by
  cases o with
  | mk node children =>
    obtain ⟨hcell, hbehind⟩ := h.cell
    have hbelow : List.Forall₂ t.Holds (t.children cells.size) children := by
      rw [Tree.children, hcell]
      exact holds_of_storeAll children hbehind
    have hheld := Holds.mk hbelow
    rwa [Tree.node, hcell] at hheld

/-- Outlines are held where they were stored. -/
theorem holds_of_storeAll {cells : Array Cell} (os : List Outline)
    (h : t.Continues cells.size (Outline.storeAll cells os).2) :
    List.Forall₂ t.Holds (Outline.storeAll cells os).1 os := by
  cases os with
  | nil => exact .nil
  | cons o os =>
    obtain ⟨hfirst, hbehind⟩ := h.cons
    exact .cons (holds_of_store o hfirst) (holds_of_storeAll os hbehind)

end

/-- The tree of an outline holds the outline under its root. -/
theorem holds_ofOutline (o : Outline) : (ofOutline o).Holds root o :=
  @holds_of_store (ofOutline o) #[] o fun _ _ _ => rfl

/-- Some outlines are stored one by one, so that whatever becomes of the cells of one of them, the others
are still held. -/
theorem exists_cut {cells : Array Cell} {os : List Outline} {y : Nat}
    (h : t.Continues cells.size (Outline.storeAll cells os).2)
    (hy : y ∈ (Outline.storeAll cells os).1) :
    ∃ (ids₁ ids₂ : List Nat) (os₁ os₂ : List Outline) (o : Outline) (ahead : Array Cell),
      (Outline.storeAll cells os).1 = ids₁ ++ y :: ids₂ ∧ os = os₁ ++ o :: os₂ ∧
        cells.size ≤ ahead.size ∧ ahead.size = y ∧
        (o.store ahead).size ≤ (Outline.storeAll cells os).2.size ∧
        t.Continues ahead.size (o.store ahead) ∧
        ∀ u : Tree, (∀ i, i < ahead.size ∨ (o.store ahead).size ≤ i → u.cells[i]? = t.cells[i]?) →
          List.Forall₂ u.Holds ids₁ os₁ ∧ List.Forall₂ u.Holds ids₂ os₂ := by
  induction os generalizing cells with
  | nil => cases hy
  | cons o os ih =>
    obtain ⟨hfirst, hbehind⟩ := h.cons
    have hlt := o.size_lt_size_store cells
    have hle := Outline.size_le_size_storeAll (o.store cells) os
    rcases List.mem_cons.1 hy with rfl | hy
    · refine ⟨[], _, [], os, o, cells, rfl, rfl, Nat.le_refl _, rfl, hle, hfirst, fun u hu => ⟨.nil, ?_⟩⟩
      exact holds_of_storeAll os fun i hi hlt' => (hu i (.inr hi)).trans (hbehind i hi hlt')
    · obtain ⟨ids₁, ids₂, os₁, os₂, o', ahead, hids, rfl, hahead, hy', hsize, hheld, hothers⟩ :=
        ih hbehind hy
      refine ⟨cells.size :: ids₁, ids₂, o :: os₁, os₂, o', ahead, congrArg _ hids, rfl, by omega, hy', hsize,
        hheld, fun u hu => ?_⟩
      obtain ⟨h₁, h₂⟩ := hothers u hu
      refine ⟨.cons (holds_of_store o fun i hi hlt' => ?_) h₁, h₂⟩
      exact (hu i (.inl (by omega))).trans (hfirst i hi hlt')

/-- What is looked for among nodes is found in the tree where it is found in the outlines. -/
theorem find?_of_holds {p : Node → Bool} {ids : List Nat} {os : List Outline}
    (h : List.Forall₂ t.Holds ids os) :
    ids.find? (fun c => p (t.node c)) = none ∧ os.find? (fun o => p o.node) = none ∨
      ∃ id o, ids.find? (fun c => p (t.node c)) = some id ∧
        os.find? (fun o => p o.node) = some o ∧ t.Holds id o := by
  induction h with
  | nil => exact .inl ⟨rfl, rfl⟩
  | @cons id o ids os hheld _ ih =>
    rw [List.find?_cons, List.find?_cons, hheld.node_eq]
    cases p o.node with
    | true => exact .inr ⟨id, o, rfl, rfl, hheld⟩
    | false => exact ih

end Tree

/-! ## All nodes -/

mutual

/-- The nodes of an outline that is stored have what all its nodes have. -/
theorem Outline.All.of_store {P : Node → Prop} {o : Outline} (h : o.All P) (cells : Array Cell) {i : Nat}
    {cell : Cell} (hi : cells.size ≤ i) (hcell : (o.store cells)[i]? = some cell) : P cell.node := by
  cases o with
  | mk node children =>
    have hinner {inner : Cell}
        (hget : (Outline.storeAll (cells.push ⟨node, []⟩) children).2[i]? = some inner) :
        P inner.node := by
      rcases Nat.eq_or_lt_of_le hi with rfl | hlt
      · rw [Outline.getElem?_storeAll _ _ (by simp), Array.getElem?_push, if_pos rfl] at hget
        exact Option.some.inj hget ▸ h.node
      · exact Outline.all_of_storeAll h.children _ (by rwa [Array.size_push]) hget
    rw [Outline.store] at hcell
    dsimp only at hcell
    rw [Array.getElem?_modify] at hcell
    split at hcell
    · obtain ⟨inner, hget, rfl⟩ := Option.map_eq_some_iff.1 hcell
      have hnode : P inner.node := hinner hget
      exact hnode
    · exact hinner hcell

/-- The nodes of outlines that are stored have what all their nodes have. -/
theorem Outline.all_of_storeAll {P : Node → Prop} {os : List Outline} (h : ∀ o ∈ os, o.All P)
    (cells : Array Cell) {i : Nat} {cell : Cell} (hi : cells.size ≤ i)
    (hcell : (Outline.storeAll cells os).2[i]? = some cell) : P cell.node := by
  cases os with
  | nil =>
    rw [Outline.storeAll, Array.getElem?_eq_none hi] at hcell
    cases hcell
  | cons o os =>
    obtain ⟨ho, hos⟩ := List.forall_mem_cons.1 h
    rw [Outline.storeAll] at hcell
    dsimp only at hcell
    rcases Nat.lt_or_ge i (o.store cells).size with hlt | hge
    · rw [Outline.getElem?_storeAll _ os hlt] at hcell
      exact ho.of_store cells hi hcell
    · exact Outline.all_of_storeAll hos _ hge hcell

end

/-- What all nodes below the root of an outline have, the nodes of its tree have but for the root. -/
theorem Tree.node_ofOutline {P : Node → Prop} {o : Outline} (h : ∀ c ∈ o.children, c.All P) {id : Nat}
    (hid : 0 < id) (hlt : id < (ofOutline o).cells.size) : P ((ofOutline o).node id) := by
  cases o with
  | mk node children =>
    have hget := Array.getElem?_eq_getElem hlt
    have hcell : (ofOutline (.mk node children)).cell id = (ofOutline (.mk node children)).cells[id] := by
      rw [cell, Array.getD_eq_getD_getElem?, hget, Option.getD_some]
    change ((Outline.mk node children).store #[])[id]? = _ at hget
    rw [Outline.store] at hget
    dsimp only at hget
    rw [Array.getElem?_modify, if_neg (by simpa using Nat.ne_of_lt hid)] at hget
    rw [Tree.node, hcell]
    exact Outline.all_of_storeAll h _ hid hget

/-! ## What is reached from the root -/

mutual

/-- The number of steps from an outline to the lowest node in it. -/
def Outline.height : Outline → Nat
  | .mk _ children => Outline.heightAll children

/-- The number of steps from above some outlines to the lowest node in them. -/
def Outline.heightAll : List Outline → Nat
  | [] => 0
  | o :: os => max (o.height + 1) (Outline.heightAll os)

end

mutual

/-- An outline has at least as many nodes as steps to its lowest one. -/
theorem Outline.height_lt_size_store (cells : Array Cell) (o : Outline) :
    cells.size + o.height < (o.store cells).size := by
  cases o with
  | mk node children =>
    have h := Outline.heightAll_le_size_storeAll (cells.push ⟨node, []⟩) children
    rw [Array.size_push] at h
    simp only [Outline.store, Array.size_modify, Outline.height]
    omega

/-- Outlines have at least as many nodes as steps to the lowest one. -/
theorem Outline.heightAll_le_size_storeAll (cells : Array Cell) (os : List Outline) :
    cells.size + Outline.heightAll os ≤ (Outline.storeAll cells os).2.size := by
  cases os with
  | nil => simp [Outline.storeAll, Outline.heightAll]
  | cons o os =>
    have hfirst := Outline.height_lt_size_store cells o
    have hlt := o.size_lt_size_store cells
    have hrest := Outline.heightAll_le_size_storeAll (o.store cells) os
    simp only [Outline.storeAll, Outline.heightAll]
    omega

end

namespace Tree

/-- What is held is reached in as many steps as it has. -/
theorem Holds.unfold_eq {t : Tree} {fuel id : Nat} {o : Outline} (h : t.Holds id o)
    (hfuel : o.height ≤ fuel) : t.unfold fuel id = o := by
  induction fuel generalizing id o with
  | zero =>
    obtain ⟨node, children⟩ := o
    have hnone : children = [] := by
      cases children with
      | nil => rfl
      | cons c cs =>
        rw [Outline.height, Outline.heightAll] at hfuel
        omega
    subst hnone
    rw [unfold, h.node_eq]
    rfl
  | succ fuel ih =>
    obtain ⟨node, children⟩ := o
    have hbelow {ids : List Nat} {os : List Outline} (hheld : List.Forall₂ t.Holds ids os)
        (hfuel : Outline.heightAll os ≤ fuel + 1) : ids.map (t.unfold fuel) = os := by
      induction hheld with
      | nil => rfl
      | cons hfirst _ ihrest =>
        rw [Outline.heightAll] at hfuel
        rw [List.map_cons, ih hfirst (by omega), ihrest (by omega)]
    rw [unfold, h.node_eq, hbelow h.children hfuel]
    rfl

/-- What is reached from the root of the tree of an outline is the outline. -/
theorem outline_ofOutline (o : Outline) : (ofOutline o).outline = o := by
  have hheight := o.height_lt_size_store #[]
  exact (holds_ofOutline o).unfold_eq (by change _ ≤ (o.store #[]).size; omega)

end Tree

end PhpGraft

import PhpGraft.Proofs.Graft.Settled

/-!
# What outcomes say

A pass that fails, or that finds its element, leaves the whole store as it was. A pass that adds its
element makes another file of it: the change is made at the root or at most two steps below it, and
whoever follows the tree from the root comes upon it (`outline_ne_of_plan`). Applied again, the pass
finds what it has added (`Pass.apply_outcome`).
-/

namespace PhpGraft

open Edit

namespace Tree

variable {t t' : Tree} {name? : Option String} {id c parent : Nat}

/-- Trees with the same cells are the same. -/
theorem ext_cell (hsize : t'.cells.size = t.cells.size) (h : ∀ id, t'.cell id = t.cell id) :
    t' = t := by
  obtain ⟨cells, _⟩ := t
  obtain ⟨cells', _⟩ := t'
  congr 1
  refine Array.ext hsize fun i hi' hi => ?_
  have hcell := h i
  simp only [cell, Array.getD_eq_getD_getElem?] at hcell
  rw [Array.getElem?_eq_getElem hi, Array.getElem?_eq_getElem hi'] at hcell
  exact hcell

/-- A node shows something else in another tree to everyone who looks at more than some steps below
it. -/
def Differs (t t' : Tree) (id steps : Nat) : Prop :=
  ∀ n m, steps < n → steps < m → t'.unfold m id ≠ t.unfold n id

/-- A node that changed is seen at once. -/
theorem differs_of_node (h : t'.node id ≠ t.node id) : t.Differs t' id 0 := by
  intro n m hn hm he
  obtain ⟨n, rfl⟩ := Nat.exists_eq_succ_of_ne_zero (Nat.ne_of_gt hn)
  obtain ⟨m, rfl⟩ := Nat.exists_eq_succ_of_ne_zero (Nat.ne_of_gt hm)
  exact h (congrArg Outline.node he)

/-- So are children that came. -/
theorem differs_of_length (h : (t'.children id).length ≠ (t.children id).length) :
    t.Differs t' id 0 := by
  intro n m hn hm he
  obtain ⟨n, rfl⟩ := Nat.exists_eq_succ_of_ne_zero (Nat.ne_of_gt hn)
  obtain ⟨m, rfl⟩ := Nat.exists_eq_succ_of_ne_zero (Nat.ne_of_gt hm)
  have hlength := congrArg (fun o => o.children.length) he
  simp only [unfold, Outline.children, List.length_map] at hlength
  exact h hlength

/-- What a child shows is seen from its parent, one step further away. -/
theorem Differs.above {steps : Nat} (h : t.Differs t' c steps) (hc : c ∈ t.children id)
    (hsame : t'.children id = t.children id) : t.Differs t' id (steps + 1) := by
  intro n m hn hm he
  obtain ⟨n, rfl⟩ := Nat.exists_eq_succ_of_ne_zero (Nat.ne_of_gt (Nat.zero_lt_of_lt hn))
  obtain ⟨m, rfl⟩ := Nat.exists_eq_succ_of_ne_zero (Nat.ne_of_gt (Nat.zero_lt_of_lt hm))
  have hall := congrArg Outline.children he
  simp only [unfold, Outline.children, hsame] at hall
  exact h n m (Nat.lt_of_succ_lt_succ hn) (Nat.lt_of_succ_lt_succ hm)
    (List.map_inj_left.1 hall c hc)

/-- The statements of a tree are the nodes below its outline. -/
theorem nodes_outline (t : Tree) :
    t.outline.children.map Outline.node = (t.children root).map t.node := by
  have hnode (k : Nat) (id : Nat) : (t.unfold k id).node = t.node id := by
    cases k <;> rfl
  obtain ⟨n, hn⟩ := Nat.exists_eq_succ_of_ne_zero (Nat.ne_of_gt t.rooted)
  rw [outline, hn, unfold, Outline.children, List.map_map]
  exact List.map_congr_left fun id _ => hnode n id

/-- The scope of a file is the root or stands below it. -/
theorem scope_eq_or_mem (t : Tree) : t.scope = root ∨ t.scope ∈ t.children root := by
  unfold scope
  cases h : t.namespace? with
  | none => exact .inl rfl
  | some id => exact .inr (List.mem_of_find?_eq_some h)

/-- Whatever a pass is about is found at the root or at most two steps below it. -/
theorem near_of_home? {form : Category} (h : t.home? name? form = some parent) :
    parent = root ∨ parent ∈ t.children root ∨
      ∃ s : Nat, s ∈ t.children root ∧ parent ∈ t.children s := by
  have hscope : t.scope = parent → parent = root ∨ parent ∈ t.children root := fun he =>
    he ▸ t.scope_eq_or_mem
  have hmember : t.findClassLike? name? = some parent → parent ∈ t.children root ∨
      ∃ s : Nat, s ∈ t.children root ∧ parent ∈ t.children s := by
    intro hfound
    have hmem := mem_of_find hfound
    rcases t.scope_eq_or_mem with hroot | hbelow
    · exact .inl (hroot ▸ hmem)
    · exact .inr ⟨t.scope, hbelow, hmem⟩
  unfold home? at h
  split at h
  · exact .inl (Option.some.inj h).symm
  · exact .inl (Option.some.inj h).symm
  · exact (hscope (Option.some.inj h)).imp_right .inl
  · exact (hscope (Option.some.inj h)).imp_right .inl
  · exact (hscope (Option.some.inj h)).imp_right .inl
  · exact .inr (hmember h)

/-- A change at a node near the root is seen from the root within as many steps as there are nodes.
-/
theorem outline_ne_of_near (hsize : t.cells.size ≤ t'.cells.size)
    (hstored : parent < t.cells.size)
    (hnear : parent = root ∨ parent ∈ t.children root ∨
      ∃ s : Nat, s ∈ t.children root ∧ parent ∈ t.children s)
    (hothers : ∀ id, id ≠ parent → t'.children id = t.children id)
    (h : t.Differs t' parent 0) : t'.outline ≠ t.outline := by
  -- The nodes on the way are stored and differ from each other, so that there are enough of them.
  have hfar {steps : Nat} (hlt : steps < t.cells.size) (hroot : t.Differs t' root steps) :
      t'.outline ≠ t.outline := hroot _ _ hlt (Nat.lt_of_lt_of_le hlt hsize)
  by_cases hroot : parent = root
  · exact hfar t.rooted (hroot ▸ h)
  have hpos : 0 < parent := Nat.pos_of_ne_zero hroot
  have hbelow (hmem : parent ∈ t.children root) : t'.outline ≠ t.outline :=
    hfar (by omega) (h.above hmem (hothers _ (Ne.symm hroot)))
  rcases hnear.resolve_left hroot with hmem | ⟨s, hs, hmem⟩
  · exact hbelow hmem
  · by_cases hself : s = root
    · exact hbelow (hself ▸ hmem)
    by_cases hsame : s = parent
    · exact hbelow (hsame ▸ hs)
    have hspos : 0 < s := Nat.pos_of_ne_zero hself
    have hslt : s < t.cells.size := lt_of_mem_children hmem
    exact hfar (by omega)
      ((h.above hmem (hothers _ hsame)).above hs (hothers _ (Ne.symm hroot)))

end Tree

section Step

variable {name? : Option String} {makes? : Option Category} {t : Tree} {c : Change}

/-- A step that changes the tree at all changes what is reached from the root. -/
theorem PassStep.outline_ne (h : PassStep name? t makes? c) (hne : c.apply t ≠ t) :
    (c.apply t).outline ≠ t.outline := by
  cases h with
  | @insert parent index nodes stored place form _ home =>
    rw [Change.apply] at hne ⊢
    have hsome : nodes ≠ [] := fun hnil => hne (by rw [hnil]; rfl)
    obtain ⟨n, rest, rfl⟩ := List.exists_cons_of_ne_nil hsome
    refine Tree.outline_ne_of_near (by simp) stored
      (Tree.near_of_home? (home _ (form n List.mem_cons_self)))
      (fun id hid => Tree.children_insertNodes_of_ne hid) (Tree.differs_of_length ?_)
    have hlength :=
      congrArg List.length (@Tree.children_insertNodes t parent index (n :: rest) stored place)
    have hfresh : (t.freshIds (n :: rest).length).length = rest.length + 1 := by
      have := congrArg List.length (@Tree.map_node_freshIds t parent index (n :: rest))
      rwa [List.length_map, List.length_cons] at this
    rw [hlength, List.length_append, List.length_append, hfresh, List.length_take,
      List.length_drop]
    omega
  | @head id kind found grows =>
    rw [Change.apply] at hne ⊢
    have hlt := lt_of_find found
    refine Tree.outline_ne_of_near (by simp) hlt
      (@Tree.near_of_home? t name? id .constDecl found)
      (fun id _ => Tree.children_modifyNode _ _)
      (Tree.differs_of_node fun hnode => hne ?_)
    -- A head that is what it was makes no difference at all.
    refine Tree.ext_cell (by simp) fun other => ?_
    rw [Tree.node_modifyNode, if_pos ⟨rfl, hlt⟩] at hnode
    rw [Tree.modifyNode, Tree.cell_modify]
    split
    · next hother =>
      have hcell : (t.cell id).node = t.node id := rfl
      rw [hother.1, hcell, hnode]
      rfl
    · rfl
  | wrap name bare =>
    rw [Change.apply]
    intro he
    have hnodes : ((t.wrapped name).children Tree.root).map (t.wrapped name).node =
        (t.children Tree.root).map t.node := by
      have hall := congrArg (fun o => o.children.map Outline.node) he
      rwa [Tree.nodes_outline, Tree.nodes_outline] at hall
    -- No statement of the file was a namespace, and now one is.
    have hmem : (t.wrapped name).node t.cells.size ∈ (t.children Tree.root).map t.node := by
      rw [← hnodes, Tree.children_wrapped_root]
      exact List.mem_map_of_mem (List.mem_append_right _ (List.mem_singleton_self _))
    obtain ⟨id, hid, hnode⟩ := List.mem_map.1 hmem
    have hnone := List.find?_eq_none.1 bare id hid
    rw [hnode, Tree.node_wrapped, if_pos rfl] at hnone
    exact hnone rfl

end Step

namespace Pass

variable {p : Pass} {t : Tree} {c : Change}

/-- The name of the declaration that a pass is about; any name for a pass that is about none. -/
def about? : Pass → Option String
  | strictTypes | namespaceDecl _ | imports _ => none
  | classDecl class? _ _ _ | parent class? _ | interfaces class? _ | traits class? _
  | constant class? _ | property class? _ | method class? _ => class?
  | interfaceDecl name _ _ | interfaceParents name _ => some name

/-- A pass is about no other declaration. -/
theorem concerns_about? (p : Pass) : p.Concerns p.about? := by
  cases p <;> trivial

/-- What a pass plans changes what is reached from the root. -/
theorem outline_ne_of_plan (h : p.plan t = .ok (some c)) : (c.apply t).outline ≠ t.outline := by
  refine (passStep_of_plan p.concerns_about? h).outline_ne fun he => ?_
  have hsettled := settled_after_plan p.concerns_about? h
  rw [Settled, he, h] at hsettled
  cases hsettled

/-- What a pass says is what it did. If it fails, or says that its element is there, the tree is
exactly as it was. If it says that it has added the element, then what is reached from the root is
not what it was, and the pass finds the element when it is applied again, and changes nothing. -/
theorem apply_outcome (p : Pass) (t : Tree) :
    match p.apply.on t with
    | (.error _, t') => t' = t
    | (.ok .unchanged, t') => t' = t
    | (.ok .inserted, t') => t'.outline ≠ t.outline ∧ p.apply.on t' = (.ok .unchanged, t') := by
  rw [p.on_apply]
  cases h : p.plan t with
  | error e => rfl
  | ok c? =>
    cases c? with
    | none => rfl
    | some c =>
      have hsettled : p.plan (c.apply t) = .ok none := settled_after_plan p.concerns_about? h
      refine ⟨outline_ne_of_plan h, ?_⟩
      rw [p.on_apply, hsettled]
      rfl

end Pass

end PhpGraft

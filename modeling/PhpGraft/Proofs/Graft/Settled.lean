import PhpGraft.Proofs.Graft.Run
import PhpGraft.Proofs.Model.Name

/-!
# Passes that find their element

A pass is settled in a tree when it finds its element there and plans nothing. A pass settles itself
(`settled_after_plan`), and it stays settled when the tree grows (`Pass.Settled.mono`): what a pass
looks for is a child with some property, the declaration of a name, or a part of its head, and none
of these goes away in a tree that grows.
-/

namespace PhpGraft

open Edit

/-- Whether a node has a child that satisfies a test. -/
def Tree.HasChild (t : Tree) (id : Nat) (test : Node → Bool) : Prop :=
  ∃ c ∈ t.children id, test (t.node c) = true

instance (t : Tree) (id : Nat) (test : Node → Bool) : Decidable (t.HasChild id test) :=
  inferInstanceAs (Decidable (∃ c ∈ t.children id, test (t.node c) = true))

section HasChild

variable {name? : Option String} {t t' : Tree} {id parent index : Nat} {nodes : List Node}
  {test : Node → Bool}

/-- A child that satisfies a test is found. -/
theorem isSome_findChild? : (t.findChild? id test).isSome = true ↔ t.HasChild id test := by
  unfold Tree.findChild? Tree.HasChild
  rw [List.find?_isSome]

/-- A child that is no declaration stays when the tree grows. -/
theorem Grows.hasChild (h : Grows name? t t') (hfile : test Tree.fileNode = false)
    (hclass : ∀ n, test n = true → n.category.isClassLike = false) (hc : t.HasChild id test) :
    t'.HasChild id test := by
  obtain ⟨c, hmem, htest⟩ := hc
  have hlt : c < t.cells.size := by
    refine Nat.lt_of_not_le fun hle => ?_
    rw [Tree.node_of_le hle, hfile] at htest
    exact Bool.false_ne_true htest
  refine ⟨c, (h.children id).subset hmem, ?_⟩
  rw [h.node_eq hlt (hclass _ htest)]
  exact htest

/-- A new leaf is a child. -/
theorem hasChild_insertNodes (hp : parent < t.cells.size)
    (hi : index ≤ (t.children parent).length) {n : Node} (hn : n ∈ nodes) (htest : test n = true) :
    (t.insertNodes parent index nodes).HasChild parent test := by
  rw [← @Tree.map_node_freshIds t parent index nodes] at hn
  obtain ⟨c, hc, rfl⟩ := List.mem_map.1 hn
  refine ⟨c, ?_, htest⟩
  rw [Tree.children_insertNodes hp hi]
  exact List.mem_append_left _ (List.mem_append_right _ hc)

end HasChild

/-! ## What passes look for -/

section Tests

variable {t : Tree} {id : Nat}

/-- An import of a name. -/
def importsName (name : String) (n : Node) : Bool :=
  n.category == .useDecl && n.name? == some name

/-- Imported names are those of the imports of the scope. -/
theorem mem_importedNames {name : String} :
    name ∈ importedNames t id ↔ t.HasChild id (importsName name) := by
  unfold importedNames Tree.childrenOf Tree.HasChild importsName
  simp only [List.mem_filterMap, List.mem_filter, Bool.and_eq_true, beq_iff_eq, Tree.category]
  constructor
  · rintro ⟨c, ⟨hmem, hcat⟩, hname⟩
    exact ⟨c, hmem, hcat, hname⟩
  · rintro ⟨c, hmem, hcat, hname⟩
    exact ⟨c, ⟨hmem, hcat⟩, hname⟩

/-- The names of the traits that a node uses. -/
def traitNames (n : Node) : List String :=
  match n.kind with
  | .traitUse traits _ => traits
  | _ => []

/-- The traits that a class uses are those of its children. -/
theorem usedTraits_eq : usedTraits t id = (t.children id).flatMap fun c => traitNames (t.node c) :=
  rfl

/-- The traits that a class uses stand in its children. -/
theorem mem_usedTraits {name : String} :
    name ∈ usedTraits t id ↔ t.HasChild id fun n => (traitNames n).contains name := by
  rw [usedTraits_eq]
  simp only [List.mem_flatMap, Tree.HasChild, List.contains_iff_mem]

/-- A member of a form, with a name that satisfies a test. -/
def isMember (c : Category) (same : String → Bool) (n : Node) : Bool :=
  n.category == c && n.name?.any same

/-- The members of a declaration are its children. -/
theorem hasMember_iff {c : Category} {same : String → Bool} :
    hasMember t id c same = true ↔ t.HasChild id (isMember c same) := by
  unfold hasMember Tree.childrenOf Tree.HasChild isMember
  simp only [List.any_eq_true, List.mem_filter, Bool.and_eq_true, beq_iff_eq, Tree.category]
  constructor
  · rintro ⟨c, ⟨hmem, hcat⟩, hname⟩
    exact ⟨c, hmem, hcat, hname⟩
  · rintro ⟨c, hmem, hcat, hname⟩
    exact ⟨c, ⟨hmem, hcat⟩, hname⟩

/-- A node that uses traits is no declaration. -/
theorem isClassLike_of_traitNames {n : Node} {name : String}
    (h : (traitNames n).contains name = true) : n.category.isClassLike = false := by
  unfold traitNames at h
  unfold Node.category
  split at h
  · next he => rw [he]; rfl
  · cases h

/-- The directive for strict types is a directive. -/
theorem category_of_isStrictDirective {n : Node} (h : isStrictDirective n = true) :
    n.category = .directive := by
  unfold isStrictDirective at h
  unfold Node.category
  split at h
  · next he => rw [he]; rfl
  · cases h

/-- The directive for strict types is no declaration. -/
theorem isClassLike_of_isStrictDirective {n : Node} (h : isStrictDirective n = true) :
    n.category.isClassLike = false := by
  rw [category_of_isStrictDirective h]
  rfl

end Tests

/-! ## Heads that have what is asked for -/

/-- Names stay known when further ones come. -/
theorem missing_eq_nil_mono {known known' wanted : List String}
    (h : Name.missing id known wanted = []) (hsub : known ⊆ known') :
    Name.missing id known' wanted = [] := by
  rw [Name.missing_eq_nil_iff] at h ⊢
  intro x hx
  obtain ⟨k, hk, hsame⟩ := h x hx
  exact ⟨k, hsub hk, hsame⟩

/-- Nothing is added when nothing is missing. -/
theorem Edit.appendMissing?_eq_none {known wanted : List String} :
    appendMissing? known wanted = none ↔ Name.missing id known wanted = [] := by
  unfold appendMissing?
  cases Name.missing id known wanted <;> simp

/-- With the missing names added, none is missing. -/
theorem Edit.appendMissing?_self {known wanted names : List String}
    (h : appendMissing? known wanted = some names) : appendMissing? names wanted = none := by
  rw [appendMissing?_eq_some h, appendMissing?_eq_none, Name.missing_eq_nil_iff]
  intro x hx
  have := @Name.exists_same_of_mem String id known wanted x hx
  simpa using this

/-- A change of heads that is not asked for again once it was made, and stays made when the head
grows. -/
structure Settles (f : NodeKind → Except Error (Option NodeKind)) : Prop where
  /-- The change is not asked for again. -/
  self : ∀ k k', f k = .ok (some k') → f k' = .ok none
  /-- It stays made. -/
  mono : ∀ k k', HeadGrows k k' → f k = .ok none → f k' = .ok none

/-- A class that has a parent is not given another one. -/
theorem settles_withParent (name? : Option String) (parent : String) :
    Settles (classHead name? (withParent name? parent)) where
  self := fun k k' h => by
    cases k with
    | classDecl d =>
      unfold classHead withParent at h
      cases hp : d.parent? with
      | none =>
        simp only [hp, Except.map, Option.map_some, Except.ok.injEq, Option.some.injEq] at h
        subst h
        simp [classHead, withParent, Name.same, Except.map]
      | some existing =>
        simp only [hp] at h
        split at h <;> simp [Except.map] at h
    | _ => cases h
  mono := fun k k' hg h => by
    cases hg with
    | @ofClass d d' _ _ parent _ =>
      simp only [classHead, withParent] at h ⊢
      cases hp : d.parent? with
      | none => simp [hp, Except.map] at h
      | some existing =>
        -- a parent that is there is the parent of every later head
        have hparent : d'.parent? = some existing := by
          rw [← hp]
          exact parent.resolve_left (by simp [hp])
        rw [hparent]
        rw [hp] at h
        exact h
    | ofInterface => cases h

/-- A class that has interfaces is not given them again. -/
theorem settles_withInterfaces? (name? : Option String) (names : List String) :
    Settles (classHead name? fun d => .ok (withInterfaces? names d)) where
  self := fun k k' h => by
    cases k with
    | classDecl d =>
      simp only [classHead, Except.map, Except.ok.injEq, Option.map_eq_some_iff] at h
      obtain ⟨d', hd', rfl⟩ := h
      obtain ⟨l, hl, rfl⟩ := Option.map_eq_some_iff.1 hd'
      simp [classHead, withInterfaces?, appendMissing?_self hl, Except.map]
    | _ => cases h
  mono := fun k k' hg h => by
    cases hg with
    | ofClass _ _ _ interfaces =>
      simp only [classHead, withInterfaces?, Except.map, Except.ok.injEq,
        Option.map_eq_none_iff, appendMissing?_eq_none] at h ⊢
      exact missing_eq_nil_mono h interfaces.subset
    | ofInterface => cases h

/-- An interface that has parents is not given them again. -/
theorem settles_withParents? (name : String) (names : List String) :
    Settles (interfaceHead name (withParents? names)) where
  self := fun k k' h => by
    cases k with
    | interfaceDecl d =>
      simp only [interfaceHead, Except.ok.injEq, Option.map_eq_some_iff] at h
      obtain ⟨d', hd', rfl⟩ := h
      obtain ⟨l, hl, rfl⟩ := Option.map_eq_some_iff.1 hd'
      simp [interfaceHead, withParents?, appendMissing?_self hl]
    | _ => cases h
  mono := fun k k' hg h => by
    cases hg with
    | ofInterface _ parents =>
      simp only [interfaceHead, withParents?, Except.ok.injEq, Option.map_eq_none_iff,
        appendMissing?_eq_none] at h ⊢
      exact missing_eq_nil_mono h parents.subset
    | ofClass => cases h

/-! ## Settled passes -/

/-- A pass that finds its element. -/
def Pass.Settled (p : Pass) (t : Tree) : Prop := p.plan t = .ok none

section Settled

variable {name? : Option String} {t t' : Tree} {c : Change}

/-- Another head that was planned is not planned again. -/
theorem planHead_self {f : NodeKind → Except Error (Option NodeKind)} (hf : Settles f)
    (hgrows : Grows name? t (c.apply t)) (h : planHead t name? f = .ok (some c)) :
    planHead (c.apply t) name? f = .ok none := by
  obtain ⟨id, hfound, kind?, hkind, hc⟩ := planHead_eq_ok.1 h
  obtain ⟨kind, rfl, rfl⟩ := Option.map_eq_some_iff.1 hc.symm
  refine planHead_eq_ok.2 ⟨id, hgrows.find id hfound, none, ?_, rfl⟩
  rw [Change.apply, Tree.node_modifyNode, if_pos ⟨rfl, lt_of_find hfound⟩]
  exact hf.self _ _ hkind

/-- A head that is not planned is not planned when the tree grows. -/
theorem planHead_mono {f : NodeKind → Except Error (Option NodeKind)} (hf : Settles f)
    (hgrows : Grows name? t t') (h : planHead t name? f = .ok none) :
    planHead t' name? f = .ok none := by
  obtain ⟨id, hfound, kind?, hkind, hc⟩ := planHead_eq_ok.1 h
  obtain rfl := Option.map_eq_none_iff.1 hc.symm
  refine planHead_eq_ok.2 ⟨id, hgrows.find id hfound, none, ?_, rfl⟩
  rcases hgrows.node id (lt_of_find hfound) with he | ⟨-, kind, hk, he⟩
  · rw [he]
    exact hkind
  · rw [he]
    exact hf.mono _ _ hk hkind

/-- A member that was planned is not planned again. -/
theorem planMember_self {cat : Category} {name : String} {same : String → Bool}
    {realize : Bool → Except Error Node} (hr : Realizes realize cat name)
    (hsame : same name = true) (hgrows : Grows name? t (c.apply t))
    (h : planMember t name? cat same realize = .ok (some c)) :
    planMember (c.apply t) name? cat same realize = .ok none := by
  obtain ⟨id, hfound, ⟨-, hc⟩ | ⟨-, n, hn, hc⟩⟩ := planMember_eq_ok.1 h
  · cases hc
  · obtain rfl := Option.some.inj hc
    refine planMember_eq_ok.2 ⟨id, hgrows.find id hfound, .inl ⟨hasMember_iff.2 ?_, rfl⟩⟩
    refine hasChild_insertNodes (lt_of_find hfound) (memberIndex_le t id _)
      (List.mem_singleton_self n) ?_
    rw [isMember, (hr _ n hn).1, (hr _ n hn).2, beq_self_eq_true, Option.any_some, hsame]
    rfl

/-- A member that is not planned is not planned when the tree grows. -/
theorem planMember_mono {cat : Category} {same : String → Bool}
    {realize : Bool → Except Error Node} (hcat : cat ≠ .file) (hclass : cat.isClassLike = false)
    (hgrows : Grows name? t t') (h : planMember t name? cat same realize = .ok none) :
    planMember t' name? cat same realize = .ok none := by
  obtain ⟨id, hfound, ⟨hm, -⟩ | ⟨-, n, hn, hc⟩⟩ := planMember_eq_ok.1 h
  · refine planMember_eq_ok.2 ⟨id, hgrows.find id hfound, .inl ⟨hasMember_iff.2 ?_, rfl⟩⟩
    refine hgrows.hasChild ?_ (fun n hn => ?_) (hasMember_iff.1 hm)
    · have : (Tree.fileNode.category == cat) = false := beq_false_of_ne fun he => hcat he.symm
      rw [isMember, this, Bool.false_and]
    · rw [isMember, Bool.and_eq_true] at hn
      rw [eq_of_beq hn.1, hclass]
  · cases hc

/-- A declaration that was planned is not planned again. -/
theorem planDeclaration_self {kind : NodeKind} {doc? : Option String}
    {attributes : List AttributeSpec} (hgrows : Grows name? t (c.apply t))
    (hkind : ∀ n : Node, n.kind = kind → Tree.isClassLike name? n = true)
    (h : planDeclaration t name? kind doc? attributes = .ok (some c)) :
    planDeclaration (c.apply t) name? kind doc? attributes = .ok none := by
  obtain ⟨-, hc⟩ | ⟨-, realized, -, hc⟩ := planDeclaration_eq_ok.1 h
  · cases hc
  · obtain rfl := Option.some.inj hc
    refine planDeclaration_eq_ok.2 (.inl ⟨?_, rfl⟩)
    rw [Tree.findClassLike?, hgrows.scope_eq, isSome_findChild?]
    exact hasChild_insertNodes Tree.scope_lt (Nat.le_refl _) (List.mem_singleton_self _)
      (hkind _ rfl)

/-- A declaration that is not planned is not planned when the tree grows. -/
theorem planDeclaration_mono {kind : NodeKind} {doc? : Option String}
    {attributes : List AttributeSpec} (hgrows : Grows name? t t')
    (h : planDeclaration t name? kind doc? attributes = .ok none) :
    planDeclaration t' name? kind doc? attributes = .ok none := by
  obtain ⟨hsome, -⟩ | ⟨-, realized, -, hc⟩ := planDeclaration_eq_ok.1 h
  · obtain ⟨id, hid⟩ := Option.isSome_iff_exists.1 hsome
    refine planDeclaration_eq_ok.2 (.inl ⟨?_, rfl⟩)
    rw [hgrows.find id hid, Option.isSome_some]
  · cases hc

/-- A tree that grows keeps the traits of a class. -/
theorem Grows.usedTraits_subset (h : Grows name? t t') (id : Nat) :
    usedTraits t id ⊆ usedTraits t' id := by
  intro name hname
  rw [mem_usedTraits] at hname ⊢
  exact h.hasChild rfl (fun n hn => isClassLike_of_traitNames hn) hname

/-- A tree that grows keeps its imports. -/
theorem Grows.importedNames_subset (h : Grows name? t t') :
    importedNames t t.scope ⊆ importedNames t' t'.scope := by
  intro name hname
  rw [h.scope_eq, mem_importedNames]
  refine h.hasChild rfl (fun n hn => ?_) (mem_importedNames.1 hname)
  rw [importsName, Bool.and_eq_true] at hn
  rw [eq_of_beq hn.1]
  rfl

/-- Whether a pass for imports is settled depends on the imported names. -/
theorem settled_imports_iff {l : List Import} :
    (Pass.imports l).Settled t ↔
      ∀ i ∈ l, ∃ name ∈ importedNames t t.scope, Name.same name i.name = true := by
  rw [← @Name.missing_eq_nil_iff Import Import.name, ← List.isEmpty_iff]
  simp only [Pass.Settled, Pass.plan, planImports, Except.ok.injEq]
  split <;> simp [*]

/-- Whether a pass for traits is settled depends on the traits that the class uses. -/
theorem settled_traits_iff {names : List String} :
    (Pass.traits name? names).Settled t ↔
      ∃ id, t.findClassLike? name? = some id ∧ t.category id = .classDecl ∧
        ∀ name ∈ names, ∃ used ∈ usedTraits t id, Name.same used name = true := by
  unfold Pass.Settled Pass.plan
  rw [planTraits_eq_ok]
  refine exists_congr fun id => and_congr_right fun _ => and_congr_right fun _ => ?_
  rw [← @Name.missing_eq_nil_iff String fun name => name]
  generalize Name.missing (fun name => name) (usedTraits t id) names = missing
  cases missing <;> simp

/-- A pass settles itself. -/
theorem settled_after_plan {p : Pass} (hp : p.Concerns name?) (h : p.plan t = .ok (some c)) :
    p.Settled (c.apply t) := by
  have hstep := passStep_of_plan hp h
  cases p with
  | strictTypes =>
    simp only [Pass.plan, Except.ok.injEq] at h
    split at h
    · cases h
    · obtain rfl := Option.some.inj h
      have hchild := @hasChild_insertNodes t Tree.root 0 [strictDirective] isStrictDirective
        Tree.root_lt (Nat.zero_le _) _ (List.mem_singleton_self _) rfl
      rw [Pass.Settled, Pass.plan, Change.apply, if_pos (isSome_findChild?.2 hchild)]
  | namespaceDecl name =>
    simp only [Pass.plan, Except.ok.injEq] at h
    split at h
    · cases h
    · obtain rfl := Option.some.inj h
      rw [Pass.Settled, Pass.plan, Change.apply, Tree.namespace?_wrapped]
      rfl
  | imports l =>
    have hgrows := hstep.grows (by simp [Pass.makes?])
    rw [settled_imports_iff]
    intro i hi
    obtain ⟨known, hknown, hsame⟩ :=
      @Name.exists_same_of_mem Import Import.name (importedNames t t.scope) l i hi
    refine ⟨known, ?_, hsame⟩
    rcases List.mem_append.1 hknown with hold | hnew
    · exact hgrows.importedNames_subset hold
    · obtain ⟨j, hj, rfl⟩ := List.mem_map.1 hnew
      simp only [Pass.plan, planImports, Except.ok.injEq] at h
      split at h
      · cases h
      · obtain rfl := Option.some.inj h
        rw [hgrows.scope_eq, mem_importedNames]
        refine hasChild_insertNodes Tree.scope_lt Tree.leadingDirectives_le
          (List.mem_map_of_mem hj) ?_
        simp [importsName, Import.node, Node.category, NodeKind.category, Node.name?,
          NodeKind.name?]
  | traits class? names =>
    subst hp
    have hgrows := hstep.grows (by simp [Pass.makes?])
    obtain ⟨id, hfound, hclass, hc⟩ := planTraits_eq_ok.1 h
    refine settled_traits_iff.2 ⟨id, hgrows.find id hfound, ?_, fun name hname => ?_⟩
    · rw [hgrows.category_eq (lt_of_find hfound), hclass]
    obtain ⟨known, hknown, hsame⟩ :=
      @Name.exists_same_of_mem String (fun name => name) (usedTraits t id) names name hname
    refine ⟨known, ?_, hsame⟩
    rcases List.mem_append.1 hknown with hold | hnew
    · exact hgrows.usedTraits_subset id hold
    · obtain ⟨missing, hmissing, rfl⟩ := List.mem_map.1 hnew
      split at hc
      · cases hc
      · obtain rfl := Option.some.inj hc
        rw [mem_usedTraits]
        refine hasChild_insertNodes (lt_of_find hfound) (Nat.zero_le _)
          (List.mem_map_of_mem hmissing) ?_
        simp [traitNames]
  | classDecl class? modifiers doc? attributes =>
    subst hp
    refine planDeclaration_self (hstep.grows (by simp [Pass.makes?])) (fun n hn => ?_) h
    unfold Tree.isClassLike
    rw [hn]
    cases class? <;> simp [Text.eqIgnoreCase]
  | interfaceDecl name doc? attributes =>
    subst hp
    refine planDeclaration_self (hstep.grows (by simp [Pass.makes?])) (fun n hn => ?_) h
    unfold Tree.isClassLike
    rw [hn]
    simp [Text.eqIgnoreCase]
  | parent class? name =>
    subst hp
    exact planHead_self (settles_withParent _ _) (hstep.grows (by simp [Pass.makes?])) h
  | interfaces class? names =>
    subst hp
    exact planHead_self (settles_withInterfaces? _ _) (hstep.grows (by simp [Pass.makes?])) h
  | interfaceParents name names =>
    subst hp
    exact planHead_self (settles_withParents? _ _) (hstep.grows (by simp [Pass.makes?])) h
  | constant class? spec =>
    subst hp
    exact planMember_self spec.realizes (by simp) (hstep.grows (by simp [Pass.makes?])) h
  | property class? spec =>
    subst hp
    exact planMember_self spec.realizes (by simp) (hstep.grows (by simp [Pass.makes?])) h
  | method class? spec =>
    subst hp
    exact planMember_self spec.realizes (by simp [Text.eqIgnoreCase])
      (hstep.grows (by simp [Pass.makes?])) h

/-- A settled pass stays settled when the tree grows. -/
theorem Pass.Settled.mono {p : Pass} (h : p.Settled t) (hp : p.Concerns name?)
    (hgrows : Grows name? t t') : p.Settled t' := by
  cases p with
  | strictTypes =>
    rw [Settled, plan] at h ⊢
    split at h
    · next hstrict =>
      have hchild := hgrows.hasChild rfl (fun _ => isClassLike_of_isStrictDirective)
        (isSome_findChild?.1 hstrict)
      rw [if_pos (isSome_findChild?.2 hchild)]
    · cases h
  | namespaceDecl name =>
    rw [Settled, plan] at h ⊢
    rw [hgrows.namespace_eq]
    exact h
  | imports l =>
    rw [settled_imports_iff] at h ⊢
    intro i hi
    obtain ⟨name, hname, hsame⟩ := h i hi
    exact ⟨name, hgrows.importedNames_subset hname, hsame⟩
  | traits class? names =>
    subst hp
    obtain ⟨id, hfound, hclass, hall⟩ := settled_traits_iff.1 h
    refine settled_traits_iff.2 ⟨id, hgrows.find id hfound, ?_, fun name hname => ?_⟩
    · rw [hgrows.category_eq (lt_of_find hfound), hclass]
    · obtain ⟨used, hused, hsame⟩ := hall name hname
      exact ⟨used, hgrows.usedTraits_subset id hused, hsame⟩
  | classDecl class? modifiers doc? attributes =>
    subst hp
    exact planDeclaration_mono hgrows h
  | interfaceDecl name doc? attributes =>
    subst hp
    exact planDeclaration_mono hgrows h
  | parent class? name =>
    subst hp
    exact planHead_mono (settles_withParent _ _) hgrows h
  | interfaces class? names =>
    subst hp
    exact planHead_mono (settles_withInterfaces? _ _) hgrows h
  | interfaceParents name names =>
    subst hp
    exact planHead_mono (settles_withParents? _ _) hgrows h
  | constant class? spec =>
    subst hp
    rw [Settled, plan] at h ⊢
    exact planMember_mono (by decide) rfl hgrows h
  | property class? spec =>
    subst hp
    rw [Settled, plan] at h ⊢
    exact planMember_mono (by decide) rfl hgrows h
  | method class? spec =>
    subst hp
    rw [Settled, plan] at h ⊢
    exact planMember_mono (by decide) rfl hgrows h

end Settled

end PhpGraft

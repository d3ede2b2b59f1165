import Mathlib.Data.Set.Subsingleton
import PhpGraft.Proofs.Graft.Filling

/-!
# A declaration is realized exactly

After a run that succeeds, a file has what the declaration holds, each thing once if it was not there
before, and nothing else has come (`realize_fills`). Apart from that at most one directive, one
namespace and one declaration are new, and every new node stands where it belongs.
-/

namespace PhpGraft

open Edit

/-! ## What a declaration wants -/

namespace Declaration

/-- Whether a declaration holds something of a slot under a name. -/
def holds (d : Declaration) (s : Slot) (name : String) : Bool :=
  match s, d with
  | .imports, d => d.parts.imports.contains name
  | .parent, ofClass c => c.parent?.any (Name.same · name)
  | .heritage, ofClass c => c.interfaces.contains name
  | .heritage, ofInterface i => i.parents.contains name
  | .traits, ofClass c => c.traits.contains name
  | .constants, d => d.parts.constants.contains name
  | .properties, ofClass c => c.properties.contains name
  | .methods, d => d.parts.methods.contains name
  | _, _ => false

/-- The parent that a declaration gives its class. -/
def parent? : Declaration → Option String
  | ofClass c => c.parent?
  | ofInterface _ => none

/-- A name map holds something under a name exactly when one of its names has the key. -/
theorem any_names_eq_contains {α : Type} [Keyed α] (m : NameMap α) (name : String) :
    m.names.any (fun n => Keyed.keyOf α n == Keyed.keyOf α name) = m.contains name := by
  rw [NameMap.names, List.any_map]
  rfl

end Declaration

section Wants

variable {s slot : Slot} {p : Pass} {wanted : List String}

/-- A pass for the items of a map, which is left out if there are none, wants their names. -/
theorem wants_unless_isEmpty {α : Type} [Keyed α] {m : NameMap α}
    (h : ∀ s, p.wants s = if s = slot then m.names else []) :
    (if m.isEmpty then [] else [p]).flatMap (fun q : Pass => q.wants s) =
      if s = slot then m.names else [] := by
  split
  · next he =>
    rw [NameMap.names, List.isEmpty_iff.1 he]
    exact (ite_self _).symm
  · rw [List.flatMap_singleton, h]

/-- Passes for the items of a map, one for each, want their names. -/
theorem wants_map {α : Type} [Keyed α] {m : NameMap α} {f : α → Pass}
    (h : ∀ a s, (f a).wants s = if s = slot then [Keyed.name a] else []) :
    (m.items.map f).flatMap (fun q : Pass => q.wants s) = if s = slot then m.names else [] := by
  rw [List.flatMap_map]
  by_cases hs : s = slot
  · simp only [h, if_pos hs]
    exact List.map_eq_flatMap.symm
  · simp [h, if_neg hs]

end Wants

namespace Declaration

/-- The names of a slot that the passes of a declaration want to be there. -/
theorem flatMap_wants_passes (d : Declaration) (s : Slot) :
    d.passes.flatMap (·.wants s) =
      match s, d with
      | .imports, d => d.parts.imports.names
      | .parent, ofClass c => c.parent?.toList
      | .heritage, ofClass c => c.interfaces.names
      | .heritage, ofInterface i => i.parents.names
      | .traits, ofClass c => c.traits.names
      | .constants, d => d.parts.constants.names
      | .properties, ofClass c => c.properties.names
      | .methods, d => d.parts.methods.names
      | _, _ => [] := by
  have hstrict : (if d.parts.strict then [Pass.strictTypes] else []).flatMap
      (fun p : Pass => p.wants s) = [] := by
    split <;> cases s <;> rfl
  have hscope : (d.parts.scope?.map Pass.namespaceDecl).toList.flatMap
      (fun p : Pass => p.wants s) = [] := by
    cases d.parts.scope? <;> cases s <;> rfl
  have himports : d.importPasses.flatMap (·.wants s) =
      if s = .imports then d.parts.imports.names else [] :=
    wants_unless_isEmpty fun s => by cases s <;> rfl
  have hdeclares : d.declares.wants s = [] := by
    cases d <;> cases s <;> rfl
  rw [passes_eq, inner, List.flatMap_append, List.flatMap_append, List.flatMap_append,
    List.flatMap_cons, hstrict, hscope, himports, hdeclares]
  cases d with
  | ofClass c =>
    have hparent : (c.parent?.map (Pass.parent c.name?)).toList.flatMap
        (fun p : Pass => p.wants s) = if s = .parent then c.parent?.toList else [] := by
      cases c.parent? <;> cases s <;> rfl
    rw [details]
    simp only [List.flatMap_append, hparent,
      @wants_unless_isEmpty s .heritage (.interfaces c.name? c.interfaces.names) _ _ c.interfaces
        (fun s => by cases s <;> rfl),
      @wants_unless_isEmpty s .traits (.traits c.name? c.traits.names) _ _ c.traits
        (fun s => by cases s <;> rfl),
      DeclarationParts.constantPasses, ClassSpec.propertyPasses, DeclarationParts.methodPasses,
      @wants_map s .constants _ _ c.constants (.constant c.name?) (fun _ s => by cases s <;> rfl),
      @wants_map s .properties _ _ c.properties
        (fun p => .property c.name? { p with typed := c.typed && p.typed })
        (fun _ s => by cases s <;> rfl),
      @wants_map s .methods _ _ c.methods
        (fun m => .method c.name? { m with typed := c.typed && m.typed })
        (fun _ s => by cases s <;> rfl)]
    cases s <;> simp [parts]
  | ofInterface i =>
    rw [details]
    simp only [List.flatMap_append,
      @wants_unless_isEmpty s .heritage (.interfaceParents i.name i.parents.names) _ _ i.parents
        (fun s => by cases s <;> rfl),
      DeclarationParts.constantPasses, DeclarationParts.methodPasses,
      @wants_map s .constants _ _ i.constants (.constant (some i.name))
        (fun _ s => by cases s <;> rfl),
      @wants_map s .methods _ _ i.methods
        (fun m => .method (some i.name) { m with typed := i.typed && m.typed })
        (fun _ s => by cases s <;> rfl)]
    cases s <;> simp [parts]

/-- The passes of a declaration want what it holds. -/
theorem any_wants_passes (d : Declaration) (s : Slot) (name : String) :
    (d.passes.flatMap (·.wants s)).any (s.keyOf · == s.keyOf name) = d.holds s name := by
  rw [flatMap_wants_passes]
  cases d with
  | ofClass c =>
    cases s with
    | parent => cases hp : c.parent? <;> simp [holds, hp, Slot.keyOf, Name.same]
    | _ => exact any_names_eq_contains _ _
  | ofInterface i =>
    cases s with
    | parent | traits | properties => rfl
    | _ => exact any_names_eq_contains _ _

end Declaration

/-! ## What is reached from the root -/

/-- The nodes that are reached from the root of a tree. -/
inductive Tree.Reached (t : Tree) : Nat → Prop
  /-- The root is reached. -/
  | root : Reached t Tree.root
  /-- Children of what is reached are reached. -/
  | child {p c : Nat} (hp : Reached t p) (hc : c ∈ t.children p) : Reached t c

namespace Tree

variable {t t' : Tree} {id : Nat}

/-- What is reached in a closed tree is stored. -/
theorem Reached.lt (h : t.Reached id) (hc : t.Closed) : id < t.cells.size := by
  cases h with
  | root => exact root_lt
  | child _ hmem => exact (hc _ _ hmem).2

/-- When a tree grows, no stored node comes into reach. -/
theorem Reached.of_grows {name? : Option String} (hgrows : Grows name? t t') (h : t'.Reached id)
    (hid : id < t.cells.size) : t.Reached id := by
  induction h with
  | root => exact .root
  | child _ hmem ih =>
    have hold := (hgrows.edges _ _ hmem).resolve_right (Nat.not_le.2 hid)
    exact .child (ih (lt_of_mem_children hold)) hold

/-- When the statements of a file are wrapped, no stored node comes into reach. -/
theorem Reached.of_wrapped {name : String} (h : (t.wrapped name).Reached id)
    (hid : id < t.cells.size) : t.Reached id := by
  induction h with
  | root => exact .root
  | @child p c _ hmem ih =>
    by_cases hroot : p = Tree.root
    · subst hroot
      rw [children_wrapped_root] at hmem
      rcases List.mem_append.1 hmem with hmem | hmem
      · exact .child .root (List.mem_of_mem_take hmem)
      · exact absurd (List.mem_singleton.1 hmem) (Nat.ne_of_lt hid)
    · by_cases hnew : p = t.cells.size
      · subst hnew
        rw [children_wrapped_new] at hmem
        exact .child .root (List.mem_of_mem_drop hmem)
      · rw [children_wrapped_of_ne hroot hnew] at hmem
        exact .child (ih (lt_of_mem_children hmem)) hmem

/-- In a run, no stored node comes into reach. -/
theorem Reached.of_growsWrapped {name? : Option String} (hgrows : GrowsWrapped name? t t')
    (h : t'.Reached id) (hid : id < t.cells.size) : t.Reached id := by
  obtain ⟨t₁, t₂, hbefore, hwrap, hafter⟩ := hgrows
  have hid₁ : id < t₁.cells.size := Nat.lt_of_lt_of_le hid hbefore.size_le
  refine .of_grows hbefore ?_ hid
  rcases hwrap with rfl | ⟨-, name, rfl⟩
  · exact h.of_grows hafter hid₁
  · refine .of_wrapped (h.of_grows hafter ?_) hid₁
    rw [size_wrapped]
    exact Nat.lt_succ_of_lt hid₁

end Tree

/-! ## What is new after a run -/

/-- A node that stands where nodes of its form belong. -/
def Tree.AtHome (t : Tree) (name? : Option String) (id : Nat) : Prop :=
  ∃ p, t.home? name? (t.category id) = some p ∧ id ∈ t.children p

section AtHome

variable {name? : Option String} {t t' : Tree} {id : Nat}

/-- When a tree grows, nodes of a form still belong where they belonged. -/
theorem Grows.home? (h : Grows name? t t') {c : Category} {p : Nat}
    (hp : t.home? name? c = some p) : t'.home? name? c = some p := by
  cases c with
  | directive | namespaceDecl => exact hp
  | useDecl | classDecl | interfaceDecl =>
    rw [← hp, Tree.home?, Tree.home?, h.scope_eq]
  | _ => exact h.find p hp

/-- When a tree grows, what stands at its place stays there. -/
theorem Grows.atHome (h : Grows name? t t') (hid : id < t.cells.size)
    (hhome : t.AtHome name? id) : t'.AtHome name? id := by
  obtain ⟨p, hp, hmem⟩ := hhome
  refine ⟨p, ?_, (h.children p).subset hmem⟩
  rw [h.category_eq hid]
  exact h.home? hp

/-- What a pass adds stands at its place. -/
theorem PassStep.atHome {makes? : Option Category} {c : Change} (h : PassStep name? t makes? c)
    (hns : makes? ≠ some .namespaceDecl) (hle : t.cells.size ≤ id)
    (hlt : id < (c.apply t).cells.size) : (c.apply t).AtHome name? id := by
  have hgrows := h.grows hns
  have hform := h.category_eq hle hlt
  cases h with
  | @insert parent index nodes stored place form inside home =>
    refine ⟨parent, hgrows.home? (home _ hform), ?_⟩
    rw [Change.apply, Tree.size_insertNodes] at hlt
    rw [Change.apply, Tree.children_insertNodes stored place]
    exact List.mem_append_left _ (List.mem_append_right _ (Tree.mem_freshIds_of_le hle hlt))
  | head =>
    rw [Change.apply, Tree.size_modifyNode] at hlt
    omega
  | wrap name bare form => exact absurd form hns

/-- What a run without a pass for a namespace adds stands at its place. -/
theorem Pipeline.Leads.atHome {ps : Pipeline} (hps : ∀ p ∈ ps, p.Concerns name?)
    (hns : ∀ p ∈ ps, p.makes? ≠ some .namespaceDecl) (h : ps.Leads t t')
    (hle : t.cells.size ≤ id) (hlt : id < t'.cells.size) : t'.AtHome name? id := by
  refine (h.induction (P := fun s => Grows name? t s ∧ ∀ id, t.cells.size ≤ id →
    id < s.cells.size → s.AtHome name? id) ?_ ⟨.refl _ _, ?_⟩).2 id hle hlt
  · intro p hp s c ⟨hs, hhome⟩ hplan
    have hstep := passStep_of_plan (hps p hp) hplan
    have hgrows := hstep.grows (hns p hp)
    refine ⟨hs.trans hgrows, fun id hle hlt => ?_⟩
    rcases Nat.lt_or_ge id s.cells.size with hold | hnew
    · exact hgrows.atHome hold (hhome id hle hold)
    · exact hstep.atHome (hns p hp) hnew hlt
  · intro id hle hlt
    omega

end AtHome

namespace Declaration

variable {d : Declaration} {t t' : Tree}

/-- The pass for the declaration itself adds one node at most. -/
theorem size_after_declares {c? : Option Change} (h : d.declares.plan t = .ok c?) :
    (t.after c?).cells.size ≤ t.cells.size + 1 := by
  have hsize : ∀ {name? kind doc? attributes},
      planDeclaration t name? kind doc? attributes = .ok c? →
        (t.after c?).cells.size ≤ t.cells.size + 1 := by
    intro _ _ _ _ h
    obtain ⟨-, rfl⟩ | ⟨-, _, -, rfl⟩ := planDeclaration_eq_ok.1 h
    · exact Nat.le_succ _
    · simp [Tree.after, Change.apply]
  cases d with
  | ofClass c => exact hsize h
  | ofInterface i => exact hsize h

/-- Behind the namespace, a run adds imports, one declaration at most, and then members. -/
theorem forms_of_inner (h : d.inner.Leads t t') :
    ∃ a b : Nat, t.cells.size ≤ a ∧ a ≤ b ∧ b ≤ a + 1 ∧ b ≤ t'.cells.size ∧
      ∀ id, t.cells.size ≤ id → id < t'.cells.size →
        (id < a → t'.category id = .useDecl) ∧
          (a ≤ id → id < b → (t'.category id).isClassLike = true) ∧
            (b ≤ id → (t'.category id).memberRank?.isSome = true) := by
  have hconcerns := d.concerns_inner
  have hns := fun p (hp : p ∈ d.inner) => (makes_of_mem_inner hp).1
  rw [inner, List.forall_mem_append, List.forall_mem_cons] at hconcerns hns
  obtain ⟨t₁, h₁, h⟩ := Pipeline.leads_append.1 h
  obtain ⟨c?, hplan, h₃⟩ := Pipeline.leads_cons.1 h
  have h₂ : Pipeline.Leads [d.declares] t₁ (t₁.after c?) :=
    Pipeline.leads_singleton.2 ⟨c?, hplan, rfl⟩
  have hself : ∀ p ∈ [d.declares], p.Concerns d.name? ∧ p.makes? ≠ some .namespaceDecl :=
    fun p hp => List.mem_singleton.1 hp ▸ ⟨hconcerns.2.1, hns.2.1⟩
  have hg₁ := h₁.grows hconcerns.1 hns.1
  have hg₂ := h₂.grows (fun p hp => (hself p hp).1) fun p hp => (hself p hp).2
  have hg₃ := h₃.grows hconcerns.2.2 hns.2.2
  refine ⟨t₁.cells.size, (t₁.after c?).cells.size, hg₁.size_le, hg₂.size_le,
    size_after_declares hplan, hg₃.size_le, fun id hle hlt => ⟨fun ha => ?_, fun ha hb => ?_,
    fun hb => ?_⟩⟩
  · obtain ⟨p, hp, hmakes⟩ := h₁.exists_makes hconcerns.1 hns.1 hle ha
    rw [(hg₂.trans hg₃).category_eq ha]
    rw [importPasses] at hp
    split at hp
    · cases hp
    · rw [List.mem_singleton.1 hp] at hmakes
      exact (Option.some.inj hmakes).symm
  · obtain ⟨p, hp, hmakes⟩ := h₂.exists_makes (fun p hp => (hself p hp).1)
      (fun p hp => (hself p hp).2) ha hb
    rw [hg₃.category_eq hb]
    rw [List.mem_singleton.1 hp] at hmakes
    cases d <;> rw [← Option.some.inj hmakes] <;> rfl
  · obtain ⟨p, hp, hmakes⟩ := h₃.exists_makes hconcerns.2.2 hns.2.2 hb hlt
    rcases isMember_of_mem_details hp with hnone | ⟨c, hc, hmember⟩
    · rw [hnone] at hmakes
      cases hmakes
    · rw [hc] at hmakes
      rwa [← Option.some.inj hmakes]

/-- Up to the namespace, a run adds one directive at most, and then one namespace at most. -/
theorem forms_of_opening {t₁ t₂ : Tree} {strict : Bool} {scope? name? : Option String}
    (h₁ : Pipeline.Leads (if strict then [.strictTypes] else []) t t₁)
    (h₂ : Pipeline.Leads (scope?.map Pass.namespaceDecl).toList t₁ t₂) :
    t.cells.size ≤ t₁.cells.size ∧ t₁.cells.size ≤ t.cells.size + 1 ∧
      t₁.cells.size ≤ t₂.cells.size ∧ t₂.cells.size ≤ t₁.cells.size + 1 ∧
        ∀ id, t.cells.size ≤ id → id < t₂.cells.size → t₂.AtHome name? id ∧
          (id < t₁.cells.size → t₂.category id = .directive) ∧
            (t₁.cells.size ≤ id → t₂.category id = .namespaceDecl) := by
  rw [Pipeline.leads_strict] at h₁
  rw [Pipeline.leads_namespace] at h₂
  -- A directive that is new stands at the front.
  have hstrict : t.cells.size ≤ t₁.cells.size ∧ t₁.cells.size ≤ t.cells.size + 1 ∧
      ∀ id, t.cells.size ≤ id → id < t₁.cells.size → t₁.category id = .directive ∧
        id ∈ (t₁.children Tree.root).take (leadingDirectives t₁ Tree.root) := by
    rw [h₁]
    split
    · rw [Tree.size_insertNodes]
      refine ⟨Nat.le_add_right _ _, Nat.le_refl _, fun id hle hlt => ?_⟩
      obtain rfl : id = t.cells.size := Nat.le_antisymm (Nat.le_of_lt_succ hlt) hle
      refine ⟨?_, Pipeline.mem_leading_strictDirective⟩
      rw [Tree.category, Pipeline.node_strictDirective]
      rfl
    · exact ⟨Nat.le_refl _, Nat.le_succ _, fun id hle hlt => absurd hlt (Nat.not_lt.2 hle)⟩
  obtain ⟨hle₁, hsize₁, hfront⟩ := hstrict
  rcases h₂ with ⟨rfl, -⟩ | ⟨-, name, -, rfl⟩
  · refine ⟨hle₁, hsize₁, Nat.le_refl _, Nat.le_succ _, fun id hle hlt => ?_⟩
    obtain ⟨hcat, hmem⟩ := hfront id hle hlt
    refine ⟨⟨Tree.root, by rw [hcat]; rfl, List.mem_of_mem_take hmem⟩, fun _ => hcat, fun hge => ?_⟩
    exact absurd hlt (Nat.not_lt.2 hge)
  · rw [Tree.size_wrapped]
    refine ⟨hle₁, hsize₁, Nat.le_succ _, Nat.le_refl _, fun id hle hlt => ?_⟩
    rcases Nat.lt_or_ge id t₁.cells.size with hold | hnew
    · obtain ⟨hcat, hmem⟩ := hfront id hle hold
      have hcat' : (t₁.wrapped (Name.bare name)).category id = .directive := by
        rw [Tree.category, Tree.node_wrapped, if_neg (Nat.ne_of_lt hold)]
        exact hcat
      refine ⟨⟨Tree.root, by rw [hcat']; rfl, ?_⟩, fun _ => hcat', fun hge => ?_⟩
      · rw [Tree.children_wrapped_root]
        exact List.mem_append_left _ hmem
      · exact absurd hold (Nat.not_lt.2 hge)
    · obtain rfl : id = t₁.cells.size := Nat.le_antisymm (Nat.le_of_lt_succ hlt) hnew
      have hcat : (t₁.wrapped (Name.bare name)).category t₁.cells.size = .namespaceDecl := by
        rw [Tree.category, Tree.node_wrapped, if_pos rfl]
        rfl
      refine ⟨⟨Tree.root, by rw [hcat]; rfl, ?_⟩, fun hlt => ?_, fun _ => hcat⟩
      · rw [Tree.children_wrapped_root]
        exact List.mem_append_right _ (List.mem_singleton_self _)
      · exact absurd hlt (Nat.lt_irrefl _)

/-- What is new after a run, in the order in which it came: one directive at most, one namespace at
most, imports, one declaration at most, and members. Each stands where it belongs. -/
theorem forms_of_passes (h : d.passes.Leads t t') :
    ∃ a b e f : Nat, t.cells.size ≤ a ∧ a ≤ t.cells.size + 1 ∧ a ≤ b ∧ b ≤ a + 1 ∧ b ≤ e ∧ e ≤ f ∧
      f ≤ e + 1 ∧
      ∀ id, t.cells.size ≤ id → id < t'.cells.size → t'.AtHome d.name? id ∧
        (id < a ∧ t'.category id = .directive ∨
          (a ≤ id ∧ id < b) ∧ t'.category id = .namespaceDecl ∨
            (b ≤ id ∧ id < e) ∧ t'.category id = .useDecl ∨
              (e ≤ id ∧ id < f) ∧ (t'.category id).isClassLike = true ∨
                f ≤ id ∧ (t'.category id).memberRank?.isSome = true) := by
  rw [passes_eq, Pipeline.leads_append] at h
  obtain ⟨t₁, h₁, h⟩ := h
  obtain ⟨t₂, h₂, h₃⟩ := Pipeline.leads_append.1 h
  have hns := fun p (hp : p ∈ d.inner) => (makes_of_mem_inner hp).1
  have hgrows := h₃.grows d.concerns_inner hns
  obtain ⟨hle₁, hsize₁, hle₂, hsize₂, hopening⟩ :=
    @forms_of_opening t t₁ t₂ d.parts.strict d.parts.scope? d.name? h₁ h₂
  obtain ⟨e, f, hle₃, hle₄, hsize₄, hle₅, hinner⟩ := forms_of_inner h₃
  refine ⟨t₁.cells.size, t₂.cells.size, e, f, hle₁, hsize₁, hle₂, hsize₂, hle₃, hle₄, hsize₄,
    fun id hle hlt => ?_⟩
  rcases Nat.lt_or_ge id t₂.cells.size with hold | hnew
  · obtain ⟨hhome, hdirective, hnamespace⟩ := hopening id hle hold
    rw [hgrows.category_eq hold]
    refine ⟨hgrows.atHome hold hhome, ?_⟩
    rcases Nat.lt_or_ge id t₁.cells.size with ha | ha
    · exact .inl ⟨ha, hdirective ha⟩
    · exact .inr (.inl ⟨⟨ha, hold⟩, hnamespace ha⟩)
  · obtain ⟨huse, hclass, hmember⟩ := hinner id hnew hlt
    refine ⟨h₃.atHome d.concerns_inner hns hnew hlt, .inr (.inr ?_)⟩
    rcases Nat.lt_or_ge id e with he | he
    · exact .inl ⟨⟨hnew, he⟩, huse he⟩
    · rcases Nat.lt_or_ge id f with hf | hf
      · exact .inr (.inl ⟨⟨he, hf⟩, hclass he hf⟩)
      · exact .inr (.inr ⟨hf, hmember hf⟩)

end Declaration

/-- The nodes that are reached in the second tree, but not in the first one. -/
def Tree.newIn (t t' : Tree) : Set Nat := {id | t'.Reached id ∧ ¬t.Reached id}

namespace Declaration

variable {d : Declaration} {t t' : Tree}

/-- A run that succeeds leaves a closed tree closed. -/
theorem closed_of_leads {ps : Pipeline} (hps : ∀ p ∈ ps, p.Concerns d.name?) (hc : t.Closed)
    (h : ps.Leads t t') : t'.Closed :=
  h.induction (fun p hp _ _ hs hplan => Slot.closed_of_step hs (passStep_of_plan (hps p hp) hplan))
    hc

/-- What a run brings into reach was not stored before. -/
theorem le_of_mem_newIn (hc : t.Closed) (h : d.passes.Leads t t') {id : Nat}
    (hid : id ∈ t.newIn t') : t.cells.size ≤ id ∧ id < t'.cells.size := by
  obtain ⟨hreached, hnew⟩ := hid
  obtain ⟨records, hrun⟩ := h
  have hgrows := d.growsWrapped_realize t
  rw [realize, hrun] at hgrows
  refine ⟨Nat.le_of_not_lt fun hlt => hnew (hreached.of_growsWrapped hgrows hlt), ?_⟩
  exact hreached.lt (closed_of_leads d.concerns_passes hc ⟨records, hrun⟩)

/-- After a run that succeeds, the declaration is there. -/
theorem isSome_find_of_leads (h : d.passes.Leads t t') :
    (t'.findClassLike? d.name?).isSome = true := by
  rw [passes_eq, Pipeline.leads_append] at h
  obtain ⟨t₁, -, h⟩ := h
  obtain ⟨t₂, -, h₃⟩ := Pipeline.leads_append.1 h
  have hsettled := h₃.settled d.concerns_inner (fun p hp => (makes_of_mem_inner hp).1) d.declares
    (List.mem_append_right _ List.mem_cons_self)
  have hfound : ∀ {name? kind doc? attributes},
      planDeclaration t' name? kind doc? attributes = .ok none →
        (t'.findClassLike? name?).isSome = true := by
    intro _ _ _ _ hplan
    obtain ⟨hsome, -⟩ | ⟨-, _, -, hc⟩ := planDeclaration_eq_ok.1 hplan
    · exact hsome
    · cases hc
  cases d with
  | ofClass c => exact hfound hsettled
  | ofInterface i => exact hfound hsettled

/-- How often a slot has a name after a run that succeeds. -/
theorem count_of_leads (hc : t.Closed) (h : d.passes.Leads t t') (s : Slot) (name : String) :
    s.count d.name? t' name =
      if 0 < s.count d.name? t name then s.count d.name? t name
      else if d.holds s name then 1 else 0 := by
  have hfills := h.fills (s := s) d.concerns_passes hc (s.keyOf name)
  rw [any_wants_passes] at hfills
  unfold Slot.count
  simp only [s.same_eq]
  exact hfills

/-- The forms of the nodes that a run brings into reach: those of names that are kept in slots, and
one directive, one namespace and one declaration at most. -/
theorem forms_of_newIn (hc : t.Closed) (h : d.passes.Leads t t') :
    (∀ id ∈ t.newIn t', t'.AtHome d.name? id ∧
        ((∃ s : Slot, s.category? = some (t'.category id)) ∨ t'.category id = .directive ∨
          t'.category id = .namespaceDecl ∨ (t'.category id).isClassLike = true)) ∧
      {id ∈ t.newIn t' | t'.category id = .directive}.Subsingleton ∧
      {id ∈ t.newIn t' | t'.category id = .namespaceDecl}.Subsingleton ∧
      {id ∈ t.newIn t' | (t'.category id).isClassLike = true}.Subsingleton := by
  obtain ⟨a, b, e, f, -, hat, -, hba, -, -, hfe, hforms⟩ := forms_of_passes h
  have hnew : ∀ id ∈ t.newIn t', _ := fun id hid =>
    hforms id (le_of_mem_newIn hc h hid).1 (le_of_mem_newIn hc h hid).2
  -- Each of the three forms belongs to one stage of the run, which adds one node at most.
  have hdirective : ∀ id ∈ t.newIn t', t'.category id = .directive →
      t.cells.size ≤ id ∧ id < a := by
    intro id hid hcat
    have hle := (le_of_mem_newIn hc h hid).1
    have hforms := (hnew id hid).2
    rw [hcat] at hforms
    simpa [hle, Category.isClassLike, Category.memberRank?] using hforms
  have hnamespace : ∀ id ∈ t.newIn t', t'.category id = .namespaceDecl → a ≤ id ∧ id < b := by
    intro id hid hcat
    have hforms := (hnew id hid).2
    rw [hcat] at hforms
    simpa [Category.isClassLike, Category.memberRank?] using hforms
  have hclass : ∀ id ∈ t.newIn t', (t'.category id).isClassLike = true → e ≤ id ∧ id < f := by
    intro id hid hcat
    rcases (hnew id hid).2 with hform | hform | hform | hform | ⟨-, hform⟩
    · rw [hform.2] at hcat
      cases hcat
    · rw [hform.2] at hcat
      cases hcat
    · rw [hform.2] at hcat
      cases hcat
    · exact hform.1
    · rw [isClassLike_of_memberRank? hform] at hcat
      cases hcat
  refine ⟨fun id hid => ⟨(hnew id hid).1, ?_⟩, fun x hx y hy => ?_, fun x hx y hy => ?_,
    fun x hx y hy => ?_⟩
  · rcases (hnew id hid).2 with hform | hform | hform | hform | ⟨-, hform⟩
    · exact .inr (.inl hform.2)
    · exact .inr (.inr (.inl hform.2))
    · exact .inl ⟨.imports, hform.2 ▸ rfl⟩
    · exact .inr (.inr (.inr hform.2))
    · left
      cases hcat : t'.category id <;> rw [hcat] at hform <;> cases hform
      · exact ⟨.traits, rfl⟩
      · exact ⟨.constants, rfl⟩
      · exact ⟨.properties, rfl⟩
      · exact ⟨.methods, rfl⟩
  · have hbx := hdirective x hx.1 hx.2
    have hby := hdirective y hy.1 hy.2
    omega
  · have hbx := hnamespace x hx.1 hx.2
    have hby := hnamespace y hy.1 hy.2
    omega
  · have hbx := hclass x hx.1 hx.2
    have hby := hclass y hy.1 hy.2
    omega

end Declaration

/-- Realizing a declaration adds exactly what the file lacks of it. The declaration is there
afterwards. Of each name, a slot has as many as before if it had any, and else one if the declaration
holds the name. A class keeps the parent that it had, and else it has that of the declaration. And
whatever comes into reach stands where it belongs: it is a name of a slot, or one directive, one
namespace or one declaration at most. -/
theorem realize_fills (d : Declaration) (t t' : Tree) (records : List PassRecord) (hc : t.Closed)
    (h : d.realize.on t = (.ok records, t')) :
    (t'.findClassLike? d.name?).isSome = true ∧
      (∀ s name, s.count d.name? t' name =
        if 0 < s.count d.name? t name then s.count d.name? t name
        else if d.holds s name then 1 else 0) ∧
      t'.extends? d.name? = (t.extends? d.name?).or d.parent? ∧
      (∀ id ∈ t.newIn t', t'.AtHome d.name? id ∧
        ((∃ s : Slot, s.category? = some (t'.category id)) ∨ t'.category id = .directive ∨
          t'.category id = .namespaceDecl ∨ (t'.category id).isClassLike = true)) ∧
      {id ∈ t.newIn t' | t'.category id = .directive}.Subsingleton ∧
      {id ∈ t.newIn t' | t'.category id = .namespaceDecl}.Subsingleton ∧
      {id ∈ t.newIn t' | (t'.category id).isClassLike = true}.Subsingleton := by
  have hleads : d.passes.Leads t t' := ⟨records, h⟩
  refine ⟨d.isSome_find_of_leads hleads, d.count_of_leads hc hleads, ?_,
    d.forms_of_newIn hc hleads⟩
  rw [hleads.extends?_eq d.concerns_passes hc, d.flatMap_wants_passes]
  cases d with
  | ofClass c => cases hp : c.parent? <;> simp [Declaration.parent?, hp]
  | ofInterface i => rfl

/-- A class with a parent and two imports. -/
def importingClass : Declaration :=
  .ofClass { ClassSpec.new "A" with
    parent? := some "Base"
    imports := .ofList [.ofName "App\\B", .ofName "App\\C"] }

/-- A file that has one of the two imports in another spelling. -/
def importingFile : Outline := .file [.leaf { kind := .useDecl "app\\b" none }]

/-- The import that is there is not added again, and the other one is. -/
theorem realize_fills_importing :
    ∃ records t', importingClass.realize.on (.ofOutline importingFile) = (.ok records, t') ∧
      Slot.imports.count (some "A") t' "App\\B" = 1 ∧
      Slot.imports.count (some "A") t' "App\\C" = 1 ∧ t'.extends? (some "A") = some "Base" := by
  have hok : (importingClass.realize.on (.ofOutline importingFile)).1.isOk = true := by
    decide +kernel
  rcases hrun : importingClass.realize.on (.ofOutline importingFile) with ⟨e | records, t'⟩
  · rw [hrun] at hok
    cases hok
  · obtain ⟨-, hcount, hextends, -⟩ :=
      realize_fills importingClass _ t' records (Tree.closed_ofOutline _) hrun
    exact ⟨records, t', rfl, (hcount .imports "App\\B").trans (by decide +kernel),
      (hcount .imports "App\\C").trans (by decide +kernel),
      hextends.trans (by decide +kernel)⟩

end PhpGraft

import PhpGraft.Proofs.Graft.Growth

/-!
# Runs

What a pass plans is taken apart once for each form of plan (`planHead_eq_ok`, `planMember_eq_ok`
and so on). From that follows what one pass can do to a tree (`PassStep`): it attaches leaves of its
form, lets the head of the declaration grow, or wraps a file that has no namespace. A run repeats
such steps, and as no file is wrapped twice, a run is a growth, at most one wrapping, and a growth
again (`growsWrapped_run`), whether it ends at its last pass or at an error.
-/

namespace PhpGraft

open Edit

/-! ## Where members go -/

/-- The last element that satisfies a test is an element. -/
theorem Edit.lt_of_lastIndex? {α : Type} {p : α → Bool} {l : List α} {i : Nat}
    (h : lastIndex? p l = some i) : i < l.length := by
  unfold lastIndex? at h
  obtain ⟨j, hj, rfl⟩ := Option.map_eq_some_iff.1 h
  have := (List.findIdx?_eq_some_iff_getElem.1 hj).1
  rw [List.length_reverse] at this
  omega

/-- A member goes ahead of some other one or behind all of them. -/
theorem Edit.insertIndex_le (ranks : List (Option Nat)) (rank : Nat) :
    insertIndex ranks rank ≤ ranks.length := by
  unfold insertIndex
  split
  · next last h =>
    obtain ⟨r, -, hr⟩ := List.exists_of_findSome?_eq_some h
    exact lt_of_lastIndex? hr
  · cases h : ranks.findIdx? fun r => r.any (rank < ·) with
    | none => simp
    | some i =>
      have := (List.findIdx?_eq_some_iff_getElem.1 h).1
      simpa using Nat.le_of_lt this

/-- A member goes ahead of some child or behind all of them. -/
theorem Edit.memberIndex_le (t : Tree) (parent : Nat) (c : Category) :
    memberIndex t parent c ≤ (t.children parent).length := by
  unfold memberIndex
  split
  · simp
  · have := insertIndex_le ((t.children parent).map fun id => (t.category id).memberRank?)
    simpa using this _

/-! ## What is realized -/

/-- A member specification gives nodes of one form and name. -/
def Realizes (realize : Bool → Except Error Node) (c : Category) (name : String) : Prop :=
  ∀ inInterface n, realize inInterface = .ok n → n.category = c ∧ n.name? = some name

/-- A constant is realized as a constant of its name. -/
theorem ConstSpec.realizes (c : ConstSpec) : Realizes (fun _ => c.realize) .constDecl c.name := by
  intro inInterface n h
  simp only [realize, bind, Except.bind, pure, Except.pure] at h
  split at h
  · cases h
  · split at h
    · cases h
    · cases h
      exact ⟨rfl, rfl⟩

/-- A property is realized as a property of its name. -/
theorem PropertySpec.realizes (p : PropertySpec) :
    Realizes (fun _ => p.realize) .propertyDecl p.name := by
  intro inInterface n h
  simp only [realize, bind, Except.bind, pure, Except.pure] at h
  split at h
  · cases h
  · split at h
    · cases h
    · cases h
      exact ⟨rfl, rfl⟩

/-- A method is realized as a method of its name. -/
theorem MethodSpec.realizes (m : MethodSpec) : Realizes m.realize .methodDecl m.name := by
  intro inInterface n h
  simp only [realize, bind, Except.bind, pure, Except.pure] at h
  split at h
  · cases h
  · split at h
    · cases h
    · split at h
      · cases h
      · cases h
        exact ⟨rfl, rfl⟩

/-! ## What is planned -/

section Plans

variable {name? : Option String} {t : Tree} {c? : Option Change}

/-- The head of a declaration is planned from the head that it has. -/
theorem planHead_eq_ok {f : NodeKind → Except Error (Option NodeKind)} :
    planHead t name? f = .ok c? ↔
      ∃ id, t.findClassLike? name? = some id ∧
        ∃ kind?, f (t.node id).kind = .ok kind? ∧ c? = kind?.map (.head id) := by
  unfold planHead
  cases t.findClassLike? name? with
  | none => simp
  | some id =>
    cases hf : f (t.node id).kind with
    | error e => simp [hf, Except.map]
    | ok kind? => simp [hf, Except.map, eq_comm (b := c?)]

/-- A member is planned where there is none of its name. -/
theorem planMember_eq_ok {c : Category} {same : String → Bool}
    {realize : Bool → Except Error Node} :
    planMember t name? c same realize = .ok c? ↔
      ∃ id, t.findClassLike? name? = some id ∧
        (hasMember t id c same = true ∧ c? = none ∨
          hasMember t id c same = false ∧
            ∃ n, realize (t.category id == .interfaceDecl) = .ok n ∧
              c? = some (.insert id (memberIndex t id n.category) [n])) := by
  unfold planMember
  cases t.findClassLike? name? with
  | none => simp
  | some id =>
    cases hm : hasMember t id c same with
    | true => simp [hm, eq_comm (b := c?)]
    | false =>
      cases hr : realize (t.category id == .interfaceDecl) with
      | error e => simp [hm, hr, Except.map]
      | ok n => simp [hm, hr, Except.map, eq_comm (b := c?)]

/-- The leaves for the traits that a class lacks. -/
def traitNodes (missing : List String) : List Node :=
  missing.map fun name => { kind := .traitUse [name] none }

/-- Traits are planned for a class that lacks some. -/
theorem planTraits_eq_ok {names : List String} :
    planTraits t name? names = .ok c? ↔
      ∃ id, t.findClassLike? name? = some id ∧ t.category id = .classDecl ∧
        c? = if (Name.missing (fun name => name) (usedTraits t id) names).isEmpty then none
          else some (.insert id 0
            (traitNodes (Name.missing (fun name => name) (usedTraits t id) names))) := by
  unfold planTraits
  cases t.findClassLike? name? with
  | none => simp
  | some id =>
    by_cases hc : t.category id = .classDecl
    · simp [hc, eq_comm (b := c?), traitNodes]
    · simp [hc]

/-- A declaration is planned where there is none of its name. -/
theorem planDeclaration_eq_ok {kind : NodeKind} {doc? : Option String}
    {attributes : List AttributeSpec} :
    planDeclaration t name? kind doc? attributes = .ok c? ↔
      (t.findClassLike? name?).isSome = true ∧ c? = none ∨
        t.findClassLike? name? = none ∧ ∃ realized, realizeAttributes attributes = .ok realized ∧
          c? = some (.insert t.scope (t.children t.scope).length
            [{ kind, doc? := renderSummary? doc?, attributes := realized }]) := by
  unfold planDeclaration
  cases t.findClassLike? name? with
  | some id => simp [eq_comm (b := c?)]
  | none =>
    cases realizeAttributes attributes with
    | error e => simp [Except.map]
    | ok realized => simp [Except.map, eq_comm (b := c?)]

end Plans

/-! ## What a pass can do -/

/-- Missing names go behind those that are known. -/
theorem Edit.appendMissing?_eq_some {known wanted names : List String}
    (h : appendMissing? known wanted = some names) :
    names = known ++ Name.missing id known wanted := by
  unfold appendMissing? at h
  dsimp only at h
  split at h
  · cases h
  · exact (Option.some.inj h).symm

/-- Giving a class a parent lets its head grow. -/
theorem headGrows_of_withParent {name? : Option String} {parent : String} {k k' : NodeKind}
    (h : classHead name? (withParent name? parent) k = .ok (some k')) : HeadGrows k k' := by
  cases k with
  | classDecl d =>
    unfold classHead withParent at h
    cases hp : d.parent? with
    | none =>
      simp only [hp, Except.map, Option.map_some, Except.ok.injEq, Option.some.injEq] at h
      exact h ▸ .ofClass rfl rfl (.inl hp) (List.prefix_refl _)
    | some existing =>
      simp only [hp] at h
      split at h <;> simp [Except.map] at h
  | _ => cases h

/-- Giving a class interfaces lets its head grow. -/
theorem headGrows_of_withInterfaces? {name? : Option String} {names : List String}
    {k k' : NodeKind}
    (h : classHead name? (fun d => .ok (withInterfaces? names d)) k = .ok (some k')) :
    HeadGrows k k' := by
  cases k with
  | classDecl d =>
    simp only [classHead, Except.map, Except.ok.injEq, Option.map_eq_some_iff] at h
    obtain ⟨d', hd', rfl⟩ := h
    obtain ⟨l, hl, rfl⟩ := Option.map_eq_some_iff.1 hd'
    rw [appendMissing?_eq_some hl]
    exact .ofClass rfl rfl (.inr rfl) (List.prefix_append _ _)
  | _ => cases h

/-- Giving an interface parents lets its head grow. -/
theorem headGrows_of_withParents? {name : String} {names : List String} {k k' : NodeKind}
    (h : interfaceHead name (withParents? names) k = .ok (some k')) : HeadGrows k k' := by
  cases k with
  | interfaceDecl d =>
    simp only [interfaceHead, Except.ok.injEq, Option.map_eq_some_iff] at h
    obtain ⟨d', hd', rfl⟩ := h
    obtain ⟨l, hl, rfl⟩ := Option.map_eq_some_iff.1 hd'
    rw [appendMissing?_eq_some hl]
    exact .ofInterface rfl (List.prefix_append _ _)
  | _ => cases h

/-- Whether a pass is about no other declaration than the one of a name. -/
def Pass.Concerns (name? : Option String) : Pass → Prop
  | strictTypes | namespaceDecl _ | imports _ => True
  | classDecl class? _ _ _ | parent class? _ | interfaces class? _ | traits class? _
  | constant class? _ | property class? _ | method class? _ => class? = name?
  | interfaceDecl name _ _ | interfaceParents name _ => some name = name?

/-- The form of the nodes that a pass adds, if it adds any. -/
def Pass.makes? : Pass → Option Category
  | strictTypes => some .directive
  | namespaceDecl _ => some .namespaceDecl
  | imports _ => some .useDecl
  | classDecl _ _ _ _ => some .classDecl
  | interfaceDecl _ _ _ => some .interfaceDecl
  | parent _ _ | interfaces _ _ | interfaceParents _ _ => none
  | traits _ _ => some .traitUse
  | constant _ _ => some .constDecl
  | property _ _ => some .propertyDecl
  | method _ _ => some .methodDecl

/-- The interfaces of a class, or the parents of an interface. -/
def NodeKind.heritage : NodeKind → List String
  | classDecl d => d.interfaces
  | interfaceDecl d => d.parents
  | _ => []

/-- The parent of a class that has one. -/
def NodeKind.extends? : NodeKind → Option String
  | classDecl d => d.parent?
  | _ => none

/-- The node under which the declaration of a name and what belongs to it is looked for, by form. -/
def Tree.home? (t : Tree) (name? : Option String) : Category → Option Nat
  | .directive | .namespaceDecl => some root
  | .useDecl | .classDecl | .interfaceDecl => some t.scope
  | _ => t.findClassLike? name?

/-- What a pass that makes nodes of a form can do to a tree. -/
inductive PassStep (name? : Option String) (t : Tree) (makes? : Option Category) : Change → Prop
  /-- Leaves of its form are attached to the node where they belong; a declaration only where there
  is none of the name, and without a parent or interfaces. -/
  | insert {parent index : Nat} {nodes : List Node} (stored : parent < t.cells.size)
      (place : index ≤ (t.children parent).length)
      (form : ∀ n ∈ nodes, makes? = some n.category) (inside : makes? ≠ some .namespaceDecl)
      (home : ∀ c, makes? = some c → t.home? name? c = some parent)
      (fresh : makes?.any Category.isClassLike = true → t.findClassLike? name? = none)
      (bare : ∀ n ∈ nodes, n.kind.heritage = [] ∧ n.kind.extends? = none) :
      PassStep name? t makes? (.insert parent index nodes)
  /-- The head of the declaration of the name grows. -/
  | head {id : Nat} {kind : NodeKind} (found : t.findClassLike? name? = some id)
      (grows : HeadGrows (t.node id).kind kind) (form : makes? = none) :
      PassStep name? t makes? (.head id kind)
  /-- A file without a namespace is wrapped in one. -/
  | wrap (name : String) (bare : t.namespace? = none) (form : makes? = some .namespaceDecl) :
      PassStep name? t makes? (.wrap name)

section Step

variable {name? : Option String} {t : Tree} {c : Change}

/-- Planning a head is a step if the head grows. -/
theorem PassStep.of_planHead {f : NodeKind → Except Error (Option NodeKind)}
    (hf : ∀ k k', f k = .ok (some k') → HeadGrows k k')
    (h : planHead t name? f = .ok (some c)) : PassStep name? t none c := by
  obtain ⟨id, hfound, kind?, hkind, hc⟩ := planHead_eq_ok.1 h
  obtain ⟨kind, rfl, rfl⟩ := Option.map_eq_some_iff.1 hc.symm
  exact .head hfound (hf _ _ hkind) rfl

/-- What is neither a class nor an interface has neither parents nor interfaces. -/
theorem bare_of_isClassLike {n : Node} (h : n.category.isClassLike = false) :
    n.kind.heritage = [] ∧ n.kind.extends? = none := by
  unfold Node.category at h
  cases hk : n.kind with
  | classDecl | interfaceDecl => rw [hk] at h; cases h
  | _ => exact ⟨rfl, rfl⟩

/-- Members are neither classes nor interfaces. -/
theorem isClassLike_of_memberRank? {c : Category} (h : c.memberRank?.isSome = true) :
    c.isClassLike = false := by
  cases c <;> first | rfl | cases h

/-- Planning a member is a step. -/
theorem PassStep.of_planMember {cat : Category} {name : String} {same : String → Bool}
    {realize : Bool → Except Error Node} (hr : Realizes realize cat name)
    (hcat : cat.memberRank?.isSome = true)
    (h : planMember t name? cat same realize = .ok (some c)) :
    PassStep name? t (some cat) c := by
  have hclass := isClassLike_of_memberRank? hcat
  obtain ⟨id, hfound, ⟨-, hc⟩ | ⟨-, n, hn, hc⟩⟩ := planMember_eq_ok.1 h
  · cases hc
  · obtain rfl := Option.some.inj hc
    have hform : ∀ m ∈ [n], m.category = cat := fun m hm => by
      rw [List.mem_singleton.1 hm, (hr _ n hn).1]
    refine .insert (lt_of_find hfound) (memberIndex_le t id _) (fun m hm => ?_)
      (fun he => ?_) (fun c hc => ?_) (fun hlike => ?_) (fun m hm => ?_)
    · rw [hform m hm]
    · rw [Option.some.inj he] at hcat
      cases hcat
    · obtain rfl := Option.some.inj hc
      cases cat <;> first | exact hfound | cases hcat
    · rw [Option.any_some, hclass] at hlike
      exact absurd hlike Bool.false_ne_true
    · exact bare_of_isClassLike (by rw [hform m hm, hclass])

/-- Planning a declaration is a step. -/
theorem PassStep.of_planDeclaration {kind : NodeKind} {doc? : Option String}
    {attributes : List AttributeSpec} (hkind : kind.category.isClassLike = true)
    (hbare : kind.heritage = [] ∧ kind.extends? = none)
    (h : planDeclaration t name? kind doc? attributes = .ok (some c)) :
    PassStep name? t (some kind.category) c := by
  obtain ⟨-, hc⟩ | ⟨hnone, _, _, hc⟩ := planDeclaration_eq_ok.1 h
  · cases hc
  · obtain rfl := Option.some.inj hc
    refine .insert Tree.scope_lt (Nat.le_refl _) (fun n hn => ?_) (fun he => ?_)
      (fun c hc => ?_) (fun _ => hnone) (fun n hn => ?_)
    · rw [List.mem_singleton.1 hn]
      rfl
    · rw [Option.some.inj he] at hkind
      cases hkind
    · rw [Option.some.inj hc] at hkind
      cases c <;> first | rfl | cases hkind
    · rw [List.mem_singleton.1 hn]
      exact hbare

/-- What a pass plans is a step. -/
theorem passStep_of_plan {p : Pass} (hp : p.Concerns name?) (h : p.plan t = .ok (some c)) :
    PassStep name? t p.makes? c := by
  cases p with
  | strictTypes =>
    simp only [Pass.plan, Except.ok.injEq] at h
    split at h
    · cases h
    · obtain rfl := Option.some.inj h
      refine .insert Tree.root_lt (Nat.zero_le _) (fun n hn => ?_) (by decide) (fun c hc => ?_)
        (fun hlike => ?_) (fun n hn => ?_)
      · rw [List.mem_singleton.1 hn]
        rfl
      · obtain rfl := Option.some.inj hc
        rfl
      · cases hlike
      · rw [List.mem_singleton.1 hn]
        exact ⟨rfl, rfl⟩
  | namespaceDecl name =>
    simp only [Pass.plan, Except.ok.injEq] at h
    split at h
    · cases h
    · next hns =>
      obtain rfl := Option.some.inj h
      exact .wrap _ (Option.not_isSome_iff_eq_none.1 hns) rfl
  | imports l =>
    simp only [Pass.plan, planImports, Except.ok.injEq] at h
    split at h
    · cases h
    · obtain rfl := Option.some.inj h
      refine .insert Tree.scope_lt Tree.leadingDirectives_le (fun n hn => ?_)
        (by simp [Pass.makes?]) (fun c hc => ?_) (fun hlike => ?_) (fun n hn => ?_)
      · obtain ⟨i, -, rfl⟩ := List.mem_map.1 hn
        rfl
      · obtain rfl := Option.some.inj hc
        rfl
      · cases hlike
      · obtain ⟨i, -, rfl⟩ := List.mem_map.1 hn
        exact ⟨rfl, rfl⟩
  | traits class? names =>
    subst hp
    obtain ⟨id, hfound, -, hc⟩ := planTraits_eq_ok.1 h
    split at hc
    · cases hc
    · obtain rfl := Option.some.inj hc
      refine .insert (lt_of_find hfound) (Nat.zero_le _) (fun n hn => ?_)
        (by simp [Pass.makes?]) (fun c hc => ?_) (fun hlike => ?_) (fun n hn => ?_)
      · obtain ⟨name, -, rfl⟩ := List.mem_map.1 hn
        rfl
      · obtain rfl := Option.some.inj hc
        exact hfound
      · cases hlike
      · obtain ⟨name, -, rfl⟩ := List.mem_map.1 hn
        exact ⟨rfl, rfl⟩
  | classDecl class? modifiers doc? attributes =>
    subst hp
    exact .of_planDeclaration rfl ⟨rfl, rfl⟩ h
  | interfaceDecl name doc? attributes =>
    subst hp
    exact .of_planDeclaration rfl ⟨rfl, rfl⟩ h
  | parent class? name =>
    subst hp
    exact .of_planHead (fun _ _ => headGrows_of_withParent) h
  | interfaces class? names =>
    subst hp
    exact .of_planHead (fun _ _ => headGrows_of_withInterfaces?) h
  | interfaceParents name names =>
    subst hp
    exact .of_planHead (fun _ _ => headGrows_of_withParents?) h
  | constant class? spec =>
    subst hp
    exact .of_planMember spec.realizes rfl h
  | property class? spec =>
    subst hp
    exact .of_planMember spec.realizes rfl h
  | method class? spec =>
    subst hp
    exact .of_planMember spec.realizes rfl h

namespace PassStep

variable {makes? : Option Category}

/-- A step that makes no namespace lets the tree grow. -/
theorem grows (h : PassStep name? t makes? c) (hw : makes? ≠ some .namespaceDecl) :
    Grows name? t (c.apply t) := by
  cases h with
  | insert stored place form _ _ fresh =>
    refine grows_insertNodes stored place (fun n hn he => ?_) ?_
    · rw [form n hn, he] at hw
      exact hw rfl
    · by_cases hlike : makes?.any Category.isClassLike = true
      · exact .inl (fresh hlike)
      · refine .inr fun n hn => Bool.eq_false_iff.2 fun hname => hlike ?_
        rw [form n hn]
        exact isClassLike_category hname
  | head found grows => exact grows_head found grows
  | wrap name _ form => exact absurd form hw

/-- A step lets the tree grow, or wraps its statements in a namespace that it did not have. -/
theorem grows_or_wraps (h : PassStep name? t makes? c) :
    Grows name? t (c.apply t) ∨ t.namespace? = none ∧ ∃ name, c.apply t = t.wrapped name := by
  by_cases hw : makes? = some .namespaceDecl
  · cases h with
    | insert _ _ _ inside => exact absurd hw inside
    | head found grows => exact .inl (grows_head found grows)
    | wrap name bare => exact .inr ⟨bare, name, rfl⟩
  · exact .inl (h.grows hw)

/-- The nodes that a step adds have the form that it makes. -/
theorem category_eq (h : PassStep name? t makes? c) {id : Nat} (hid : t.cells.size ≤ id)
    (hlt : id < (c.apply t).cells.size) : makes? = some ((c.apply t).category id) := by
  cases h with
  | @insert parent index nodes _ _ form =>
    simp only [Change.apply, Tree.size_insertNodes] at hlt
    have hmem := List.mem_map_of_mem (f := (t.insertNodes parent index nodes).node)
      (Tree.mem_freshIds_of_le hid hlt)
    rw [Tree.map_node_freshIds] at hmem
    exact form _ hmem
  | head =>
    simp only [Change.apply, Tree.size_modifyNode] at hlt
    omega
  | wrap name _ form =>
    simp only [Change.apply, Tree.size_wrapped] at hlt
    have hnew : id = t.cells.size := by omega
    rw [form, Change.apply, Tree.category, Tree.node_wrapped, if_pos hnew]
    rfl

end PassStep

end Step

/-! ## What a run can do -/

/-- The tree after the change that was planned, if one was. -/
def Tree.after (t : Tree) : Option Change → Tree
  | none => t
  | some c => c.apply t

/-- What a pass says about the change that it planned. -/
def Pass.record (p : Pass) : Option Change → PassRecord
  | none => ⟨p.name, p.target, .unchanged⟩
  | some _ => ⟨p.name, p.target, .inserted⟩

namespace Pipeline

/-- A run goes on behind a pass on the tree that the pass leaves, unless it failed. -/
theorem on_run_cons (p : Pass) (ps : Pipeline) (t : Tree) :
    (run (p :: ps)).on t =
      match p.plan t with
      | .error e => (.error e, t)
      | .ok c? =>
        match (run ps).on (t.after c?) with
        | (.ok records, t') => (.ok (p.record c? :: records), t')
        | (.error e, t') => (.error e, t') := by
  rw [run, on_bind, Pass.on_apply]
  rcases p.plan t with e | _ | c
  · rfl
  · dsimp only [commit, Tree.after]
    rw [on_bind]
    rcases (run ps).on t with ⟨_ | _, _⟩ <;> rfl
  · dsimp only [commit, Tree.after]
    rw [on_bind]
    rcases (run ps).on (c.apply t) with ⟨_ | _, _⟩ <;> rfl

/-- What every change of a run keeps holds of the tree that the run leaves, wherever it ends. -/
theorem run_induction {P : Tree → Prop} {ps : Pipeline}
    (hstep : ∀ p ∈ ps, ∀ t c, P t → p.plan t = .ok (some c) → P (c.apply t)) {t : Tree} (h : P t) :
    P ((run ps).on t).2 := by
  induction ps generalizing t with
  | nil => exact h
  | cons p ps ih =>
    have ih' := fun {t} => ih (fun q hq => hstep q (List.mem_cons_of_mem _ hq)) (t := t)
    rw [on_run_cons]
    cases hplan : p.plan t with
    | error e => exact h
    | ok c? =>
      have hafter : P (t.after c?) := by
        cases c? with
        | none => exact h
        | some c => exact hstep p List.mem_cons_self t c h hplan
      have hrest := ih' hafter
      dsimp only
      rcases hrun : (run ps).on (t.after c?) with ⟨_ | _, _⟩ <;> rwa [hrun] at hrest

end Pipeline

/-- What a run can do to a tree: it grows, its statements are wrapped at most once in a namespace
that it did not have, and it grows again. -/
def GrowsWrapped (name? : Option String) (t t' : Tree) : Prop :=
  ∃ t₁ t₂, Grows name? t t₁ ∧ (t₂ = t₁ ∨ t₁.namespace? = none ∧ ∃ name, t₂ = t₁.wrapped name) ∧
    Grows name? t₂ t'

/-- One more step of a run is a step behind the wrapping, or the wrapping. -/
theorem GrowsWrapped.step {name? : Option String} {t t' t'' : Tree} (h : GrowsWrapped name? t t')
    (hstep : Grows name? t' t'' ∨ t'.namespace? = none ∧ ∃ name, t'' = t'.wrapped name) :
    GrowsWrapped name? t t'' := by
  obtain ⟨t₁, t₂, hbefore, hwrap, hafter⟩ := h
  rcases hstep with hgrows | ⟨hnone, name, rfl⟩
  · exact ⟨t₁, t₂, hbefore, hwrap, hafter.trans hgrows⟩
  · rcases hwrap with rfl | ⟨-, name', rfl⟩
    · exact ⟨t', _, hbefore.trans hafter, .inr ⟨hnone, name, rfl⟩, .refl _ _⟩
    · -- A wrapped file has a namespace, and it keeps it.
      rw [hafter.namespace_eq, Tree.namespace?_wrapped] at hnone
      cases hnone

/-- A run of passes about one declaration lets the tree grow, and wraps it at most once. -/
theorem growsWrapped_run {name? : Option String} {ps : Pipeline}
    (hps : ∀ p ∈ ps, p.Concerns name?) (t : Tree) :
    GrowsWrapped name? t ((Pipeline.run ps).on t).2 :=
  Pipeline.run_induction (P := GrowsWrapped name? t)
    (fun p hp _ _ h hplan => h.step (passStep_of_plan (hps p hp) hplan).grows_or_wraps)
    ⟨t, t, .refl _ _, .inl rfl, .refl _ _⟩

namespace Declaration

/-- The name of a declaration, or none for an anonymous class. -/
def name? : Declaration → Option String
  | ofClass c => c.name?
  | ofInterface i => some i.name

/-- What stands ahead of a declaration is about no declaration. -/
theorem concerns_scaffold (d : DeclarationParts) (name? : Option String) :
    ∀ p ∈ d.scaffold, p.Concerns name? := by
  unfold DeclarationParts.scaffold
  simp only [List.forall_mem_append]
  refine ⟨⟨?_, ?_⟩, ?_⟩
  · split <;> simp [Pass.Concerns]
  · cases d.scope? <;> simp [Pass.Concerns]
  · split <;> simp [Pass.Concerns]

/-- The passes of a declaration are about nothing else. -/
theorem concerns_passes (d : Declaration) : ∀ p ∈ d.passes, p.Concerns d.name? := by
  cases d with
  | ofClass c =>
    simp only [passes, ClassSpec.passes, ClassSpec.propertyPasses, DeclarationParts.constantPasses,
      DeclarationParts.methodPasses, List.forall_mem_append, List.forall_mem_map]
    refine ⟨⟨⟨⟨⟨⟨⟨concerns_scaffold _ _, ?_⟩, ?_⟩, ?_⟩, ?_⟩, ?_⟩, ?_⟩, ?_⟩
    · simp [Pass.Concerns, name?]
    · cases c.parent? <;> simp [Pass.Concerns, name?]
    · split <;> simp [Pass.Concerns, name?]
    · split <;> simp [Pass.Concerns, name?]
    all_goals exact fun _ _ => rfl
  | ofInterface i =>
    simp only [passes, InterfaceSpec.passes, DeclarationParts.constantPasses,
      DeclarationParts.methodPasses, List.forall_mem_append, List.forall_mem_map]
    refine ⟨⟨⟨⟨concerns_scaffold _ _, ?_⟩, ?_⟩, ?_⟩, ?_⟩
    · simp [Pass.Concerns, name?]
    · split <;> simp [Pass.Concerns, name?]
    all_goals exact fun _ _ => rfl

/-- Realizing a declaration lets a tree grow, and wraps it at most once. -/
theorem growsWrapped_realize (d : Declaration) (t : Tree) :
    GrowsWrapped d.name? t (d.realize.on t).2 :=
  growsWrapped_run (concerns_passes d) t

end Declaration

end PhpGraft

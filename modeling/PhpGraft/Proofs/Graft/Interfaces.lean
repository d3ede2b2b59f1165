import PhpGraft.Proofs.Graft.Progress
import PhpGraft.Proofs.Syntax.Gaps

/-!
# What interfaces receive

A declaration is looked up by its name among classes and interfaces alike, and so the passes of a class
can meet an interface of its name. The passes for a parent, for interfaces and for traits refuse it, and
the one for methods leaves the body away; but the one for properties takes it for a class. So what a run
adds below an interface is no use of traits and no method with a body (`Pipeline.received_of_run`), and
it is a property exactly where a class without a parent, interfaces and traits meets an interface that
lacks one of its properties (`interfaces_receive_iff`).
-/

namespace PhpGraft

open Edit

/-! ## What a run adds below an interface -/

/-- A method of an interface has no statements. -/
theorem MethodSpec.body?_of_realize {m : MethodSpec} {n : Node} {d : MethodDecl}
    (h : m.realize true = .ok n) (hd : n.kind = .methodDecl d) : d.body? = none := by
  have hbody : m.realizeBody? true = .ok none := rfl
  simp only [realize, hbody, bind, Except.bind, pure, Except.pure] at h
  split at h
  · cases h
  · split at h
    · cases h
    · cases h
      cases hd
      rfl

/-- Whether a node may stand below an interface, as far as uses of traits and bodies of methods go. -/
structure Node.FitsInterface (n : Node) : Prop where
  /-- Interfaces use no traits. -/
  trait : n.category ≠ .traitUse
  /-- Their methods have no statements. -/
  body : ∀ d, n.kind = .methodDecl d → d.body? = none

/-- A node that is neither a use of traits nor a method may stand below an interface. -/
theorem Node.fitsInterface_of_category {n : Node} (htrait : n.category ≠ .traitUse)
    (hmethod : n.category ≠ .methodDecl) : n.FitsInterface :=
  ⟨htrait, fun d hd => absurd (by rw [Node.category, hd]; rfl) hmethod⟩

section Receive

variable {name? : Option String} {p : Pass} {ps : Pipeline} {t t' s : Tree} {parent index id c : Nat}
  {nodes : List Node}

/-- The leaves that a pass plans below an interface may stand there. -/
theorem fitsInterface_of_plan (hp : p.Concerns name?)
    (h : p.plan t = .ok (some (.insert parent index nodes)))
    (hparent : t.category parent = .interfaceDecl) : ∀ n ∈ nodes, n.FitsInterface := by
  intro n hn
  have hform : p.makes? = some n.category := by
    cases passStep_of_plan hp h with
    | insert _ _ form => exact form n hn
  cases p with
  | traits class? names =>
    obtain ⟨id, -, hclass, hc⟩ := planTraits_eq_ok.1 h
    split at hc
    · cases hc
    · cases hc
      rw [hparent] at hclass
      cases hclass
  | method class? spec =>
    rw [Pass.plan, planMember_eq_ok] at h
    obtain ⟨id, -, ⟨-, hc⟩ | ⟨-, m, hm, hc⟩⟩ := h
    · cases hc
    · cases hc
      obtain rfl := List.mem_singleton.1 hn
      rw [hparent] at hm
      refine ⟨fun he => ?_, fun d => MethodSpec.body?_of_realize hm⟩
      rw [he] at hform
      cases hform
  | _ =>
    refine Node.fitsInterface_of_category (fun he => ?_) (fun he => ?_) <;>
    · rw [he] at hform
      cases hform

/-- What a run of passes about the declaration of a name has put below an interface. -/
structure Tree.Received (s : Tree) (name? : Option String) (ps : Pipeline) (id c : Nat) : Prop where
  /-- It is stored. -/
  stored : c < s.cells.size
  /-- It may stand there. -/
  fits : (s.node c).FitsInterface
  /-- Some pass makes nodes of its form. -/
  maker : ∃ p ∈ ps, p.makes? = some (s.category c)
  /-- A member stands below the declaration of the name. -/
  owner : (s.category c).memberRank?.isSome = true → s.findClassLike? name? = some id

/-- What was put below an interface stays what it is when the tree grows. -/
theorem Tree.Received.grows (h : s.Received name? ps id c) (hg : Grows name? s t') :
    t'.Received name? ps id c := by
  have hcat := hg.category_eq h.stored
  refine ⟨Nat.lt_of_lt_of_le h.stored hg.size_le, ?_, by rw [hcat]; exact h.maker, ?_⟩
  · rcases hg.node c h.stored with he | ⟨-, hnode⟩
    · rw [he]
      exact h.fits
    · have hlike : (t'.node c).category.isClassLike = true := by
        rw [hnode.category_eq]
        exact hnode.isClassLike
      refine Node.fitsInterface_of_category (fun he => ?_) (fun he => ?_) <;>
      · rw [he] at hlike
        cases hlike
  · rw [hcat]
    exact fun hrank => hg.find id (h.owner hrank)

/-- What was put below an interface stays what it is when the file is wrapped. -/
theorem Tree.Received.wrapped (h : s.Received name? ps id c) (hns : s.namespace? = none) (name : String) :
    (s.wrapped name).Received name? ps id c := by
  have hnode : (s.wrapped name).node c = s.node c := by
    rw [Tree.node_wrapped, if_neg (Nat.ne_of_lt h.stored)]
  refine ⟨by rw [Tree.size_wrapped]; exact Nat.lt_succ_of_lt h.stored, by rw [hnode]; exact h.fits,
    by rw [Tree.category, hnode]; exact h.maker, ?_⟩
  rw [Tree.category, hnode, Tree.findClassLike?_wrapped hns]
  exact h.owner

/-- Members are looked for below the declaration of the name. -/
theorem Tree.home?_of_memberRank? {form : Category} (h : form.memberRank?.isSome = true) :
    t.home? name? form = t.findClassLike? name? := by
  cases form <;> first | rfl | cases h

/-- What a step adds of members stands below the declaration of the name. -/
theorem PassStep.child_of_member {form : Category} {change : Change}
    (h : PassStep name? s (some form) change) (hform : form.memberRank?.isSome = true)
    (hfound : (change.apply s).findClassLike? name? = some id)
    (hsize : s.cells.size < (change.apply s).cells.size) :
    (change.apply s).category s.cells.size = form ∧ s.cells.size ∈ (change.apply s).children id := by
  have hcat : (change.apply s).category s.cells.size = form :=
    (Option.some.inj (h.category_eq (Nat.le_refl _) hsize)).symm
  obtain ⟨owner, howner, hmem⟩ := h.atHome (by rintro ⟨⟩; cases hform) (Nat.le_refl _) hsize
  rw [hcat, Tree.home?_of_memberRank? hform, hfound] at howner
  cases howner
  exact ⟨hcat, hmem⟩

/-- New leaves below an interface are what may stand there. -/
theorem received_insertNodes (hp : p.Concerns name?) (hmem : p ∈ ps)
    (hplan : p.plan s = .ok (some (.insert parent index nodes)))
    (hparent : s.category parent = .interfaceDecl) (hc : c ∈ s.freshIds nodes.length) :
    (s.insertNodes parent index nodes).Received name? ps parent c := by
  have hn : (s.insertNodes parent index nodes).node c ∈ nodes := by
    have hnode := List.mem_map_of_mem (f := (s.insertNodes parent index nodes).node) hc
    rwa [Tree.map_node_freshIds] at hnode
  have hstep := passStep_of_plan hp hplan
  cases hcase : hstep with
  | insert stored place form inside home =>
    have hgrows : Grows name? s (s.insertNodes parent index nodes) := hstep.grows inside
    refine ⟨by simpa using (Tree.le_of_mem_freshIds hc).2, fitsInterface_of_plan hp hplan hparent _ hn,
      ⟨p, hmem, form _ hn⟩, fun hrank => hgrows.find parent ?_⟩
    rw [← Tree.home?_of_memberRank? hrank]
    exact home _ (form _ hn)

/-- One more step puts below an interface what may stand there. -/
theorem received_of_step {change : Change} (hp : p.Concerns name?) (hmem : p ∈ ps)
    (h : ∀ id c : Nat, s.category id = .interfaceDecl → c ∈ s.children id →
      c ∈ t.children id ∨ s.Received name? ps id c)
    (hplan : p.plan s = .ok (some change)) :
    ∀ id c : Nat, (change.apply s).category id = .interfaceDecl → c ∈ (change.apply s).children id →
      c ∈ t.children id ∨ (change.apply s).Received name? ps id c := by
  intro id c hid hc
  have hstep := passStep_of_plan hp hplan
  cases hcase : hstep with
  | @insert parent index nodes stored place form inside home fresh bare =>
    have hgrows : Grows name? s (s.insertNodes parent index nodes) := hstep.grows inside
    have hlt : id < s.cells.size := Nat.lt_of_not_le fun hle => by
      rw [Change.apply, Tree.children_insertNodes_of_ne (Nat.ne_of_gt (Nat.lt_of_lt_of_le stored hle)),
        Tree.children_of_le hle] at hc
      cases hc
    rw [Change.apply, hgrows.category_eq hlt] at hid
    by_cases hne : id = parent
    · subst hne
      rw [Change.apply, Tree.children_insertNodes stored place, List.mem_append, List.mem_append] at hc
      rcases hc with (hold | hnew) | hold
      · exact (h id c hid (List.mem_of_mem_take hold)).imp_right fun hr => hr.grows hgrows
      · exact .inr (received_insertNodes hp hmem hplan hid hnew)
      · exact (h id c hid (List.mem_of_mem_drop hold)).imp_right fun hr => hr.grows hgrows
    · rw [Change.apply, Tree.children_insertNodes_of_ne hne] at hc
      exact (h id c hid hc).imp_right fun hr => hr.grows hgrows
  | @head target kind found hhead form =>
    have hgrows := grows_head found hhead
    rw [Change.apply, Tree.children_modifyNode] at hc
    have hlt := Tree.lt_of_mem_children hc
    rw [Change.apply, hgrows.category_eq hlt] at hid
    exact (h id c hid hc).imp_right fun hr => hr.grows hgrows
  | wrap name hns form =>
    rw [Change.apply] at hc hid ⊢
    have hlt : id ≠ s.cells.size := by
      rintro rfl
      rw [Tree.category, Tree.node_wrapped, if_pos rfl] at hid
      cases hid
    rw [Tree.category, Tree.node_wrapped, if_neg hlt] at hid
    by_cases hroot : id = Tree.root
    · subst hroot
      rw [Tree.children_wrapped_root, List.mem_append, List.mem_singleton] at hc
      rcases hc with hold | rfl
      · exact (h _ c hid (List.mem_of_mem_take hold)).imp_right fun hr => hr.wrapped hns name
      · have hnode : (s.wrapped name).node s.cells.size = { kind := .namespaceDecl name } := by
          rw [Tree.node_wrapped, if_pos rfl]
        refine .inr ⟨by simp, ?_, ⟨p, hmem, by rw [form, Tree.category, hnode]; rfl⟩, ?_⟩
        · rw [hnode]
          exact Node.fitsInterface_of_category (fun he => by cases he) fun he => by cases he
        · rw [Tree.category, hnode]
          exact fun he => by cases he
    · rw [Tree.children_wrapped_of_ne hroot hlt] at hc
      exact (h id c hid hc).imp_right fun hr => hr.wrapped hns name

/-- What a run has put below an interface, wherever it ended, is what may stand there. -/
theorem Pipeline.received_of_run (hps : ∀ p ∈ ps, p.Concerns name?)
    (hid : ((run ps).on t).2.category id = .interfaceDecl) (hc : c ∈ ((run ps).on t).2.children id)
    (hnew : c ∉ t.children id) : ((run ps).on t).2.Received name? ps id c :=
  (run_induction (P := fun s => ∀ id c : Nat, s.category id = .interfaceDecl → c ∈ s.children id →
      c ∈ t.children id ∨ s.Received name? ps id c)
    (fun p hp _ _ h hplan => received_of_step (hps p hp) hp h hplan) (fun _ _ _ => .inl)
    id c hid hc).resolve_left hnew

end Receive

/-! ## Classes that meet an interface -/

/-- A run that makes no interfaces leaves under a name the interface that was found under it. -/
theorem Pipeline.find_of_run {name? : Option String} {ps : Pipeline} {t : Tree} {id : Nat}
    (hps : ∀ p ∈ ps, p.Concerns name? ∧ p.makes? ≠ some .interfaceDecl)
    (hfound : ((run ps).on t).2.findClassLike? name? = some id)
    (hid : ((run ps).on t).2.category id = .interfaceDecl) :
    t.findClassLike? name? = some id ∧ t.category id = .interfaceDecl := by
  refine run_induction (P := fun s => ∀ id, s.findClassLike? name? = some id →
    s.category id = .interfaceDecl → t.findClassLike? name? = some id ∧ t.category id = .interfaceDecl)
    (fun p hp s change ih hplan id hfound hid => ?_) (fun _ hfound hid => ⟨hfound, hid⟩) id hfound hid
  obtain ⟨hconcerns, hmakes⟩ := hps p hp
  have hstep := passStep_of_plan hconcerns hplan
  cases hcase : hstep with
  | @insert parent index nodes stored place form inside home fresh bare =>
    have hgrows : Grows name? s (s.insertNodes parent index nodes) := hstep.grows inside
    have hns : ∀ n ∈ nodes, n.category ≠ .namespaceDecl := fun n hn he => inside (by rw [form n hn, he])
    rw [Change.apply] at hfound hid
    cases hold : s.findClassLike? name? with
    | some old =>
      rw [hgrows.find old hold, Option.some.injEq] at hfound
      subst hfound
      exact ih old hold (by rw [← hgrows.category_eq (lt_of_find hold), hid])
    | none =>
      -- what is found for the first time is one of the new leaves
      have hle := Slot.le_of_find_insertNodes stored place hns hold hfound
      have hform := hstep.category_eq hle (lt_of_find hfound)
      rw [Change.apply, hid] at hform
      exact absurd hform hmakes
  | @head target kind found hhead form =>
    rw [Change.apply, findClassLike?_head hhead] at hfound
    rw [Change.apply, (grows_head found hhead).category_eq (lt_of_find hfound)] at hid
    exact ih id hfound hid
  | wrap name hns form =>
    rw [Change.apply, Tree.findClassLike?_wrapped hns] at hfound
    rw [Change.apply, Tree.category, Tree.node_wrapped, if_neg (Nat.ne_of_lt (lt_of_find hfound))] at hid
    exact ih id hfound hid

/-- The passes up to a declaration make no members of one. -/
theorem Declaration.makes_ne_of_mem_opening {d : Declaration} {p : Pass} {form : Category}
    (hp : p ∈ d.opening) (hform : form.isOuter = false) : p.makes? ≠ some form := by
  intro hmakes
  have houter := makes_of_mem_opening hp
  rw [hmakes, Option.any_some, hform] at houter
  cases houter

namespace ClassSpec

/-- A property as the class asks for it. -/
def propertyOf (c : ClassSpec) (p : PropertySpec) : PropertySpec := { p with typed := c.typed && p.typed }

/-- Whether a class gives a property to the interface that is found under its name: nothing that is only
for classes is asked for, the constants can be there, and the first property that the interface lacks can
be realized. -/
structure GivesProperty (c : ClassSpec) (t : Tree) (id : NodeId) : Prop where
  found : t.findClassLike? c.name? = some id
  form : t.category id = .interfaceDecl
  parent : c.parent? = none
  interfaces : c.interfaces.isEmpty = true
  traits : c.traits.isEmpty = true
  constants : ∀ k ∈ c.constants.items, k.name ∈ Slot.constants.names c.name? t ∨ ∃ n, k.realize = .ok n
  property : ∃ p n, c.properties.items.find? (fun p => !(Slot.properties.names c.name? t).contains p.name) =
    some p ∧ (c.propertyOf p).realize = .ok n

/-- The passes that only classes can meet. -/
def headPasses (c : ClassSpec) : Pipeline := c.parentPasses ++ (c.interfacePasses ++ c.traitPasses)

/-- The passes ahead of those for the properties. -/
def earlyPasses (c : ClassSpec) : Pipeline :=
  (Declaration.ofClass c).opening ++ (c.headPasses ++ c.constantPasses c.name?)

variable {c : ClassSpec} {t s t' : Tree} {id : Nat}

/-- The passes of a class in their order around those for the properties. -/
theorem passes_eq_early (c : ClassSpec) : (Declaration.ofClass c).passes =
    c.earlyPasses ++ (c.propertyPasses ++ c.methodPasses c.name?) := by
  rw [Declaration.passes_eq_opening, details_eq]
  simp only [earlyPasses, headPasses, List.append_assoc]

/-- The passes that only classes can meet are none where nothing that is only for classes is asked for. -/
theorem headPasses_eq_nil_iff : c.headPasses = [] ↔
    c.parent? = none ∧ c.interfaces.isEmpty = true ∧ c.traits.isEmpty = true := by
  rw [headPasses, List.append_eq_nil_iff, List.append_eq_nil_iff, parentPasses, interfacePasses, traitPasses]
  simp

/-- The passes that only classes can meet are for classes. -/
theorem form_of_mem_headPasses {p : Pass} (hp : p ∈ c.headPasses) : p.form? = some .classDecl := by
  revert p
  simp only [headPasses, List.forall_mem_append, parentPasses, interfacePasses, traitPasses]
  refine ⟨?_, ?_, ?_⟩
  · cases c.parent? <;> simp [Pass.form?]
  · split <;> simp [Pass.form?]
  · split <;> simp [Pass.form?]

/-- The passes up to the class succeed where something is found under its name. -/
theorem exists_leads_opening (hfound : t.findClassLike? c.name? = some id) :
    ∃ s, (Declaration.ofClass c).opening.Leads t s := by
  have hconcerns : ∀ p ∈ (Declaration.ofClass c).opening, p.Concerns c.name? := fun p hp =>
    (Declaration.ofClass c).concerns_passes p (by
      rw [Declaration.passes_eq_opening]
      exact List.mem_append_left _ hp)
  refine Pipeline.exists_leads hconcerns hfound ?_
  rw [Declaration.opening, DeclarationParts.scaffold]
  simp only [List.forall_mem_append, List.forall_mem_singleton]
  refine ⟨⟨⟨?_, ?_⟩, ?_⟩, fun s hs => ⟨none, planDeclaration_eq_ok.2 (.inl ⟨by rw [hs]; rfl, rfl⟩)⟩⟩
  · split
    · exact List.forall_mem_singleton.2 fun s _ => ⟨_, rfl⟩
    · exact List.forall_mem_nil _
  · cases (Declaration.ofClass c).parts.scope? with
    | none => exact List.forall_mem_nil _
    | some scope => exact List.forall_mem_singleton.2 fun s _ => ⟨_, rfl⟩
  · split
    · exact List.forall_mem_nil _
    · exact List.forall_mem_singleton.2 fun s _ => ⟨_, rfl⟩

/-- The passes ahead of those for the properties are about the class. -/
theorem concerns_early (c : ClassSpec) : ∀ p ∈ c.earlyPasses, p.Concerns c.name? := fun p hp =>
  (Declaration.ofClass c).concerns_passes p (by
    rw [passes_eq_early]
    exact List.mem_append_left _ hp)

/-- A class makes no interfaces. -/
theorem makes_ne_interface (c : ClassSpec) :
    ∀ p ∈ (Declaration.ofClass c).passes, p.makes? ≠ some .interfaceDecl := by
  rw [passes_eq_early]
  simp only [earlyPasses, Declaration.opening, DeclarationParts.scaffold, propertyPasses,
    DeclarationParts.constantPasses, DeclarationParts.methodPasses, List.forall_mem_append,
    List.forall_mem_map, List.forall_mem_singleton]
  refine ⟨⟨⟨⟨⟨?_, ?_⟩, ?_⟩, ?_⟩, fun p hp => ?_, ?_⟩, ?_, ?_⟩
  · split <;> simp [Pass.makes?]
  · cases (Declaration.ofClass c).parts.scope? <;> simp [Pass.makes?]
  · split <;> simp [Pass.makes?]
  · simp [Pass.makes?, Declaration.declares]
  · have hform := form_of_mem_headPasses hp
    cases p <;> simp_all [Pass.makes?, Pass.form?]
  all_goals simp [Pass.makes?]

/-- The passes ahead of those for the properties make no properties. -/
theorem makes_ne_property {p : Pass} (hp : p ∈ c.earlyPasses) : p.makes? ≠ some .propertyDecl := by
  rw [earlyPasses, List.mem_append, List.mem_append, DeclarationParts.constantPasses, List.mem_map] at hp
  rcases hp with hp | hp | ⟨k, -, rfl⟩
  · exact Declaration.makes_ne_of_mem_opening hp rfl
  · have hform := form_of_mem_headPasses hp
    cases p <;> simp_all [Pass.makes?, Pass.form?]
  · simp [Pass.makes?]

/-- The passes ahead of those for the properties succeed on an interface exactly where nothing that is
only for classes is asked for and the constants can be there. -/
theorem exists_leads_early_iff (hc : t.Closed) (hfound : t.findClassLike? c.name? = some id)
    (hid : t.category id = .interfaceDecl) :
    (∃ s, c.earlyPasses.Leads t s) ↔
      (c.parent? = none ∧ c.interfaces.isEmpty = true ∧ c.traits.isEmpty = true) ∧
        ∀ k ∈ c.constants.items, k.name ∈ Slot.constants.names c.name? t ∨ ∃ n, k.realize = .ok n := by
  have hconcerns := c.concerns_early
  rw [earlyPasses] at hconcerns ⊢
  rw [List.forall_mem_append] at hconcerns
  have hbehind {u : Tree} (hu : (Declaration.ofClass c).opening.Leads t u) :
      (∃ s, (c.headPasses ++ c.constantPasses c.name?).Leads u s) ↔
        (c.parent? = none ∧ c.interfaces.isEmpty = true ∧ c.traits.isEmpty = true) ∧
          ∀ k ∈ c.constants.items, k.name ∈ Slot.constants.names c.name? t ∨ ∃ n, k.realize = .ok n := by
    obtain ⟨hfound, hcat⟩ := hu.found hconcerns.1 hfound
    rw [hid] at hcat
    have hnames (k : String) :
        k ∈ Slot.constants.names c.name? u ↔ k ∈ Slot.constants.names c.name? t := by
      have hiff := hu.exists_names_iff (s := .constants) hconcerns.1
        (fun p hp => Declaration.makes_ne_of_mem_opening hp rfl) hc k
      simpa [Slot.keyOf] using hiff
    rw [← headPasses_eq_nil_iff]
    cases hheads : c.headPasses with
    | nil =>
      rw [List.nil_append, DeclarationParts.constantPasses,
        leads_constants_iff (Declaration.opening_body hc hu).1 hfound c.constants.distinct]
      simp only [hnames, true_and]
    | cons p ps =>
      refine iff_of_false ?_ (fun h => by cases h.1)
      rintro ⟨s, hs⟩
      obtain ⟨c?, hplan, -⟩ := Pipeline.leads_cons.1 hs
      have hp : p ∈ c.headPasses := hheads ▸ List.mem_cons_self
      obtain ⟨id', hfound', hclass⟩ := category_of_plan (hconcerns.2 p (List.mem_append_left _ hp))
        (form_of_mem_headPasses hp) hplan
      rw [hfound] at hfound'
      cases hfound'
      rw [hcat] at hclass
      cases hclass
  constructor
  · rintro ⟨s, hs⟩
    obtain ⟨u, hu, hs⟩ := Pipeline.leads_append.1 hs
    exact (hbehind hu).1 ⟨s, hs⟩
  · intro h
    obtain ⟨u, hu⟩ := exists_leads_opening hfound
    obtain ⟨s, hs⟩ := (hbehind hu).2 h
    exact ⟨s, Pipeline.leads_append.2 ⟨u, hu, hs⟩⟩

end ClassSpec

/-- Whether one tree has a property below an interface that another one does not have there. -/
def Tree.GainsProperty (t t' : Tree) : Prop :=
  ∃ id c : NodeId, t'.category id = .interfaceDecl ∧ c ∈ t'.children id ∧ c ∉ t.children id ∧
    t'.category c = .propertyDecl

/-- A run that makes no properties adds none below an interface. -/
theorem Pipeline.not_gainsProperty {name? : Option String} {ps : Pipeline} {t : Tree}
    (hps : ∀ p ∈ ps, p.Concerns name?) (hmakes : ∀ p ∈ ps, p.makes? ≠ some .propertyDecl) :
    ¬t.GainsProperty ((run ps).on t).2 := by
  rintro ⟨id, c, hid, hc, hnew, hcat⟩
  obtain ⟨p, hp, hmakesp⟩ := (received_of_run hps hid hc hnew).maker
  rw [hcat] at hmakesp
  exact hmakes p hp hmakesp

/-- An interface makes no properties. -/
theorem InterfaceSpec.makes_ne_property (i : InterfaceSpec) :
    ∀ p ∈ (Declaration.ofInterface i).passes, p.makes? ≠ some .propertyDecl := by
  rw [Declaration.passes_eq_opening]
  simp only [Declaration.details, DeclarationParts.constantPasses, DeclarationParts.methodPasses,
    List.forall_mem_append, List.forall_mem_map]
  refine ⟨fun p hp => Declaration.makes_ne_of_mem_opening hp rfl, ⟨?_, ?_⟩, ?_⟩
  · split <;> simp [Pass.makes?]
  all_goals simp [Pass.makes?]

/-- A pass for a property finds it where the declaration has a property of its name. -/
theorem settled_property_iff {name? : Option String} {p : PropertySpec} {t : Tree} :
    (Pass.property name? p).Settled t ↔ p.name ∈ Slot.properties.names name? t := by
  have hsettled := @settled_member_iff name? t .properties .propertyDecl (· == p.name) p.name
    (fun _ => p.realize) rfl rfl (by simp) (fun _ => rfl)
  rw [Pass.Settled, Pass.plan, hsettled]
  simp [Slot.same]

namespace ClassSpec

variable {c : ClassSpec} {t s : Tree} {id : Nat}

/-- The passes ahead of those for the properties keep the names of properties. -/
theorem mem_names_early_iff (hc : t.Closed) (hs : c.earlyPasses.Leads t s) (name : String) :
    name ∈ Slot.properties.names c.name? s ↔ name ∈ Slot.properties.names c.name? t := by
  have hiff := hs.exists_names_iff (s := .properties) c.concerns_early (fun _ => makes_ne_property) hc name
  simpa [Slot.keyOf] using hiff

/-- A run goes on behind the properties that the declaration has. -/
theorem snd_on_run_of_known (hc : t.Closed) (hs : c.earlyPasses.Leads t s) {known rest : List PropertySpec}
    (hitems : c.properties.items = known ++ rest)
    (hknown : ∀ p ∈ known, p.name ∈ Slot.properties.names c.name? t) :
    ((Pipeline.run (Declaration.ofClass c).passes).on t).2 =
      ((Pipeline.run (rest.map (fun p => .property c.name? (c.propertyOf p)) ++
        c.methodPasses c.name?)).on s).2 := by
  have hsettled : Pipeline.Leads (known.map fun p => .property c.name? (c.propertyOf p)) s s := by
    refine Pipeline.leads_of_settled (List.forall_mem_map.2 fun p hp => ?_)
    exact settled_property_iff.2 ((mem_names_early_iff hc hs p.name).2 (hknown p hp))
  have hpasses : (Declaration.ofClass c).passes =
      c.earlyPasses ++ (known.map fun p => .property c.name? (c.propertyOf p)) ++
        (rest.map (fun p => .property c.name? (c.propertyOf p)) ++ c.methodPasses c.name?) := by
    rw [passes_eq_early, propertyPasses, hitems, List.map_append]
    simp only [List.append_assoc]
    rfl
  rw [hpasses, (Pipeline.leads_append.2 ⟨s, hs, hsettled⟩).snd_on_run_append]

/-- An interface gains a property from a class only where the class gives it one. -/
theorem givesProperty_of_gains (hc : t.Closed)
    (h : t.GainsProperty ((Pipeline.run (Declaration.ofClass c).passes).on t).2) :
    ∃ id, c.GivesProperty t id := by
  have hconcerns : ∀ p ∈ (Declaration.ofClass c).passes, p.Concerns c.name? :=
    (Declaration.ofClass c).concerns_passes
  obtain ⟨id, hfound, hform⟩ : ∃ id, t.findClassLike? c.name? = some id ∧ t.category id = .interfaceDecl := by
    obtain ⟨id, x, hid, hx, hnew, hcat⟩ := h
    have howner := (Pipeline.received_of_run hconcerns hid hx hnew).owner (by rw [hcat]; rfl)
    exact ⟨id, Pipeline.find_of_run (fun p hp => ⟨hconcerns p hp, c.makes_ne_interface p hp⟩) howner hid⟩
  -- no pass ahead of those for properties makes one, and so the run comes past all of them
  obtain ⟨s, hs⟩ : ∃ s, c.earlyPasses.Leads t s := by
    by_contra hnone
    rw [passes_eq_early, Pipeline.snd_on_run_append_of_not_leads (not_exists.1 hnone)] at h
    exact Pipeline.not_gainsProperty c.concerns_early (fun _ => makes_ne_property) h
  obtain ⟨⟨hparent, hinterfaces, htraits⟩, hconstants⟩ :=
    (exists_leads_early_iff hc hfound hform).1 ⟨s, hs⟩
  refine ⟨id, hfound, hform, hparent, hinterfaces, htraits, hconstants, ?_⟩
  have hmethods : ∀ p ∈ c.methodPasses c.name?, p.Concerns c.name? ∧ p.makes? ≠ some .propertyDecl :=
    List.forall_mem_map.2 fun _ _ => ⟨rfl, nofun⟩
  cases hfirst : c.properties.items.find? fun p => !(Slot.properties.names c.name? t).contains p.name with
  | none =>
    have hknown : ∀ p ∈ c.properties.items, p.name ∈ Slot.properties.names c.name? t := by
      simpa using hfirst
    rw [snd_on_run_of_known hc hs (List.append_nil _).symm hknown, List.map_nil, List.nil_append,
      ← hs.snd_on_run_append] at h
    refine absurd h (Pipeline.not_gainsProperty (List.forall_mem_append.2 ⟨c.concerns_early, ?_⟩)
      (List.forall_mem_append.2 ⟨fun _ => makes_ne_property, ?_⟩))
    · exact fun p hp => (hmethods p hp).1
    · exact fun p hp => (hmethods p hp).2
  | some p =>
    obtain ⟨hlacks, known, rest, hitems, hknown⟩ := List.find?_eq_some_iff_append.1 hfirst
    have hknown : ∀ p ∈ known, p.name ∈ Slot.properties.names c.name? t := by
      simpa using hknown
    have hlacks : p.name ∉ Slot.properties.names c.name? t := by simpa using hlacks
    obtain ⟨hsfound, -⟩ := hs.found c.concerns_early hfound
    cases hplan : (Pass.property c.name? (c.propertyOf p)).plan s with
    | ok c? =>
      rcases (exists_plan_property_iff hsfound).1 ⟨c?, hplan⟩ with hmem | ⟨n, hn⟩
      · exact absurd ((mem_names_early_iff hc hs _).1 hmem) hlacks
      · exact ⟨p, n, rfl, hn⟩
    | error e =>
      -- the run stops at the property, with what there was ahead of it
      obtain ⟨records, hrun⟩ := hs
      rw [snd_on_run_of_known hc ⟨records, hrun⟩ hitems hknown, List.map_cons, List.cons_append,
        Pipeline.on_run_cons, hplan, ← congrArg Prod.snd hrun] at h
      exact absurd h (Pipeline.not_gainsProperty c.concerns_early fun _ => makes_ne_property)

/-- A property that the interface lacks stays below it. -/
theorem gainsProperty_of_gives (hc : t.Closed) (h : c.GivesProperty t id) :
    t.GainsProperty ((Pipeline.run (Declaration.ofClass c).passes).on t).2 := by
  obtain ⟨s, hs⟩ := (exists_leads_early_iff hc h.found h.form).2
    ⟨⟨h.parent, h.interfaces, h.traits⟩, h.constants⟩
  obtain ⟨p, n, hfirst, hn⟩ := h.property
  obtain ⟨hlacks, known, rest, hitems, hknown⟩ := List.find?_eq_some_iff_append.1 hfirst
  have hknown : ∀ p ∈ known, p.name ∈ Slot.properties.names c.name? t := by
    simpa using hknown
  have hlacks : p.name ∉ Slot.properties.names c.name? t := by simpa using hlacks
  obtain ⟨hsfound, hsform⟩ := hs.found c.concerns_early h.found
  obtain ⟨change, hplan, hsize⟩ : ∃ change,
      (Pass.property c.name? (c.propertyOf p)).plan s = .ok (some change) ∧
        s.cells.size < (change.apply s).cells.size := by
    obtain ⟨c?, hplan⟩ := (exists_plan_property_iff hsfound).2 (.inr ⟨n, hn⟩)
    cases c? with
    | none => exact absurd ((mem_names_early_iff hc hs _).1 (settled_property_iff.1 hplan)) hlacks
    | some change =>
      refine ⟨change, hplan, ?_⟩
      rw [Pass.plan, planMember_eq_ok] at hplan
      obtain ⟨_, -, ⟨-, hnone⟩ | ⟨-, m, -, hsome⟩⟩ := hplan
      · cases hnone
      · cases hsome
        simp [Change.apply]
  have hleads : Pipeline.Leads [.property c.name? (c.propertyOf p)] s (change.apply s) :=
    Pipeline.leads_singleton.2 ⟨some change, hplan, rfl⟩
  have hself : (Pass.property c.name? (c.propertyOf p)).Concerns c.name? := rfl
  obtain ⟨hfound, hform⟩ := hleads.found (List.forall_mem_singleton.2 hself) hsfound
  have hstep : PassStep c.name? s (some .propertyDecl) change := passStep_of_plan hself hplan
  obtain ⟨hcat, hmem⟩ := hstep.child_of_member rfl hfound hsize
  -- what comes behind keeps the property, and what was there ahead of it was stored
  have hrest : ∀ q ∈ rest.map (fun p => Pass.property c.name? (c.propertyOf p)) ++ c.methodPasses c.name?,
      q.Concerns c.name? :=
    List.forall_mem_append.2 ⟨List.forall_mem_map.2 fun _ _ => rfl, List.forall_mem_map.2 fun _ _ => rfl⟩
  have hgrows := growsWrapped_run hrest (change.apply s)
  have hroot : id ≠ Tree.root := Slot.ne_root_of_find hc h.found
  rw [snd_on_run_of_known hc hs hitems hknown, List.map_cons, List.cons_append,
    ← List.singleton_append, hleads.snd_on_run_append]
  refine ⟨id, s.cells.size, ?_, (hgrows.children (lt_of_find hfound) hroot).subset hmem, fun hold => ?_, ?_⟩
  · rw [hgrows.category_eq (lt_of_find hfound), hform, hsform, h.form]
  · have hold := ((hs.growsWrapped c.concerns_early).children (lt_of_find h.found) hroot).subset hold
    exact Nat.lt_irrefl _ (hs.closed c.concerns_early hc id _ hold).2
  · rw [hgrows.category_eq hsize, hcat]

end ClassSpec

/-- Whatever a run does, and wherever it ends, it adds no use of traits below an interface and no method
with statements. It adds a property below one exactly where a class gives it one. -/
theorem interfaces_receive_iff (d : Declaration) (t : Tree) :
    (∀ id c : NodeId, (d.realize.on t).2.category id = .interfaceDecl → c ∈ (d.realize.on t).2.children id →
      c ∉ t.children id → ((d.realize.on t).2.node c).FitsInterface) ∧
    (t.Closed → (t.GainsProperty (d.realize.on t).2 ↔ ∃ c id, d = .ofClass c ∧ c.GivesProperty t id)) := by
  refine ⟨fun id c hid hc hnew => (Pipeline.received_of_run d.concerns_passes hid hc hnew).fits,
    fun hclosed => ⟨fun hgains => ?_, ?_⟩⟩
  · cases d with
    | ofClass c =>
      obtain ⟨id, hgives⟩ := c.givesProperty_of_gains hclosed hgains
      exact ⟨c, id, rfl, hgives⟩
    | ofInterface i =>
      exact absurd hgains (Pipeline.not_gainsProperty (Declaration.ofInterface i).concerns_passes
        i.makes_ne_property)
  · rintro ⟨c, id, rfl, hgives⟩
    exact ClassSpec.gainsProperty_of_gives hclosed hgives

/-- A class with methods and properties of the given names. -/
def memberedClass (methods properties : List String) : Declaration :=
  .ofClass
    { ClassSpec.new "A" with
      strict := false
      methods := .ofList (methods.map fun name => { name })
      properties := .ofList (properties.map fun name => { name }) }

/-- An interface of the name of a class gets the method of the class, without statements. -/
theorem interfaces_receive_method :
    ∃ file t', Outline.parse "<?php\n\ninterface A\n\x7b\n\x7d\n" = .ok file ∧
      ((memberedClass ["m"] []).realize.on (.ofOutline file)).2 = t' ∧ t'.category 1 = .interfaceDecl ∧
      2 ∈ t'.children 1 ∧ t'.category 2 = .methodDecl ∧ (t'.node 2).FitsInterface ∧
      ¬(Tree.ofOutline file).GainsProperty t' := by
  have hcheck : Outline.readsWith "<?php\n\ninterface A\n\x7b\n\x7d\n" (fun file _ => decide (
      ((memberedClass ["m"] []).realize.on (.ofOutline file)).2.category 1 = .interfaceDecl ∧
      2 ∈ ((memberedClass ["m"] []).realize.on (.ofOutline file)).2.children 1 ∧
      ((memberedClass ["m"] []).realize.on (.ofOutline file)).2.category 2 = .methodDecl ∧
      2 ∉ (Tree.ofOutline file).children 1)) = true := by
    decide +kernel
  obtain ⟨file, _, _, hparse, -, -, hdecide⟩ := Outline.exists_of_readsWith hcheck
  obtain ⟨hform, hmem, hcat, hnew⟩ := of_decide_eq_true hdecide
  obtain ⟨hfits, hgains⟩ := interfaces_receive_iff (memberedClass ["m"] []) (.ofOutline file)
  refine ⟨file, _, hparse, rfl, hform, hmem, hcat, hfits 1 2 hform hmem hnew, fun h => ?_⟩
  obtain ⟨c, id, hc, hgives⟩ := (hgains (Tree.closed_ofOutline file)).1 h
  obtain ⟨p, n, hfirst, -⟩ := hgives.property
  cases hc
  cases hfirst

/-- An interface of the name of a class gets the property of the class, too. -/
theorem interface_gains_property :
    ∃ file, Outline.parse "<?php\n\ninterface A\n\x7b\n\x7d\n" = .ok file ∧
      (Tree.ofOutline file).GainsProperty ((memberedClass [] ["x"]).realize.on (.ofOutline file)).2 := by
  have hcheck : Outline.readsWith "<?php\n\ninterface A\n\x7b\n\x7d\n" (fun file _ => decide (
      ((memberedClass [] ["x"]).realize.on (.ofOutline file)).2.category 1 = .interfaceDecl ∧
      2 ∈ ((memberedClass [] ["x"]).realize.on (.ofOutline file)).2.children 1 ∧
      2 ∉ (Tree.ofOutline file).children 1 ∧
      ((memberedClass [] ["x"]).realize.on (.ofOutline file)).2.category 2 = .propertyDecl)) = true := by
    decide +kernel
  obtain ⟨file, _, _, hparse, -, -, hdecide⟩ := Outline.exists_of_readsWith hcheck
  exact ⟨file, hparse, 1, 2, of_decide_eq_true hdecide⟩

end PhpGraft

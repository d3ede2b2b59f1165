import PhpGraft.Proofs.Graft.Idempotence
import PhpGraft.Proofs.Graft.Reordering
import PhpGraft.Proofs.Graft.Slots
import PhpGraft.Proofs.Model.NameMap

/-!
# Adding to a class later

A class can be realized first, and again later with further interfaces, constants, properties and
methods; or it can be realized once with all of them. Both ways lead to the same file
(`realize_extend`), if the directives of the file stand ahead of its other statements, and the ranked
members of the class, if it is there, stand in order. The first run settles everything that the second
one repeats, so that the second one only adds what is further. That comes behind everything else then,
and not between, but in another order the passes draw the same sketch.
-/

namespace PhpGraft

open Edit

/-! ## What the passes ahead of the members keep -/

/-- Whether the directives among the statements of a file stand ahead of all others. -/
def Tree.DirectivesLead (t : Tree) : Prop :=
  (t.children root).Pairwise fun a b => t.category b = .directive → t.category a = .directive

/-- The ranks of the children of a node. -/
def Tree.childRanks (t : Tree) (id : Nat) : List Nat :=
  (t.children id).filterMap fun c => (t.category c).memberRank?

/-- The children of the declaration of a name; without the declaration there are none. -/
def Tree.body (t : Tree) (name? : Option String) : List Nat :=
  (t.findClassLike? name?).elim [] t.children

/-- Whether the ranked members of the declaration of a name, if it is there, stand in order: traits,
constants, properties, methods. -/
def Tree.MembersGraded (t : Tree) (name? : Option String) : Prop :=
  ∀ id, t.findClassLike? name? = some id → (t.childRanks id).Pairwise (· ≤ ·)

instance (t : Tree) : Decidable t.DirectivesLead :=
  inferInstanceAs (Decidable ((t.children Tree.root).Pairwise _))

instance (t : Tree) (name? : Option String) : Decidable (t.MembersGraded name?) :=
  inferInstanceAs (Decidable (∀ id ∈ t.findClassLike? name?, (t.childRanks id).Pairwise (· ≤ ·)))

/-- Where the directives stand ahead, the one for strict types does not get lost. -/
theorem Declaration.not_losesStrict {d : Declaration} {t : Tree} (h : t.DirectivesLead) :
    ¬d.LosesStrict t := by
  rintro ⟨-, -, -, ⟨c, hc, hstrict⟩, hnot⟩
  have hcat : t.category c = .directive := category_of_isStrictDirective hstrict
  refine hnot ⟨c, ?_, hstrict⟩
  rw [Tree.take_leadingDirectives]
  have hsplit := List.takeWhile_append_dropWhile (p := fun c => t.category c == .directive)
    (l := t.children Tree.root)
  rw [← hsplit] at hc
  refine (List.mem_append.1 hc).resolve_right fun hback => ?_
  -- The first one behind the directives is none, so there is none behind it either.
  rw [Tree.DirectivesLead, ← hsplit, List.pairwise_append] at h
  cases hrest : (t.children Tree.root).dropWhile fun c => t.category c == .directive with
  | nil =>
    rw [hrest] at hback
    cases hback
  | cons first rest =>
    have hfirst := @List.head_dropWhile_not _ (fun c => t.category c == .directive)
      (t.children Tree.root) (by simp [hrest])
    simp only [hrest, List.head_cons] at hfirst
    rw [hrest] at hback h
    have hlead : t.category first = .directive := by
      rcases List.mem_cons.1 hback with rfl | hmem
      · exact hcat
      · exact (List.pairwise_cons.1 h.2.1).1 c hmem hcat
    rw [hlead] at hfirst
    cases hfirst

section Opening

variable {name? : Option String} {makes? : Option Category} {t s : Tree} {c : Change} {id : Nat}

/-- The children of a declaration that is there. -/
theorem Tree.body_of_find (h : t.findClassLike? name? = some id) : t.body name? = t.children id := by
  rw [Tree.body, h, Option.elim_some]

/-- Without the declaration there is no body. -/
theorem Tree.body_of_find_none (h : t.findClassLike? name? = none) : t.body name? = [] := by
  rw [Tree.body, h, Option.elim_none]

/-- The children of a declaration are stored. -/
theorem Tree.lt_of_mem_body (hc : t.Closed) (h : id ∈ t.body name?) : id < t.cells.size := by
  cases hf : t.findClassLike? name? with
  | none =>
    rw [Tree.body_of_find_none hf] at h
    cases h
  | some owner =>
    rw [Tree.body_of_find hf] at h
    exact (hc owner id h).2

/-- The ranked members stand in order where those of the body do. -/
theorem Tree.membersGraded_iff : t.MembersGraded name? ↔
    ((t.body name?).filterMap fun c => (t.category c).memberRank?).Pairwise (· ≤ ·) := by
  unfold Tree.MembersGraded Tree.childRanks
  cases hf : t.findClassLike? name? with
  | none => simp [Tree.body_of_find_none hf]
  | some id => simp [Tree.body_of_find hf]

/-- A declaration stands below the node that its file starts with, or below the namespace. -/
theorem ne_scope_of_find (hc : t.Closed) (h : t.findClassLike? name? = some id) : id ≠ t.scope := by
  unfold Tree.scope
  cases hns : t.namespace? with
  | none => exact Slot.ne_root_of_find hc h
  | some ns =>
    rintro rfl
    have hlike : (t.category id).isClassLike = true := isClassLike_category (isClassLike_of_find h)
    rw [Tree.category_of_namespace? hns] at hlike
    cases hlike

/-- The forms of what stands outside declarations. -/
def Category.isOuter (c : Category) : Bool :=
  c == .directive || c == .namespaceDecl || c == .useDecl || c.isClassLike

/-- A step outside declarations leaves the body of the declaration and all stored nodes alone. -/
theorem PassStep.body_eq (h : PassStep name? t makes? c) (hc : t.Closed)
    (hmakes : makes?.any Category.isOuter = true) :
    (c.apply t).body name? = t.body name? ∧
      ∀ id < t.cells.size, (c.apply t).node id = t.node id := by
  have hgrows := h.grows
  cases h with
  | @insert parent index nodes stored place form inside home fresh bare =>
    rw [Change.apply]
    refine ⟨?_, fun id hlt => Tree.node_insertNodes_of_lt hlt⟩
    have hns : ∀ n ∈ nodes, n.category ≠ .namespaceDecl := fun n hn he =>
      inside (by rw [form n hn, he])
    cases hf : t.findClassLike? name? with
    | some id =>
      have hne : id ≠ parent := by
        obtain ⟨m, rfl, hm⟩ := (Option.any_eq_true _ _).1 hmakes
        have hparent := home m rfl
        cases m with
        | directive | namespaceDecl =>
          obtain rfl := Option.some.inj hparent
          exact Slot.ne_root_of_find hc hf
        | useDecl | classDecl | interfaceDecl =>
          obtain rfl := Option.some.inj hparent
          exact ne_scope_of_find hc hf
        | _ => cases hm
      have hf' : (t.insertNodes parent index nodes).findClassLike? name? = some id :=
        (hgrows inside).find id hf
      rw [Tree.body_of_find hf, Tree.body_of_find hf', Tree.children_insertNodes_of_ne hne]
    | none =>
      rw [Tree.body_of_find_none hf]
      cases hf' : (t.insertNodes parent index nodes).findClassLike? name? with
      | none => exact Tree.body_of_find_none hf'
      | some id =>
        -- The declaration is a new leaf.
        have hle := Slot.le_of_find_insertNodes stored place hns hf hf'
        rw [Tree.body_of_find hf', Tree.children_insertNodes_of_ne (by omega),
          Tree.children_of_le hle]
  | head _ _ form =>
    rw [form] at hmakes
    cases hmakes
  | wrap name bare =>
    rw [Change.apply]
    refine ⟨?_, fun id hlt => by rw [Tree.node_wrapped, if_neg (Nat.ne_of_lt hlt)]⟩
    have hfind := @Tree.findClassLike?_wrapped t name bare name?
    cases hf : t.findClassLike? name? with
    | none => rw [Tree.body_of_find_none hf, Tree.body_of_find_none (hfind.trans hf)]
    | some id =>
      rw [Tree.body_of_find hf, Tree.body_of_find (hfind.trans hf),
        Tree.children_wrapped_of_ne (Slot.ne_root_of_find hc hf) (Nat.ne_of_lt (lt_of_find hf))]

end Opening

namespace Declaration

variable {d : Declaration} {t s : Tree}

/-- The passes up to the one for the declaration itself. -/
def opening (d : Declaration) : Pipeline := d.parts.scaffold ++ [d.declares]

/-- The passes of a declaration are those up to the declaration and those for what belongs to it. -/
theorem passes_eq_opening (d : Declaration) : d.passes = d.opening ++ d.details := by
  cases d <;> simp only [passes, ClassSpec.passes, InterfaceSpec.passes, opening, declares, details,
    List.append_assoc] <;> rfl

/-- The passes up to the declaration add what stands outside declarations. -/
theorem makes_of_mem_opening {p : Pass} (hp : p ∈ d.opening) :
    p.makes?.any Category.isOuter = true := by
  revert p
  rw [opening, DeclarationParts.scaffold]
  simp only [List.forall_mem_append, List.forall_mem_singleton]
  refine ⟨⟨⟨?_, ?_⟩, ?_⟩, ?_⟩
  · split <;> simp [Pass.makes?, Category.isOuter]
  · cases d.parts.scope? <;> simp [Pass.makes?, Category.isOuter]
  · split <;> simp [Pass.makes?, Category.isOuter]
  · cases d <;> simp [declares, Pass.makes?, Category.isOuter, Category.isClassLike]

/-- The passes up to the declaration leave the body of the declaration and all stored nodes alone. -/
theorem opening_body (hc : t.Closed) (h : d.opening.Leads t s) :
    s.Closed ∧ t.cells.size ≤ s.cells.size ∧ s.body d.name? = t.body d.name? ∧
      ∀ id < t.cells.size, s.node id = t.node id := by
  have hconcerns : ∀ p ∈ d.opening, p.Concerns d.name? := fun p hp =>
    d.concerns_passes p (by rw [passes_eq_opening]; exact List.mem_append_left _ hp)
  refine h.induction (P := fun u => u.Closed ∧ t.cells.size ≤ u.cells.size ∧
    u.body d.name? = t.body d.name? ∧ ∀ id < t.cells.size, u.node id = t.node id)
    (fun p hp u c hu hplan => ?_) ⟨hc, Nat.le_refl _, rfl, fun _ _ => rfl⟩
  obtain ⟨hclosed, hsize, hbody, hnode⟩ := hu
  have hstep := passStep_of_plan (hconcerns p hp) hplan
  obtain ⟨hbody', hnode'⟩ := hstep.body_eq hclosed (makes_of_mem_opening hp)
  have hsize' : u.cells.size ≤ (c.apply u).cells.size := by
    cases hstep <;> simp [Change.apply]
  exact ⟨Slot.closed_of_step hclosed hstep, Nat.le_trans hsize hsize', hbody'.trans hbody,
    fun id hlt => (hnode' id (Nat.lt_of_lt_of_le hlt hsize)).trans (hnode id hlt)⟩

/-- The passes up to the declaration keep its ranked members in order. -/
theorem opening_membersGraded (hc : t.Closed) (hg : t.MembersGraded d.name?)
    (h : d.opening.Leads t s) : s.MembersGraded d.name? := by
  obtain ⟨-, -, hbody, hnode⟩ := opening_body hc h
  rw [Tree.membersGraded_iff] at hg ⊢
  rw [hbody]
  refine (congrArg (List.Pairwise (· ≤ ·)) (List.filterMap_congr fun c hmem => ?_)).mpr hg
  rw [Tree.category, hnode c (Tree.lt_of_mem_body hc hmem), Tree.category]

/-- After the passes up to the declaration, the declaration is there. -/
theorem opening_found (h : d.opening.Leads t s) : (s.findClassLike? d.name?).isSome = true := by
  have hconcerns : d.declares.Concerns d.name? := d.concerns_passes _ (by
    rw [passes_eq_opening]
    simp [opening])
  obtain ⟨u, -, hlast⟩ := Pipeline.leads_append.1 h
  obtain ⟨c?, hplan, rfl⟩ := Pipeline.leads_singleton.1 hlast
  have hsettled : d.declares.Settled (u.after c?) := by
    cases c? with
    | none => exact hplan
    | some c =>
      exact settled_after_plan hconcerns hplan
  have hfound : ∀ {name? kind doc? attributes},
      planDeclaration (u.after c?) name? kind doc? attributes = .ok none →
        ((u.after c?).findClassLike? name?).isSome = true := by
    intro _ _ _ _ hplan
    obtain ⟨hsome, -⟩ | ⟨-, _, -, hc⟩ := planDeclaration_eq_ok.1 hplan
    · exact hsome
    · cases hc
  cases d with
  | ofClass c => exact hfound hsettled
  | ofInterface i => exact hfound hsettled

end Declaration

/-! ## Classes with more in them -/

/-- What can be added to a class later. -/
structure ClassAddition where
  /-- The further interfaces. -/
  interfaces : List String := []
  /-- The further constants. -/
  constants : List ConstSpec := []
  /-- The further properties. -/
  properties : List PropertySpec := []
  /-- The further methods. -/
  methods : List MethodSpec := []

/-- The class with more in it. -/
def ClassSpec.extend (b : ClassSpec) (a : ClassAddition) : ClassSpec :=
  { b with
    interfaces := b.interfaces.addAll a.interfaces
    constants := b.constants.addAll a.constants
    properties := b.properties.addAll a.properties
    methods := b.methods.addAll a.methods }

/-- Whether a class holds nothing under the keys of what is added to it. -/
structure ClassAddition.FreshFor (a : ClassAddition) (b : ClassSpec) : Prop where
  /-- The interfaces are new. -/
  interfaces : ∀ x ∈ a.interfaces, b.interfaces.contains x = false
  /-- The constants are new. -/
  constants : ∀ x ∈ a.constants, b.constants.contains x.name = false
  /-- The properties are new. -/
  properties : ∀ x ∈ a.properties, b.properties.contains x.name = false
  /-- The methods are new. -/
  methods : ∀ x ∈ a.methods, b.methods.contains x.name = false

namespace ClassSpec

/-- The passes for the parent of the class. -/
def parentPasses (c : ClassSpec) : Pipeline := (c.parent?.map (.parent c.name?)).toList

/-- The passes for the interfaces of the class. -/
def interfacePasses (c : ClassSpec) : Pipeline :=
  if c.interfaces.isEmpty then [] else [.interfaces c.name? c.interfaces.names]

/-- The passes for the traits of the class. -/
def traitPasses (c : ClassSpec) : Pipeline :=
  if c.traits.isEmpty then [] else [.traits c.name? c.traits.names]

variable {b : ClassSpec} {a : ClassAddition} {s t t' : Tree} {k : Sketch} {owner : Nat}

/-- What belongs to a class is added kind by kind. -/
theorem details_eq (c : ClassSpec) : (Declaration.ofClass c).details =
    c.parentPasses ++ (c.interfacePasses ++ (c.traitPasses ++
      (c.constantPasses c.name? ++ (c.propertyPasses ++ c.methodPasses c.name?)))) := by
  simp only [Declaration.details, parentPasses, interfacePasses, traitPasses, List.append_assoc]

/-- What is added to a class is asked for behind what it has, kind by kind. -/
theorem exists_details_extend (h : a.FreshFor b) : ∃ cs ps ms : Pipeline,
    (Declaration.ofClass (b.extend a)).details =
      b.parentPasses ++ ((b.extend a).interfacePasses ++ (b.traitPasses ++
        ((b.constantPasses b.name? ++ cs) ++ ((b.propertyPasses ++ ps) ++
          (b.methodPasses b.name? ++ ms))))) ∧
      Sketch.RequestsAt 1 cs ∧ Sketch.RequestsAt 2 ps ∧ Sketch.RequestsAt 3 ms := by
  obtain ⟨constants, hconstants⟩ := NameMap.items_prefix_addAll h.constants
  obtain ⟨properties, hproperties⟩ := NameMap.items_prefix_addAll h.properties
  obtain ⟨methods, hmethods⟩ := NameMap.items_prefix_addAll h.methods
  refine ⟨constants.map (.constant b.name?),
    properties.map fun p => .property b.name? { p with typed := b.typed && p.typed },
    methods.map fun m => .method b.name? { m with typed := b.typed && m.typed }, ?_, ?_, ?_, ?_⟩
  · rw [details_eq]
    have hc : (b.extend a).constantPasses b.name? =
        b.constantPasses b.name? ++ constants.map (.constant b.name?) := by
      simp only [DeclarationParts.constantPasses, extend, ← hconstants, List.map_append]
    have hp : (b.extend a).propertyPasses = b.propertyPasses ++
        properties.map fun p => .property b.name? { p with typed := b.typed && p.typed } := by
      simp only [propertyPasses, extend, ← hproperties, List.map_append]
    have hm : (b.extend a).methodPasses b.name? = b.methodPasses b.name? ++
        methods.map fun m => .method b.name? { m with typed := b.typed && m.typed } := by
      simp only [DeclarationParts.methodPasses, extend, ← hmethods, List.map_append]
    rw [← hc, ← hp, ← hm]
    rfl
  all_goals
    intro q hq
    obtain ⟨spec, -, rfl⟩ := List.mem_map.1 hq
    exact ⟨_, rfl, rfl⟩

/-- Asking for the interfaces of a class, and then for further ones, is asking for all of them. -/
theorem addAll_interfacePasses (h : a.FreshFor b) (k : Sketch) :
    Sketch.addAll s owner (b.extend a).interfacePasses (Sketch.addAll s owner b.interfacePasses k) =
      Sketch.addAll s owner (b.extend a).interfacePasses k := by
  obtain ⟨further, hfurther⟩ := NameMap.items_prefix_addAll h.interfaces
  unfold interfacePasses
  cases hb : b.interfaces.isEmpty with
  | true => rfl
  | false =>
    have he : (b.extend a).interfaces.isEmpty = false := by
      simp only [NameMap.isEmpty, extend, ← hfurther, List.isEmpty_eq_false_iff] at hb ⊢
      exact List.append_ne_nil_of_left_ne_nil hb _
    have hnames : (b.extend a).interfaces.names =
        b.interfaces.names ++ further.map Keyed.name := by
      simp only [NameMap.names, extend, ← hfurther, List.map_append]
    rw [he, hnames]
    exact @Sketch.add_interfaces_append s owner k b.name? b.interfaces.names
      (further.map Keyed.name)

/-- The passes for interfaces change the head of the class. -/
theorem makes_of_mem_interfacePasses (c : ClassSpec) :
    ∀ p ∈ c.interfacePasses, p.makes? = none := by
  unfold interfacePasses
  split <;> simp [Pass.makes?]

/-- A sketch to which a class was added, and then what is further, is the one to which all of it was
added at once. -/
theorem addAll_details_extend {cs ps ms : Pipeline} (h : a.FreshFor b)
    (hdetails : (Declaration.ofClass (b.extend a)).details =
      b.parentPasses ++ ((b.extend a).interfacePasses ++ (b.traitPasses ++
        ((b.constantPasses b.name? ++ cs) ++ ((b.propertyPasses ++ ps) ++
          (b.methodPasses b.name? ++ ms))))))
    (hcs : Sketch.RequestsAt 1 cs) (hps : Sketch.RequestsAt 2 ps)
    (hk : Graded (Item.rank? s) k.items) :
    Sketch.addAll s owner ((b.extend a).interfacePasses ++ (cs ++ (ps ++ ms)))
        (Sketch.addAll s owner (Declaration.ofClass b).details k) =
      Sketch.addAll s owner (Declaration.ofClass (b.extend a)).details k := by
  have hhead := (b.extend a).makes_of_mem_interfacePasses
  have htraits : ∀ q ∈ b.traitPasses, q.makes? ≠ none := by
    unfold traitPasses
    split <;> simp [Pass.makes?]
  have hconstants : ∀ q ∈ b.constantPasses b.name?, q.makes? ≠ none := by
    simp [DeclarationParts.constantPasses, Pass.makes?]
  have hproperties : ∀ q ∈ b.propertyPasses, q.makes? ≠ none := by
    simp [propertyPasses, Pass.makes?]
  have hmethods : ∀ q ∈ b.methodPasses b.name?, q.makes? ≠ none := by
    simp [DeclarationParts.methodPasses, Pass.makes?]
  have hproperties' : Sketch.RequestsAt 2 b.propertyPasses := by
    intro q hq
    obtain ⟨spec, -, rfl⟩ := List.mem_map.1 hq
    exact ⟨_, rfl, rfl⟩
  have hmethods' : Sketch.RequestsAt 3 (b.methodPasses b.name?) := by
    intro q hq
    obtain ⟨spec, -, rfl⟩ := List.mem_map.1 hq
    exact ⟨_, rfl, rfl⟩
  rw [hdetails, details_eq]
  simp only [Sketch.addAll_append]
  -- The interfaces go ahead of everything that stands among the children.
  rw [Sketch.addAll_comm_of_makes? hhead hmethods, Sketch.addAll_comm_of_makes? hhead hproperties,
    Sketch.addAll_comm_of_makes? hhead hconstants, Sketch.addAll_comm_of_makes? hhead htraits,
    addAll_interfacePasses h]
  -- The constants go ahead of properties and methods, and the properties ahead of methods.
  have hgraded := fun ps {k} => @Sketch.graded_addAll s owner k ps
  have hconst := hgraded (b.constantPasses b.name?)
    (hgraded b.traitPasses (hgraded (b.extend a).interfacePasses (hgraded b.parentPasses hk)))
  rw [Sketch.addAll_comm_of_rank (by decide) hcs hmethods' (hgraded _ hconst),
    Sketch.addAll_comm_of_rank (by decide) hcs hproperties' hconst,
    Sketch.addAll_comm_of_rank (by decide) hps hmethods' (hgraded _ (hgraded _ hconst))]

/-- Where everything that a class holds is settled, a run for more of it only adds what is further. -/
theorem leads_further {cs ps ms : Pipeline}
    (hdetails : (Declaration.ofClass (b.extend a)).details =
      b.parentPasses ++ ((b.extend a).interfacePasses ++ (b.traitPasses ++
        ((b.constantPasses b.name? ++ cs) ++ ((b.propertyPasses ++ ps) ++
          (b.methodPasses b.name? ++ ms))))))
    (hsettled : ∀ p ∈ (Declaration.ofClass b).details, p.Settled t)
    (h : (Declaration.ofClass (b.extend a)).details.Leads t t') :
    ((b.extend a).interfacePasses ++ (cs ++ (ps ++ ms))).Leads t t' := by
  have hconcerns : ∀ p ∈ (Declaration.ofClass (b.extend a)).details, p.Concerns b.name? :=
    fun p hp => (Declaration.ofClass (b.extend a)).concerns_passes p (by
      rw [Declaration.passes_eq_opening]
      exact List.mem_append_right _ hp)
  have hmakes : ∀ p ∈ (Declaration.ofClass (b.extend a)).details,
      p.makes? ≠ some .namespaceDecl := fun p hp =>
    (Declaration.makes_of_mem_inner (List.mem_append_right _ (List.mem_cons_of_mem _ hp))).1
  rw [hdetails] at h hconcerns hmakes
  rw [details_eq] at hsettled
  simp only [List.forall_mem_append] at hconcerns hmakes hsettled
  simp only [List.append_assoc] at h
  obtain ⟨hparent, hinterfaces, htraits, ⟨hconstants, hcs⟩, ⟨hproperties, hps⟩, hmethods, hms⟩ :=
    hconcerns
  obtain ⟨-, hinterfaces', -, ⟨-, hcs'⟩, ⟨-, hps'⟩, -⟩ := hmakes
  obtain ⟨sparent, -, straits, sconstants, sproperties, smethods⟩ := hsettled
  have h := h.skip hparent sparent (.refl _ _)
  obtain ⟨u, hu, h⟩ := Pipeline.leads_append.1 h
  have gu := hu.grows hinterfaces hinterfaces'
  have h := (h.skip htraits straits gu).skip hconstants sconstants gu
  obtain ⟨v, hv, h⟩ := Pipeline.leads_append.1 h
  have gv := gu.trans (hv.grows hcs hcs')
  have h := h.skip hproperties sproperties gv
  obtain ⟨w, hw, h⟩ := Pipeline.leads_append.1 h
  have gw := gv.trans (hw.grows hps hps')
  have h := h.skip hmethods smethods gw
  simp only [Pipeline.leads_append]
  exact ⟨u, hu, v, hv, w, hw, h⟩

end ClassSpec

/-- Realizing a class and then the class with more in it leads to the same file as realizing the class
with more in it at once, if what is added is new to the class, the directives of the file stand ahead
of its other statements, and the ranked members of the class, if it is there, stand in order. -/
theorem realize_extend (b : ClassSpec) (a : ClassAddition) (t t₁ t₂ t₃ : Tree)
    (records₁ records₂ records₃ : List PassRecord) (hfresh : a.FreshFor b) (hc : t.Closed)
    (hdirectives : t.DirectivesLead) (hmembers : t.MembersGraded b.name?)
    (h₁ : (Declaration.ofClass b).realize.on t = (.ok records₁, t₁))
    (h₂ : (Declaration.ofClass (b.extend a)).realize.on t₁ = (.ok records₂, t₂))
    (h₃ : (Declaration.ofClass (b.extend a)).realize.on t = (.ok records₃, t₃)) :
    t₂.outline = t₃.outline := by
  have hfirst : (Declaration.ofClass b).passes.Leads t t₁ := ⟨records₁, h₁⟩
  have hsecond : (Declaration.ofClass (b.extend a)).passes.Leads t₁ t₂ := ⟨records₂, h₂⟩
  have honce : (Declaration.ofClass (b.extend a)).passes.Leads t t₃ := ⟨records₃, h₃⟩
  have hsettled := (Declaration.settled_passes_iff hfirst).2
    (Declaration.not_losesStrict hdirectives)
  -- The passes up to the class are the same for both classes, and settled by the first run.
  have hopening : (Declaration.ofClass (b.extend a)).opening = (Declaration.ofClass b).opening := rfl
  have hconcerns : ∀ p ∈ (Declaration.ofClass b).opening ++ (Declaration.ofClass b).details,
      p.Concerns b.name? := by
    rw [← Declaration.passes_eq_opening]
    exact (Declaration.ofClass b).concerns_passes
  have hconcerns' : ∀ p ∈ (Declaration.ofClass b).opening ++
      (Declaration.ofClass (b.extend a)).details, p.Concerns b.name? := by
    rw [← hopening, ← Declaration.passes_eq_opening]
    exact (Declaration.ofClass (b.extend a)).concerns_passes
  rw [Declaration.passes_eq_opening] at hfirst hsecond honce hsettled
  rw [hopening] at hsecond honce
  rw [List.forall_mem_append] at hconcerns hconcerns' hsettled
  obtain ⟨s, hs, hdetails₁⟩ := Pipeline.leads_append.1 hfirst
  obtain ⟨s', hs', hdetails₃⟩ := Pipeline.leads_append.1 honce
  obtain rfl := hs.unique hs'
  have hdetails₂ := hsecond.skip hconcerns.1 hsettled.1 (.refl _ _)
  obtain ⟨hclosed, -⟩ := Declaration.opening_body hc hs
  have hgraded := @Declaration.opening_membersGraded (.ofClass b) t s hc hmembers hs
  obtain ⟨owner, hid⟩ := Option.isSome_iff_exists.1
    (@Declaration.opening_found (.ofClass b) t s hs)
  have hk : Graded (Item.rank? s) (Sketch.ofTree s owner).items := by
    rw [Graded, Sketch.ofTree, List.filterMap_map]
    exact hgraded owner hid
  -- What the second run adds comes behind all that the first one added, in the same sketch.
  obtain ⟨cs, ps, ms, hdetails, hcs, hps, -⟩ := ClassSpec.exists_details_extend hfresh
  have hfurther := ClassSpec.leads_further hdetails hsettled.2 hdetails₂
  have hsub : ∀ p ∈ (b.extend a).interfacePasses ++ (cs ++ (ps ++ ms)),
      p ∈ (Declaration.ofClass (b.extend a)).details := by
    intro p hp
    rw [hdetails]
    simp only [List.mem_append] at hp ⊢
    tauto
  have hdrawn := Drawn.ofTree hclosed hid
  have hdrawn₂ := (hdrawn.run hconcerns.2 (fun _ => Declaration.isMember_of_mem_details)
    hdetails₁).run (fun p hp => hconcerns'.2 p (hsub p hp))
    (fun p hp => Declaration.isMember_of_mem_details (hsub p hp)) hfurther
  have hdrawn₃ := hdrawn.run hconcerns'.2 (fun _ => Declaration.isMember_of_mem_details) hdetails₃
  have hsame := @ClassSpec.addAll_details_extend b a s _ owner cs ps ms hfresh hdetails
    hcs hps hk
  rw [Sketch.addAll, Sketch.addAll, Sketch.addAll] at hsame
  rw [hsame] at hdrawn₂
  exact hdrawn₂.outline_eq hclosed hdrawn₃

/-- A class with a property. -/
def pointClass : ClassSpec :=
  { ClassSpec.new "Point" with properties := .ofList [{ name := "x" }] }

/-- An interface, a constant and another property for it. -/
def pointAddition : ClassAddition where
  interfaces := ["Countable"]
  constants := [{ name := "ZERO", value := .ofLiteral (.int 0) }]
  properties := [{ name := "y" }]

/-- A file that has the class, with a method and a piece of source behind it. -/
def pointFile : Outline :=
  .file [.mk { kind := .classDecl { name? := some "Point" } }
    [.leaf { kind := .methodDecl { name := "norm" } }, .leaf { kind := .verbatim "use Printing;" }]]

/-- The constant goes ahead of the property that is there by then. -/
theorem realize_extend_point :
    ∃ records₁ records₂ records₃ t₁ t₂ t₃,
      (Declaration.ofClass pointClass).realize.on (.ofOutline pointFile) = (.ok records₁, t₁) ∧
        (Declaration.ofClass (pointClass.extend pointAddition)).realize.on t₁ =
          (.ok records₂, t₂) ∧
        (Declaration.ofClass (pointClass.extend pointAddition)).realize.on (.ofOutline pointFile) =
          (.ok records₃, t₃) ∧
        t₂.outline = t₃.outline := by
  have hok : (((Declaration.ofClass pointClass).realize.on (.ofOutline pointFile)).1.isOk &&
      (((Declaration.ofClass (pointClass.extend pointAddition)).realize.on
        ((Declaration.ofClass pointClass).realize.on (.ofOutline pointFile)).2).1.isOk &&
      ((Declaration.ofClass (pointClass.extend pointAddition)).realize.on
        (.ofOutline pointFile)).1.isOk)) = true := by decide +kernel
  rcases h₁ : (Declaration.ofClass pointClass).realize.on (.ofOutline pointFile) with
    ⟨e | records₁, t₁⟩
  · rw [h₁] at hok
    cases hok
  · rw [h₁] at hok
    obtain ⟨-, hok⟩ := Bool.and_eq_true_iff.1 hok
    obtain ⟨hok₂, hok₃⟩ := Bool.and_eq_true_iff.1 hok
    rcases h₂ : (Declaration.ofClass (pointClass.extend pointAddition)).realize.on t₁ with
      ⟨e | records₂, t₂⟩
    · rw [h₂] at hok₂
      cases hok₂
    · rcases h₃ : (Declaration.ofClass (pointClass.extend pointAddition)).realize.on
          (.ofOutline pointFile) with ⟨e | records₃, t₃⟩
      · rw [h₃] at hok₃
        cases hok₃
      · exact ⟨records₁, records₂, records₃, t₁, t₂, t₃, rfl, h₂, rfl,
          realize_extend pointClass pointAddition _ t₁ t₂ t₃ records₁ records₂ records₃
            ⟨by decide +kernel, by decide +kernel, by decide +kernel, by decide +kernel⟩
            (Tree.closed_ofOutline _) (by decide +kernel) (by decide +kernel) h₁ h₂ h₃⟩

end PhpGraft

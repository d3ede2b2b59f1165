import PhpGraft.Proofs.Graft.Layout
import PhpGraft.Proofs.Graft.Opening

/-!
# Classes in files of their own

A class whose attributes and members can be realized is added to an empty file without an error, and the file
is then made of nothing but the class (`ClassSpec.exists_leads_empty`): the directive for strict types, the
namespace with the imports and the class in it, and the members of the class in the layout, each kind in the
order of the class. The imports are followed as leaves of the scope, and the members through the sketch of the
class.
-/

namespace PhpGraft

open Edit

/-! ## Names that are all missing -/

/-- All wanted things are missing if none of their names is known and no two are spellings of one name. -/
theorem Name.missing_eq_self {α : Type} {nameOf : α → String} {known : List String} {wanted : List α}
    (h : (known ++ wanted.map nameOf).Pairwise fun a b => key a ≠ key b) :
    missing nameOf known wanted = wanted := by
  induction wanted generalizing known with
  | nil => rfl
  | cons x wanted ih =>
    rw [List.map_cons, List.append_cons] at h
    have hnew : known.any (same · (nameOf x)) = false := by
      rw [List.any_eq_false]
      intro n hn hsame
      obtain ⟨hknown, -, -⟩ := List.pairwise_append.1 h
      exact (List.pairwise_append.1 hknown).2.2 n hn (nameOf x) (List.mem_singleton_self _) (same_iff.1 hsame)
    rw [missing, hnew, if_neg Bool.false_ne_true, ih h]

/-- No two names of a map of class names are spellings of one name. -/
theorem NameMap.missing_names (m : NameMap String) (nameOf : String → String) (hname : ∀ n, nameOf n = n) :
    Name.missing nameOf [] m.names = m.names := by
  have hitems : m.names = m.items := List.map_id m.items
  refine Name.missing_eq_self ?_
  rw [List.nil_append, funext hname, List.map_id', hitems]
  exact m.distinct

/-! ## Members of a new class -/

/-- Members of ranks up to one, in the order of their ranks. -/
structure Layered (rank : Nat) (ns : List Node) : Prop where
  /-- Each member has a rank, and none has a higher one. -/
  ranked : ∀ n ∈ ns, ∃ k ≤ rank, n.category.memberRank? = some k
  /-- The members stand in order. -/
  sorted : (ns.filterMap fun n => n.category.memberRank?).Pairwise (· ≤ ·)

namespace Layered

variable {rank rank' : Nat} {ns : List Node} {n : Node}

/-- Members of one rank stand in order. -/
theorem of_rank (h : ∀ n ∈ ns, n.category.memberRank? = some rank) : Layered rank ns := by
  refine ⟨fun n hn => ⟨rank, Nat.le_refl _, h n hn⟩, ?_⟩
  rw [List.pairwise_filterMap]
  refine List.pairwise_of_forall_mem_list fun a ha b hb i hi j hj => ?_
  rw [h a ha] at hi
  rw [h b hb] at hj
  exact Nat.le_of_eq (Option.some.inj (hi.symm.trans hj))

/-- Members of lower ranks are members of ranks up to a higher one. -/
theorem mono (h : Layered rank ns) (hle : rank ≤ rank') : Layered rank' ns :=
  ⟨fun n hn => by
    obtain ⟨k, hk, hrank⟩ := h.ranked n hn
    exact ⟨k, Nat.le_trans hk hle, hrank⟩, h.sorted⟩

/-- A member of the highest rank goes behind the others. -/
theorem concat (h : Layered rank ns) (hn : n.category.memberRank? = some rank) : Layered rank (ns ++ [n]) := by
  refine ⟨List.forall_mem_append.2 ⟨h.ranked, List.forall_mem_singleton.2 ⟨rank, Nat.le_refl _, hn⟩⟩, ?_⟩
  rw [List.filterMap_append, List.pairwise_append]
  refine ⟨h.sorted, by simp [hn], fun k hk k' hk' => ?_⟩
  obtain ⟨m, hm, hrank⟩ := List.mem_filterMap.1 hk
  obtain ⟨j, hj, hj'⟩ := h.ranked m hm
  obtain rfl : j = k := Option.some.inj (hj'.symm.trans hrank)
  obtain rfl : k' = rank := by simpa [hn] using hk'
  exact hj

/-- Nothing is ahead of members. -/
theorem place_new (h : Layered rank ns) {s : Tree} (x : Item) :
    place (Item.rank? s) rank x (ns.map .new) = (ns.map .new) ++ [x] := by
  have hgraded : Graded (Item.rank? s) (ns.map .new ++ []) := by
    rw [List.append_nil, Graded, List.filterMap_map]
    exact h.sorted
  have hseam : Seam (Item.rank? s) rank (ns.map .new) [] := by
    refine ⟨fun i hi k hk => ?_, List.forall_mem_nil _, ?_⟩
    · obtain ⟨n, hn, rfl⟩ := List.mem_map.1 hi
      obtain ⟨j, hj, hrank⟩ := h.ranked n hn
      obtain rfl : j = k := Option.some.inj (hrank.symm.trans hk)
      exact hj
    · rcases List.eq_nil_or_concat ns with rfl | ⟨front, last, rfl⟩
      · exact .inr ⟨List.forall_mem_nil _, .inl rfl⟩
      · obtain ⟨k, -, hrank⟩ := h.ranked last (by simp)
        refine .inl ⟨front.map .new, .new last, by simp, ?_⟩
        exact Option.isSome_iff_exists.2 ⟨k, hrank⟩
  have hplace := place_of_seam (x := x) hgraded hseam
  rwa [List.append_nil] at hplace

end Layered

namespace Drawn

variable {name? : Option String} {s t : Tree} {id rank : Nat} {head : NodeKind} {ps : Pipeline}
  {ms : List MemberRequest} {front nodes : List Node}

/-- Members that can be realized are added behind those that are there, one by one. -/
theorem exists_leads_members (hps : ∀ p ∈ ps, p.Concerns name?) (hms : ps.map Pass.request? = ms.map some)
    (hrank : ∀ m ∈ ms, m.rank = rank) (hdistinct : ms.Pairwise fun m m' => m'.same m.name = false)
    (hfresh : ∀ m ∈ ms, Sketch.has s m (front.map .new) = false) (hfront : Layered rank front)
    (hnodes : List.Forall₂ (fun m n => m.realize (s.category id == .interfaceDecl) = .ok n) ms nodes)
    (h : Drawn name? s id ⟨head, front.map .new⟩ t) :
    ∃ t', ps.Leads t t' ∧ Drawn name? s id ⟨head, (front ++ nodes).map .new⟩ t' ∧
      Layered rank (front ++ nodes) := by
  induction hnodes generalizing ps front t with
  | nil =>
    obtain rfl := List.map_eq_nil_iff.1 hms
    exact ⟨t, Pipeline.leads_nil.2 rfl, by rwa [List.append_nil], by rwa [List.append_nil]⟩
  | @cons m n ms nodes hn _ ih =>
    cases ps with
    | nil => cases hms
    | cons p ps =>
      rw [List.map_cons, List.map_cons, List.cons.injEq] at hms
      rw [List.forall_mem_cons] at hps hrank hfresh
      rw [List.pairwise_cons] at hdistinct
      obtain ⟨rfl, hlater⟩ := hrank
      -- the member is not there and is realized
      have hfound := h.grows.find id h.found
      have hplan : p.plan t = .ok (some (.insert id (memberIndex t id n.category) [n])) := by
        rw [Sketch.plan_of_request? hms.1 hps.1]
        refine planMember_eq_ok.2 ⟨id, hfound, .inr ⟨(h.hasMember_eq m).trans hfresh.1, n, ?_, rfl⟩⟩
        rwa [h.grows.category_eq (lt_of_find h.found)]
      have hdrawn := h.planMember ((Sketch.plan_of_request? hms.1 hps.1).symm.trans hplan)
      have hn' := (m.realizes _ n hn)
      have hadded : Sketch.addMember s (s.category id == .interfaceDecl) m (front.map .new) =
          (front ++ [n]).map .new := by
        rw [Sketch.addMember, if_neg (by rw [hfresh.1]; exact Bool.false_ne_true), hn]
        exact (hfront.place_new _).trans (by rw [List.map_append]; rfl)
      dsimp only at hdrawn
      rw [hadded] at hdrawn
      have hfresh' : ∀ m' ∈ ms, Sketch.has s m' ((front ++ [n]).map .new) = false := by
        intro m' hm'
        rw [List.map_append, Sketch.has_append, hfresh.2 m' hm', Bool.false_or]
        simp [Sketch.has, Item.node, isMember, hn'.2, hdistinct.1 m' hm']
      obtain ⟨t', hleads, hdrawn', hlayered⟩ := ih hps.2 hms.2 hlater hdistinct.2 hfresh'
        (hfront.concat (hn'.1 ▸ m.ranked)) hdrawn
      rw [List.append_assoc, List.singleton_append] at hdrawn' hlayered
      exact ⟨t', Pipeline.leads_cons.2 ⟨_, hplan, hleads⟩, hdrawn', hlayered⟩

end Drawn

namespace ClassSpec

variable {c : ClassSpec} {s t : Tree} {owner : Nat} {items : List Item}

/-- The nodes of the constants, properties and methods of a class. -/
structure Realized (c : ClassSpec) (constants properties methods : List Node) : Prop where
  /-- The constants become nodes. -/
  constants : List.Forall₂ (fun k n => k.realize = .ok n) c.constants.items constants
  /-- The properties become nodes. -/
  properties : List.Forall₂ (fun p n => ({ p with typed := c.typed && p.typed } : PropertySpec).realize = .ok n)
    c.properties.items properties
  /-- The methods become nodes. -/
  methods : List.Forall₂ (fun m n => ({ m with typed := c.typed && m.typed } : MethodSpec).realize false = .ok n)
    c.methods.items methods

/-- The members of a class: its traits, constants, properties and methods. -/
def members (c : ClassSpec) (constants properties methods : List Node) : List Node :=
  traitNodes c.traits.names ++ constants ++ properties ++ methods

/-- The head of a class without its parent and its interfaces. -/
def bareHead (c : ClassSpec) : ClassDecl := { name? := c.name?, modifiers := c.modifiers }

/-- The head of a class. -/
def head (c : ClassSpec) : ClassDecl := { c.bareHead with parent? := c.parent?, interfaces := c.interfaces.names }

/-- A class without a parent is given its own. -/
theorem exists_leads_parent (h : Drawn c.name? s owner ⟨.classDecl c.bareHead, items⟩ t) :
    ∃ u, c.parentPasses.Leads t u ∧
      Drawn c.name? s owner ⟨.classDecl { c.bareHead with parent? := c.parent? }, items⟩ u := by
  rw [parentPasses]
  cases hparent : c.parent? with
  | none => exact ⟨t, Pipeline.leads_nil.2 rfl, h⟩
  | some parent =>
    have hplan : (Pass.parent c.name? parent).plan t = .ok (some (.head owner _)) :=
      planHead_eq_ok.2 ⟨owner, h.grows.find owner h.found,
        some (.classDecl { c.bareHead with parent? := some parent }), by rw [h.head]; rfl, rfl⟩
    have hdrawn := h.step (p := .parent c.name? parent) rfl (.inl rfl) hplan
    exact ⟨_, Pipeline.leads_singleton.2 ⟨_, hplan, rfl⟩, hdrawn⟩

/-- A class without interfaces is given its own. -/
theorem exists_leads_interfaces
    (h : Drawn c.name? s owner ⟨.classDecl { c.bareHead with parent? := c.parent? }, items⟩ t) :
    ∃ u, c.interfacePasses.Leads t u ∧ Drawn c.name? s owner ⟨.classDecl c.head, items⟩ u := by
  have hmissing := c.interfaces.missing_names id fun _ => rfl
  rw [interfacePasses]
  cases hempty : c.interfaces.isEmpty with
  | true =>
    have hhead : c.head = { c.bareHead with parent? := c.parent? } := by
      rw [head, NameMap.names, List.isEmpty_iff.1 hempty]
      rfl
    exact ⟨t, Pipeline.leads_nil.2 rfl, by rwa [hhead]⟩
  | false =>
    have hplan : ∃ c?, (Pass.interfaces c.name? c.interfaces.names).plan t = .ok c? :=
      ⟨_, planHead_eq_ok.2 ⟨owner, h.grows.find owner h.found, _, by rw [h.head]; rfl, rfl⟩⟩
    obtain ⟨c?, hplan⟩ := hplan
    have hdrawn := h.step (p := .interfaces c.name? c.interfaces.names) rfl (.inl rfl) hplan
    rw [Sketch.add, Sketch.headAfter_withInterfaces?] at hdrawn
    refine ⟨_, Pipeline.leads_singleton.2 ⟨_, hplan, rfl⟩, ?_⟩
    rw [head, ← hmissing]
    exact hdrawn

/-- A class without members is given its traits. -/
theorem exists_leads_traits (h : Drawn c.name? s owner ⟨.classDecl c.head, []⟩ t) :
    ∃ u, c.traitPasses.Leads t u ∧
      Drawn c.name? s owner ⟨.classDecl c.head, (traitNodes c.traits.names).map .new⟩ u := by
  rw [traitPasses]
  cases hempty : c.traits.isEmpty with
  | true =>
    have hnames : c.traits.names = [] := by
      rw [NameMap.names, List.isEmpty_iff.1 hempty]
      rfl
    exact ⟨t, Pipeline.leads_nil.2 rfl, by rwa [hnames]⟩
  | false =>
    have hclass : t.category owner = .classDecl := by
      rw [Tree.category, h.head]
      rfl
    obtain ⟨c?, hplan⟩ : ∃ c?, (Pass.traits c.name? c.traits.names).plan t = .ok c? :=
      ⟨_, planTraits_eq_ok.2 ⟨owner, h.grows.find owner h.found, hclass, rfl⟩⟩
    have hdrawn := h.step (p := .traits c.name? c.traits.names) rfl (.inr ⟨_, rfl, rfl⟩) hplan
    rw [Sketch.add, Sketch.addTraits, List.append_nil] at hdrawn
    have hmissing := c.traits.missing_names (fun name => name) fun _ => rfl
    refine ⟨_, Pipeline.leads_singleton.2 ⟨_, hplan, rfl⟩, ?_⟩
    rw [← hmissing]
    exact hdrawn

/-- A stage adds members of a form behind members of lower ranks. -/
theorem exists_leads_stage {d : Declaration} {form : Category} {rank lower : Nat} {head : NodeKind}
    {front nodes : List Node} (hform : form.memberRank? = some rank) (hlt : lower < rank)
    (hfront : Layered lower front) (hclass : s.category owner = .classDecl)
    (hnodes : List.Forall₂ (fun m n => m.realize false = .ok n) (d.requests form) nodes)
    (h : Drawn d.name? s owner ⟨head, front.map .new⟩ t) :
    ∃ u, (d.memberPasses form).Leads t u ∧ Drawn d.name? s owner ⟨head, (front ++ nodes).map .new⟩ u ∧
      Layered rank (front ++ nodes) := by
  have hrank : ∀ m ∈ d.requests form, m.rank = rank := fun _ => Declaration.rank_of_mem_requests hform
  have hconcerns : ∀ p ∈ d.memberPasses form, p.Concerns d.name? := by
    intro p hp
    refine d.concerns_inner p (List.mem_append_right _ (List.mem_cons_of_mem _ ?_))
    obtain ⟨before, after, hdetails, -⟩ := d.exists_stages hform (Nat.ne_of_gt (Nat.zero_lt_of_lt hlt))
    rw [hdetails]
    exact List.mem_append_right _ (List.mem_append_left _ hp)
  -- members of lower ranks have other forms
  have hfresh : ∀ m ∈ d.requests form, Sketch.has s m (front.map .new) = false := by
    intro m hm
    rw [Sketch.has, List.any_map, List.any_eq_false]
    intro n hn hmember
    obtain ⟨k, hk, hk'⟩ := hfront.ranked n hn
    have hcat := eq_of_beq (Bool.and_eq_true_iff.1 hmember).1
    have hsame : some m.rank = some k := by
      rw [← m.ranked, ← hk', ← hcat]
      rfl
    have := Option.some.inj hsame
    have := hrank m hm
    omega
  have hkind : (s.category owner == .interfaceDecl) = false := by rw [hclass]; rfl
  rw [← hkind] at hnodes
  exact Drawn.exists_leads_members hconcerns (d.map_request? form) hrank (d.pairwise_requests form) hfresh
    (hfront.mono (Nat.le_of_lt hlt)) hnodes h

/-- What is asked for of each kind of member becomes the nodes of that kind. -/
theorem Realized.requests {constants properties methods : List Node}
    (h : c.Realized constants properties methods) :
    List.Forall₂ (fun m n => m.realize false = .ok n) ((Declaration.ofClass c).requests .constDecl) constants ∧
      List.Forall₂ (fun m n => m.realize false = .ok n) ((Declaration.ofClass c).requests .propertyDecl)
        properties ∧
      List.Forall₂ (fun m n => m.realize false = .ok n) ((Declaration.ofClass c).requests .methodDecl)
        methods := by
  simp only [Declaration.requests, List.forall₂_map_left_iff]
  exact ⟨h.constants, h.properties, h.methods⟩

/-- What belongs to a class is added to one that has nothing of it. -/
theorem exists_leads_details {constants properties methods : List Node}
    (h : c.Realized constants properties methods) (hclass : s.category owner = .classDecl)
    (hdrawn : Drawn c.name? s owner ⟨.classDecl c.bareHead, []⟩ t) :
    ∃ u, (Declaration.ofClass c).details.Leads t u ∧
      Drawn c.name? s owner ⟨.classDecl c.head, (c.members constants properties methods).map .new⟩ u := by
  obtain ⟨hconstants, hproperties, hmethods⟩ := h.requests
  have htraits : Layered 0 (traitNodes c.traits.names) := .of_rank fun n hn => by
    obtain ⟨name, -, rfl⟩ := List.mem_map.1 hn
    rfl
  obtain ⟨t₁, h₁, hdrawn⟩ := exists_leads_parent hdrawn
  obtain ⟨t₂, h₂, hdrawn⟩ := exists_leads_interfaces hdrawn
  obtain ⟨t₃, h₃, hdrawn⟩ := exists_leads_traits hdrawn
  obtain ⟨t₄, h₄, hdrawn, hlayered⟩ :=
    exists_leads_stage (d := .ofClass c) rfl (by decide) htraits hclass hconstants hdrawn
  obtain ⟨t₅, h₅, hdrawn, hlayered⟩ :=
    exists_leads_stage (d := .ofClass c) rfl (by decide) hlayered hclass hproperties hdrawn
  obtain ⟨t₆, h₆, hdrawn, -⟩ :=
    exists_leads_stage (d := .ofClass c) rfl (by decide) hlayered hclass hmethods hdrawn
  refine ⟨t₆, ?_, hdrawn⟩
  rw [details_eq]
  simp only [Pipeline.leads_append]
  exact ⟨t₁, h₁, t₂, h₂, t₃, h₃, t₄, h₄, t₅, h₅, h₆⟩

/-! ## Files with a new class -/

/-- A class without members as a node, with or without its parent and its interfaces. -/
def nodeWith (c : ClassSpec) (head : ClassDecl) (attributes : List Attribute) : Node :=
  { kind := .classDecl head, doc? := renderSummary? c.doc?, attributes }

/-- A file with directives in its scope is given the imports that are asked for. -/
theorem exists_leads_imports {directives : List Node} (hc : t.Closed) (h : t.Lists t.scope directives)
    (hns : ∀ n ∈ directives, n.category = .directive) :
    ∃ u, (Declaration.ofClass c).importPasses.Leads t u ∧ u.Closed ∧ u.scope = t.scope ∧
      t.cells.size ≤ u.cells.size ∧ u.Lists t.scope (directives ++ c.imports.items.map Import.node) ∧
      ∀ q < t.cells.size, u.node q = t.node q ∧ (q ≠ t.scope → u.children q = t.children q) := by
  rw [Declaration.importPasses]
  cases hempty : (Declaration.ofClass c).parts.imports.isEmpty with
  | true =>
    have hitems : c.imports.items = [] := List.isEmpty_iff.1 hempty
    rw [hitems, List.map_nil, List.append_nil]
    exact ⟨t, Pipeline.leads_nil.2 rfl, hc, rfl, Nat.le_refl _, h, fun _ _ => ⟨rfl, fun _ => rfl⟩⟩
  | false =>
    have hknown : importedNames t t.scope = [] := by
      rw [List.eq_nil_iff_forall_not_mem]
      intro name hname
      obtain ⟨q, hq, himport⟩ := mem_importedNames.1 hname
      rw [importsName, h.exists_child hns q hq] at himport
      cases himport
    have hmissing : Name.missing Import.name [] c.imports.items = c.imports.items :=
      Name.missing_eq_self (by rw [List.nil_append]; exact List.pairwise_map.2 c.imports.distinct)
    have hplan : (Pass.imports c.imports.items).plan t =
        .ok (some (.insert t.scope (t.children t.scope).length (c.imports.items.map Import.node))) := by
      have hne : c.imports.items.isEmpty = false := hempty
      rw [Pass.plan, planImports, hknown, hmissing, hne, h.leadingDirectives_eq hns]
      rfl
    have hleads : Pipeline.Leads [.imports c.imports.items] t _ := Pipeline.leads_singleton.2 ⟨_, hplan, rfl⟩
    have hconcerns : ∀ p ∈ [Pass.imports c.imports.items],
        p.Concerns c.name? ∧ p.makes? ≠ some .namespaceDecl :=
      List.forall_mem_singleton.2 ⟨trivial, by simp [Pass.makes?]⟩
    have hgrows := hleads.grows (fun p hp => (hconcerns p hp).1) fun p hp => (hconcerns p hp).2
    have hclosed := Pipeline.Leads.closed (fun p hp => (hconcerns p hp).1) hc hleads
    refine ⟨_, hleads, hclosed, hgrows.scope_eq, hgrows.size_le,
      h.insertNodes hc Tree.scope_lt, fun q hq => ⟨Tree.node_insertNodes_of_lt hq, fun hne => ?_⟩⟩
    exact Tree.children_insertNodes_of_ne hne

/-- A class is the one of its name. -/
theorem isClassLike_nodeWith (c : ClassSpec) (attributes : List Attribute) :
    Tree.isClassLike c.name? (c.nodeWith c.bareHead attributes) = true := by
  unfold Tree.isClassLike nodeWith bareHead
  cases c.name? with
  | none => rfl
  | some name => exact beq_self_eq_true _

/-- A file without declarations is given the class that is asked for. -/
theorem exists_leads_declares {attributes : List Attribute} {ns : List Node}
    (hattributes : realizeAttributes c.attributes = .ok attributes) (hc : t.Closed) (h : t.Lists t.scope ns)
    (hns : ∀ n ∈ ns, n.category.isClassLike = false) :
    ∃ u, Pipeline.Leads [(Declaration.ofClass c).declares] t u ∧ u.Closed ∧
      u.cells.size = t.cells.size + 1 ∧ u.findClassLike? c.name? = some t.cells.size ∧
      u.node t.cells.size = c.nodeWith c.bareHead attributes ∧ u.children t.cells.size = [] ∧
      u.children t.scope = t.children t.scope ++ [t.cells.size] ∧
      ∀ q < t.cells.size, u.node q = t.node q ∧ (q ≠ t.scope → u.children q = t.children q) := by
  have hother : ∀ q ∈ t.children t.scope, (t.node q).category.isClassLike = false := h.exists_child hns
  have hfail : ∀ q ∈ t.children t.scope, ¬Tree.isClassLike c.name? (t.node q) = true := by
    intro q hq hlike
    have hclass := isClassLike_category hlike
    rw [hother q hq] at hclass
    cases hclass
  have hplan : (Declaration.ofClass c).declares.plan t =
      .ok (some (.insert t.scope (t.children t.scope).length [c.nodeWith c.bareHead attributes])) :=
    planDeclaration_eq_ok.2 (.inr ⟨List.find?_eq_none.2 hfail, attributes, hattributes, rfl⟩)
  have hleads : Pipeline.Leads [(Declaration.ofClass c).declares] t _ :=
    Pipeline.leads_singleton.2 ⟨_, hplan, rfl⟩
  have hconcerns : ∀ p ∈ [(Declaration.ofClass c).declares],
      p.Concerns c.name? ∧ p.makes? ≠ some .namespaceDecl :=
    List.forall_mem_singleton.2 ⟨rfl, by simp [Declaration.declares, Pass.makes?]⟩
  have hgrows := hleads.grows (fun p hp => (hconcerns p hp).1) fun p hp => (hconcerns p hp).2
  have hclosed := Pipeline.Leads.closed (fun p hp => (hconcerns p hp).1) hc hleads
  rw [Tree.after, Change.apply] at hleads hgrows hclosed
  generalize hu : t.insertNodes t.scope (t.children t.scope).length [c.nodeWith c.bareHead attributes] = u at *
  have hnode : u.node t.cells.size = c.nodeWith c.bareHead attributes := by
    have hfresh := @Tree.map_node_freshIds t t.scope (t.children t.scope).length [c.nodeWith c.bareHead attributes]
    rw [hu] at hfresh
    exact (List.cons.inj hfresh).1
  have hchildren : u.children t.scope = t.children t.scope ++ [t.cells.size] := by
    rw [← hu, Tree.children_insertNodes Tree.scope_lt (Nat.le_refl _), List.take_length, List.drop_length,
      List.append_nil]
    rfl
  have hold : ∀ q < t.cells.size, u.node q = t.node q ∧ (q ≠ t.scope → u.children q = t.children q) := by
    rw [← hu]
    exact fun q hq => ⟨Tree.node_insertNodes_of_lt hq, fun hne => Tree.children_insertNodes_of_ne hne⟩
  refine ⟨u, hleads, hclosed, ?_, ?_, hnode, ?_, hchildren, hold⟩
  · rw [← hu, Tree.size_insertNodes]
    rfl
  · -- the class stands behind what is no class
    have hahead : (t.children t.scope).find? (fun q => Tree.isClassLike c.name? (u.node q)) = none :=
      List.find?_eq_none.2 fun q hq => by
        rw [(hold q (hc t.scope q hq).2).1]
        exact hfail q hq
    rw [Tree.findClassLike?, Tree.findChild?, hgrows.scope_eq, hchildren, List.find?_append, hahead,
      Option.none_or, List.find?_singleton, hnode, c.isClassLike_nodeWith]
    rfl
  · rw [← hu, Tree.children_insertNodes_of_ne (Nat.ne_of_gt Tree.scope_lt), Tree.children_of_le (Nat.le_refl _)]

/-- A file of its own with a class, whose attributes and members are the given nodes. -/
def alone (c : ClassSpec) (attributes : List Attribute) (members : List Node) : Outline :=
  .fileAround (strictDirectives c.strict) c.scope?
    ((c.imports.items.map Import.node).map .leaf ++ [.mk (c.nodeWith c.head attributes) (members.map .leaf)])

/-- A class whose attributes and members can be realized is added to an empty file, and there is nothing else
in the file then. -/
theorem exists_leads_empty {attributes : List Attribute} {constants properties methods : List Node}
    (hattributes : realizeAttributes c.attributes = .ok attributes)
    (h : c.Realized constants properties methods) :
    ∃ t, (Declaration.ofClass c).passes.Leads .empty t ∧
      t.outline = c.alone attributes (c.members constants properties methods) := by
  obtain ⟨t₀, h₀, hopens⟩ := Pipeline.exists_opens c.strict c.scope?
  have hdirectives : ∀ n ∈ directivesInside (strictDirectives c.strict) c.scope?, n.category = .directive := by
    cases c.scope? with
    | none => exact category_strictDirectives
    | some name => exact List.forall_mem_nil _
  obtain ⟨t₁, h₁, hclosed₁, hscope, hsize₁, hlists, hold₁⟩ :=
    c.exists_leads_imports hopens.closed hopens.lists hdirectives
  have hns : ∀ n ∈ directivesInside (strictDirectives c.strict) c.scope? ++ c.imports.items.map Import.node,
      n.category.isClassLike = false := by
    refine List.forall_mem_append.2 ⟨fun n hn => by rw [hdirectives n hn]; rfl, ?_⟩
    exact List.forall_mem_map.2 fun _ _ => rfl
  rw [← hscope] at hlists hold₁
  obtain ⟨t₂, h₂, hclosed₂, hsize₂, hfound, hnode, hnone, hchildren, hold₂⟩ :=
    c.exists_leads_declares hattributes hclosed₁ hlists hns
  have hsketch : Sketch.ofTree t₂ t₁.cells.size = ⟨.classDecl c.bareHead, []⟩ := by
    rw [Sketch.ofTree, hnode, hnone]
    rfl
  have hdrawn := Drawn.ofTree hclosed₂ hfound
  rw [hsketch] at hdrawn
  obtain ⟨t₃, h₃, hdrawn⟩ := exists_leads_details h (by rw [Tree.category, hnode]; rfl) hdrawn
  refine ⟨t₃, ?_, ?_⟩
  · rw [Declaration.passes_eq, Declaration.inner, ← List.append_assoc]
    have hclass : Pipeline.Leads ((Declaration.ofClass c).declares :: (Declaration.ofClass c).details) t₁ t₃ :=
      (@Pipeline.leads_append [_] _ t₁ t₃).2 ⟨t₂, h₂, h₃⟩
    exact Pipeline.leads_append.2 ⟨t₀, h₀, Pipeline.leads_append.2 ⟨t₁, h₁, hclass⟩⟩
  -- the nodes ahead of the class are as they were when it was added
  have hold₃ : ∀ q < t₁.cells.size,
      t₃.node q = t₁.node q ∧ (q ≠ t₁.scope → t₃.children q = t₁.children q) := by
    intro q hq
    obtain ⟨hnode₃, hchildren₃⟩ := hdrawn.others q (by omega) (Nat.ne_of_lt hq)
    rw [hnode₃, hchildren₃]
    exact hold₂ q hq
  have hstatements : t₃.children t₁.scope = t₁.children t₁.scope ++ [t₁.cells.size] := by
    have hlt : t₁.scope < t₂.cells.size := by
      rw [hsize₂]
      exact Nat.lt_succ_of_lt Tree.scope_lt
    rw [(hdrawn.others t₁.scope hlt (Nat.ne_of_lt Tree.scope_lt)).2, hchildren]
  have hleaves := hlists.holds (u := t₃) fun q hq =>
    ⟨(hold₃ q (hclosed₁ _ q hq).2).1, (hold₃ q (hclosed₁ _ q hq).2).2 (hlists.ne_parent q hq)⟩
  have hmembers : List.Forall₂ t₃.Holds (t₃.children t₁.cells.size)
      ((c.members constants properties methods).map .leaf) := by
    have hitems := hdrawn.items
    rw [List.forall₂_map_left_iff] at hitems
    rw [List.forall₂_map_right_iff]
    refine hitems.flip.imp fun q n hshown => ?_
    obtain ⟨-, rfl, hleaf⟩ := hshown
    exact .mk (by rw [hleaf]; exact .nil)
  have hclass : t₃.Holds t₁.cells.size (.mk (t₃.node t₁.cells.size) _) := .mk hmembers
  rw [hdrawn.head, hnode] at hclass
  refine hopens.around t₃ ?_ (fun q hq => ?_) _ ?_ ?_
  · have := hdrawn.grows.size_le
    omega
  · obtain ⟨hnode₃, hchildren₃⟩ := hold₃ q (Nat.lt_of_lt_of_le hq hsize₁)
    rw [hnode₃, (hold₁ q hq).1]
    refine ⟨rfl, fun hne => ?_⟩
    rw [← hscope] at hne
    rw [hchildren₃ hne, (hold₁ q hq).2 (hscope ▸ hne)]
  · rw [List.forall_mem_append, List.forall_mem_singleton, Outline.height, Outline.heightAll_le_iff]
    refine ⟨fun o ho => ?_, fun o ho => ?_⟩ <;> rw [Outline.height_leaf o ho] <;> decide
  · rw [← hscope, hstatements, ← List.append_assoc, ← List.map_append]
    exact List.rel_append hleaves (.cons hclass .nil)

end ClassSpec

end PhpGraft

import PhpGraft.Proofs.Graft.Blocks
import PhpGraft.Proofs.Graft.Increment

/-!
# The layout of a body

A declaration asks for its members kind by kind, and within a kind in its own order (`requests`): its
passes ask for them one by one (`map_request?`). In a body whose ranked members stand in order, they
still do after a run. And whatever the order of the body is, the members of a kind that are new after a
run stand side by side, in the order of the declaration, and right behind the last member of their kind
that was there (`realize_layout`). To see that, the passes are taken apart for one kind at a time: the
passes ahead of its stage leave the members of the kind alone, those of its stage make the block
(`Drawn.stage`), and those behind it keep the block together, because they place members of higher
ranks (`Sketch.together_addAll`).
-/

namespace PhpGraft

open Edit

/-! ## The members that a declaration asks for -/

/-- The form of a member is known from its place among the forms. -/
theorem memberRank?_inj {c c' : Category} {rank : Nat} (h : c.memberRank? = some rank)
    (h' : c'.memberRank? = some rank) : c = c' := by
  cases c <;> cases c' <;> first | rfl | (cases h <;> cases h')

namespace Declaration

/-- The passes for the members of a form. -/
def memberPasses (d : Declaration) : Category → Pipeline
  | .constDecl => d.parts.constantPasses d.name?
  | .propertyDecl =>
    match d with
    | ofClass c => c.propertyPasses
    | ofInterface _ => []
  | .methodDecl => d.parts.methodPasses d.name?
  | _ => []

/-- The members of a form that a declaration asks for: those that it holds, in its order. Where the
declaration is without types, so are its properties and its methods. -/
def requests (d : Declaration) : Category → List MemberRequest
  | .constDecl => d.parts.constants.items.map .ofConst
  | .propertyDecl =>
    match d with
    | ofClass c => c.properties.items.map fun p => .ofProperty { p with typed := c.typed && p.typed }
    | ofInterface _ => []
  | .methodDecl =>
    d.parts.methods.items.map fun m => .ofMethod { m with typed := d.parts.typed && m.typed }
  | _ => []

/-- The passes for the head of the declaration and for its traits. -/
def headPasses : Declaration → Pipeline
  | ofClass c => c.parentPasses ++ (c.interfacePasses ++ c.traitPasses)
  | ofInterface i => if i.parents.isEmpty then [] else [.interfaceParents i.name i.parents.names]

variable {d : Declaration} {form : Category} {rank : Nat} {p : Pass} {m : MemberRequest}

/-- What belongs to a declaration is added kind by kind. -/
theorem details_eq_stages (d : Declaration) : d.details =
    d.headPasses ++ (d.memberPasses .constDecl ++
      (d.memberPasses .propertyDecl ++ d.memberPasses .methodDecl)) := by
  cases d <;> simp only [details, headPasses, memberPasses, ClassSpec.parentPasses,
    ClassSpec.interfacePasses, ClassSpec.traitPasses, List.append_assoc, List.nil_append] <;> rfl

/-- The passes for the head and the traits ask for no members. -/
theorem request?_of_mem_headPasses (hp : p ∈ d.headPasses) : p.request? = none := by
  revert p
  cases d with
  | ofClass c =>
    simp only [headPasses, ClassSpec.parentPasses, ClassSpec.interfacePasses,
      ClassSpec.traitPasses, List.forall_mem_append]
    refine ⟨?_, ?_, ?_⟩
    · cases c.parent? <;> simp [Pass.request?]
    · split <;> simp [Pass.request?]
    · split <;> simp [Pass.request?]
  | ofInterface i =>
    simp only [headPasses]
    split <;> simp [Pass.request?]

/-- The passes for members of a form ask for the members of that form one by one. -/
theorem map_request? (d : Declaration) (form : Category) :
    (d.memberPasses form).map Pass.request? = (d.requests form).map some := by
  cases form with
  | constDecl => simp [memberPasses, requests, DeclarationParts.constantPasses, Pass.request?]
  | propertyDecl =>
    cases d with
    | ofClass c => simp [memberPasses, requests, ClassSpec.propertyPasses, Pass.request?]
    | ofInterface i => rfl
  | methodDecl => simp [memberPasses, requests, DeclarationParts.methodPasses, Pass.request?]
  | _ => rfl

/-- The members of a form that are asked for have that form. -/
theorem form_of_mem_requests (hm : m ∈ d.requests form) : m.form = form := by
  cases form with
  | constDecl =>
    obtain ⟨spec, -, rfl⟩ := List.mem_map.1 hm
    rfl
  | propertyDecl =>
    cases d with
    | ofClass c =>
      obtain ⟨spec, -, rfl⟩ := List.mem_map.1 hm
      rfl
    | ofInterface i => cases hm
  | methodDecl =>
    obtain ⟨spec, -, rfl⟩ := List.mem_map.1 hm
    rfl
  | _ => cases hm

/-- The members of a form that are asked for have the place of the form. -/
theorem rank_of_mem_requests (hform : form.memberRank? = some rank) (hm : m ∈ d.requests form) :
    m.rank = rank := by
  have hranked := m.ranked
  rw [form_of_mem_requests hm, hform] at hranked
  exact (Option.some.inj hranked).symm

/-- A pass for members of a form asks for one of the members of that form. -/
theorem request?_of_mem_memberPasses (hp : p ∈ d.memberPasses form) :
    ∃ m ∈ d.requests form, p.request? = some m := by
  have hrequest : p.request? ∈ (d.requests form).map some := by
    rw [← d.map_request? form]
    exact List.mem_map_of_mem hp
  obtain ⟨m, hm, he⟩ := List.mem_map.1 hrequest
  exact ⟨m, hm, he.symm⟩

/-- No two members that a declaration asks for are taken for each other. -/
theorem pairwise_requests (d : Declaration) (form : Category) :
    (d.requests form).Pairwise fun m m' => m'.same m.name = false := by
  cases form with
  | constDecl =>
    exact List.pairwise_map.2 (d.parts.constants.distinct.imp fun hne => beq_false_of_ne hne)
  | propertyDecl =>
    cases d with
    | ofClass c => exact List.pairwise_map.2 (c.properties.distinct.imp fun hne => beq_false_of_ne hne)
    | ofInterface i => exact .nil
  | methodDecl =>
    exact List.pairwise_map.2 (d.parts.methods.distinct.imp fun hne => beq_false_of_ne hne)
  | _ => exact .nil

end Declaration

/-! ## Blocks in sketches -/

namespace Sketch

variable {s : Tree} {owner r : Nat} {k : Sketch} {p : Pass} {items old block : List Item}
  {m : MemberRequest} {ps : Pipeline}

/-- A pass that asks for a member adds it to the children. -/
theorem add_of_request? (hp : p.request? = some m) :
    k.add s owner p =
      { k with items := addMember s (s.category owner == .interfaceDecl) m k.items } := by
  cases p with
  | constant | property | method =>
    obtain rfl := Option.some.inj hp
    rfl
  | _ => cases hp

/-- The plan of a pass that asks for a member is to add the member. -/
theorem plan_of_request? {name? : Option String} {t : Tree} (hp : p.request? = some m)
    (hconcerns : p.Concerns name?) : p.plan t = planMember t name? m.form m.same m.realize := by
  cases p with
  | constant | property | method =>
    obtain rfl := Option.some.inj hp
    subst hconcerns
    rfl
  | _ => cases hp

/-- Whether a member is there depends on the children of its rank only. -/
theorem has_ofRank : has s m (ofRank (Item.rank? s) m.rank items) = has s m items := by
  unfold has ofRank
  rw [List.any_filter]
  congr 1
  funext i
  rw [Bool.and_eq_right_iff_imp]
  intro hi
  rw [isMember, Bool.and_eq_true, beq_iff_eq] at hi
  rw [Item.rank?, hi.1, m.ranked]
  exact beq_self_eq_true _

/-- A member is in a list when it is in one of its parts. -/
theorem has_append : has s m (items ++ old) = (has s m items || has s m old) := List.any_append

/-- A member is among the children when it was there or is in the block. -/
theorem has_of_together (h : Together (Item.rank? s) m.rank old block items) :
    has s m items = (has s m old || has s m block) := by
  obtain ⟨a, b, rfl, hat⟩ := h
  rw [← has_ofRank, hat.ofRank_eq, has_append, has_ofRank]

/-- Passes that ask for members of other ranks only, if they ask for any, leave the members of a rank
alone; traits have no rank above the lowest one. -/
theorem ofRank_add (hr : r ≠ 0) (hp : ∀ m ∈ p.request?, m.rank ≠ r) :
    ofRank (Item.rank? s) r (k.add s owner p).items = ofRank (Item.rank? s) r k.items := by
  cases hq : p.request? with
  | some m =>
    rw [add_of_request? hq]
    change ofRank _ r (addMember s _ m k.items) = _
    unfold addMember
    split
    · rfl
    · cases hn : m.realize (s.category owner == .interfaceDecl) with
      | error e => rfl
      | ok n =>
        refine ofRank_place_of_ne ?_
        rw [rank?_of_realize hn]
        exact fun he => hp m hq (Option.some.inj he)
  | none =>
    cases p with
    | traits class? names =>
      change ofRank _ r (_ ++ k.items) = _
      rw [ofRank_append, ofRank_eq_nil_iff.2, List.nil_append]
      intro i hi he
      obtain ⟨n, hn, rfl⟩ := List.mem_map.1 hi
      obtain ⟨name, -, rfl⟩ := List.mem_map.1 hn
      exact hr (Option.some.inj he).symm
    | constant | property | method => cases hq
    | _ => rfl

/-- Passes that ask for no members of a rank leave the members of that rank alone. -/
theorem ofRank_addAll (hr : r ≠ 0) (hps : ∀ p ∈ ps, ∀ m ∈ p.request?, m.rank ≠ r) :
    ofRank (Item.rank? s) r (addAll s owner ps k).items = ofRank (Item.rank? s) r k.items := by
  induction ps generalizing k with
  | nil => rfl
  | cons p ps ih =>
    rw [List.forall_mem_cons] at hps
    exact (ih hps.2).trans (ofRank_add hr hps.1)

/-- A pass that asks for a member of a higher rank keeps a block together. -/
theorem together_add (h : Together (Item.rank? s) r old block k.items)
    (hp : p.request? = some m) (hlt : r < m.rank) :
    Together (Item.rank? s) r old block (k.add s owner p).items := by
  rw [add_of_request? hp]
  change Together _ r old block (addMember s _ m k.items)
  unfold addMember
  split
  · exact h
  · cases hn : m.realize (s.category owner == .interfaceDecl) with
    | error e => exact h
    | ok n => exact h.place_of_lt hlt (rank?_of_realize hn)

/-- Passes that ask for members of higher ranks keep a block together. -/
theorem together_addAll (h : Together (Item.rank? s) r old block k.items)
    (hps : ∀ p ∈ ps, ∃ m, p.request? = some m ∧ r < m.rank) :
    Together (Item.rank? s) r old block (addAll s owner ps k).items := by
  induction ps generalizing k with
  | nil => exact h
  | cons p ps ih =>
    rw [List.forall_mem_cons] at hps
    obtain ⟨m, hm, hlt⟩ := hps.1
    exact ih (together_add h hm hlt) hps.2

end Sketch

/-! ## A stage -/

namespace Drawn

variable {name? : Option String} {s t t' : Tree} {id r : Nat} {k : Sketch} {ps : Pipeline}
  {ms : List MemberRequest} {old : List Item} {nodes : List Node}

/-- A stage puts the members of a rank that were missing into a block, in order. The block may have
been begun, but with none of these members. -/
theorem stage (hps : ∀ p ∈ ps, p.Concerns name?) (hms : ps.map Pass.request? = ms.map some)
    (hrank : ∀ m ∈ ms, m.rank = r) (hdistinct : ms.Pairwise fun m m' => m'.same m.name = false)
    (hfresh : ∀ m ∈ ms, Sketch.has s m (nodes.map .new) = false) (h : Drawn name? s id k t)
    (htogether : Together (Item.rank? s) r old (nodes.map .new) k.items) (hleads : ps.Leads t t') :
    ∃ k' nodes', Drawn name? s id k' t' ∧
      Together (Item.rank? s) r old ((nodes ++ nodes').map .new) k'.items ∧
      List.Forall₂ (fun m n => m.realize (s.category id == .interfaceDecl) = .ok n)
        (ms.filter fun m => !Sketch.has s m old) nodes' := by
  induction ps generalizing ms nodes k t with
  | nil =>
    obtain rfl := Pipeline.leads_nil.1 hleads
    obtain rfl := List.map_eq_nil_iff.1 hms.symm
    exact ⟨k, [], h, by simpa using htogether, .nil⟩
  | cons p ps ih =>
    cases ms with
    | nil => cases hms
    | cons m ms =>
      rw [List.map_cons, List.map_cons, List.cons.injEq] at hms
      rw [List.forall_mem_cons] at hps hrank hfresh
      rw [List.pairwise_cons] at hdistinct
      obtain ⟨c?, hplan, hrest⟩ := Pipeline.leads_cons.1 hleads
      obtain ⟨rfl, hlater⟩ := hrank
      rw [Sketch.plan_of_request? hms.1 hps.1] at hplan
      have hdrawn := h.planMember hplan
      have hhas := Sketch.has_of_together htogether
      rw [hfresh.1, Bool.or_false] at hhas
      obtain ⟨id', hfound, hcases⟩ := planMember_eq_ok.1 hplan
      obtain rfl : id = id' := Option.some.inj ((h.grows.find id h.found).symm.trans hfound)
      rw [h.hasMember_eq, h.grows.category_eq (lt_of_find h.found), hhas] at hcases
      unfold Sketch.addMember at hdrawn
      rw [hhas] at hdrawn
      rcases hcases with ⟨hm, -⟩ | ⟨hm, n, hn, -⟩
      · -- The member was there, and is not asked for in vain.
        rw [if_pos hm] at hdrawn
        obtain ⟨k', nodes', hdrawn', htogether', hnodes⟩ :=
          ih hps.2 hms.2 hlater hdistinct.2 hfresh.2 hdrawn htogether hrest
        refine ⟨k', nodes', hdrawn', htogether', ?_⟩
        rwa [List.filter_cons_of_neg (by simp [hm])]
      · rw [if_neg (by rw [hm]; exact Bool.false_ne_true), hn] at hdrawn
        have hplaced := htogether.place_self (Sketch.rank?_of_realize hn)
        have hfresh' : ∀ m' ∈ ms, Sketch.has s m' ((nodes ++ [n]).map .new) = false := by
          intro m' hm'
          rw [List.map_append, Sketch.has_append, hfresh.2 m' hm', Bool.false_or]
          simp [Sketch.has, Item.node, isMember, (m.realizes _ n hn).2, hdistinct.1 m' hm']
        rw [← List.map_singleton, ← List.map_append] at hplaced
        obtain ⟨k', nodes', hdrawn', htogether', hnodes⟩ :=
          ih hps.2 hms.2 hlater hdistinct.2 hfresh' hdrawn hplaced hrest
        refine ⟨k', n :: nodes', hdrawn', by simpa using htogether', ?_⟩
        rw [List.filter_cons_of_pos (by simp [hm])]
        exact .cons hn hnodes

end Drawn

namespace Declaration

variable {d : Declaration} {form : Category} {r : Nat} {s t' : Tree} {id : Nat}

/-- The passes ahead of a stage ask for no members of its form, and those behind it ask for members of
higher ranks. -/
theorem exists_stages (d : Declaration) (hform : form.memberRank? = some r) (hr : r ≠ 0) :
    ∃ before after, d.details = before ++ (d.memberPasses form ++ after) ∧
      (∀ p ∈ before, ∀ m ∈ p.request?, m.rank ≠ r) ∧
        ∀ p ∈ after, ∃ m, p.request? = some m ∧ r < m.rank := by
  have hhead : ∀ p ∈ d.headPasses, ∀ m ∈ p.request?, m.rank ≠ r := fun p hp m hm => by
    rw [request?_of_mem_headPasses hp] at hm
    cases hm
  have hstage : ∀ {c : Category} {k : Nat}, c.memberRank? = some k → ∀ p ∈ d.memberPasses c,
      ∃ m, p.request? = some m ∧ m.rank = k := by
    intro c k hc p hp
    obtain ⟨m, hm, hpm⟩ := request?_of_mem_memberPasses hp
    exact ⟨m, hpm, rank_of_mem_requests hc hm⟩
  have hlower : ∀ {c : Category} {k : Nat}, c.memberRank? = some k → k < r →
      ∀ p ∈ d.memberPasses c, ∀ m ∈ p.request?, m.rank ≠ r := by
    intro c k hc hlt p hp m hm
    obtain ⟨m', hm', rfl⟩ := hstage hc p hp
    obtain rfl := Option.some.inj (hm'.symm.trans hm)
    exact Nat.ne_of_lt hlt
  have hhigher : ∀ {c : Category} {k : Nat}, c.memberRank? = some k → r < k →
      ∀ p ∈ d.memberPasses c, ∃ m, p.request? = some m ∧ r < m.rank := by
    intro c k hc hlt p hp
    obtain ⟨m, hm, rfl⟩ := hstage hc p hp
    exact ⟨m, hm, hlt⟩
  rw [details_eq_stages]
  cases form with
  | constDecl =>
    obtain rfl := Option.some.inj hform
    refine ⟨_, _, rfl, hhead, ?_⟩
    rw [List.forall_mem_append]
    exact ⟨hhigher rfl (by decide), hhigher rfl (by decide)⟩
  | propertyDecl =>
    obtain rfl := Option.some.inj hform
    refine ⟨d.headPasses ++ d.memberPasses .constDecl, d.memberPasses .methodDecl, by simp, ?_,
      hhigher rfl (by decide)⟩
    rw [List.forall_mem_append]
    exact ⟨hhead, hlower rfl (by decide)⟩
  | methodDecl =>
    obtain rfl := Option.some.inj hform
    refine ⟨d.headPasses ++ (d.memberPasses .constDecl ++ d.memberPasses .propertyDecl), [],
      by simp, ?_, List.forall_mem_nil _⟩
    simp only [List.forall_mem_append]
    exact ⟨hhead, hlower rfl (by decide), hlower rfl (by decide)⟩
  | traitUse => exact absurd (Option.some.inj hform).symm hr
  | _ => cases hform

/-- A run adds the members of a form that are missing as a block. -/
theorem exists_block (hc : s.Closed) (hid : s.findClassLike? d.name? = some id)
    (h : d.details.Leads s t') (hform : form.memberRank? = some r) (hr : r ≠ 0) :
    ∃ k nodes, Drawn d.name? s id k t' ∧
      Together (Item.rank? s) r (Sketch.ofTree s id).items (nodes.map .new) k.items ∧
      List.Forall₂ (fun m n => m.realize (s.category id == .interfaceDecl) = .ok n)
        ((d.requests form).filter fun m => !Sketch.has s m (Sketch.ofTree s id).items) nodes := by
  obtain ⟨before, after, hdetails, hbefore, hafter⟩ := d.exists_stages hform hr
  have hconcerns : ∀ p ∈ d.details, p.Concerns d.name? := fun p hp =>
    d.concerns_inner p (List.mem_append_right _ (List.mem_cons_of_mem _ hp))
  have hparts : ∀ p ∈ d.details,
      p.makes? = none ∨ ∃ c, p.makes? = some c ∧ c.memberRank?.isSome = true :=
    fun _ => isMember_of_mem_details
  rw [hdetails] at h hconcerns hparts
  simp only [List.forall_mem_append] at hconcerns hparts
  obtain ⟨u, hu, hrest⟩ := Pipeline.leads_append.1 h
  obtain ⟨v, hv, hw⟩ := Pipeline.leads_append.1 hrest
  have hdrawn := (Drawn.ofTree hc hid).run hconcerns.1 hparts.1 hu
  have hstart : Together (Item.rank? s) r (Sketch.ofTree s id).items ([].map .new)
      (before.foldl (Sketch.add s id) (Sketch.ofTree s id)).items :=
    .nil (Sketch.ofRank_addAll hr hbefore)
  obtain ⟨k, nodes, hdrawn', htogether, hnodes⟩ := hdrawn.stage hconcerns.2.1
    (d.map_request? form) (fun _ => rank_of_mem_requests hform) (d.pairwise_requests form)
    (fun _ _ => rfl) hstart hv
  exact ⟨_, nodes, hdrawn'.run hconcerns.2.2 hparts.2.2 hw, Sketch.together_addAll htogether hafter,
    hnodes⟩

end Declaration

/-! ## Blocks in trees -/

/-- Whether one of some nodes is a member that is asked for. -/
def Tree.hasAmong (t : Tree) (body : List Nat) (m : MemberRequest) : Bool :=
  body.any fun c => isMember m.form m.same (t.node c)

/-- A node holds new members of a form side by side. They are compared with the body that it had
before, and with the members that were asked for. -/
structure Tree.BlockAdded (t t' : Tree) (id : Nat) (form : Category) (body : List Nat)
    (asked : List MemberRequest) (ahead block behind : List Nat) : Prop where
  /-- The block stands among the children of the node. -/
  split : t'.children id = ahead ++ block ++ behind
  /-- The block is what is new of the form. -/
  new : ∀ c, c ∈ block ↔ c ∈ t'.children id ∧ t'.category c = form ∧ c ∉ body
  /-- The block holds those members that were asked for and missing, in the order in which they were
  asked for. -/
  ordered : List.Forall₂ (fun m c => m.realize (t'.category id == .interfaceDecl) = .ok (t'.node c))
    (asked.filter fun m => !t.hasAmong body m) block
  /-- If the body had members of the form, then the block stands right behind the last of them. -/
  adjacent : ∀ front last back, body = front ++ last :: back → t.category last = form →
    (∀ c ∈ back, t.category c ≠ form) → ∃ front', ahead = front' ++ [last]

section Transfer

variable {name? : Option String} {s t t' : Tree} {id r : Nat} {k : Sketch} {form : Category}
  {nodes : List Node} {asked : List MemberRequest}

/-- What is related to two lists, one behind the other, falls into two parts. -/
theorem exists_append_of_forall₂ {α β : Type} {R : α → β → Prop} {a b : List α} {l : List β}
    (h : List.Forall₂ R (a ++ b) l) :
    ∃ a' b', l = a' ++ b' ∧ List.Forall₂ R a a' ∧ List.Forall₂ R b b' := by
  induction a generalizing l with
  | nil => exact ⟨[], l, rfl, .nil, h⟩
  | cons x a ih =>
    obtain _ | ⟨hxy, hrest⟩ := h
    obtain ⟨a', b', rfl, ha, hb⟩ := ih hrest
    exact ⟨_ :: a', b', rfl, .cons hxy ha, hb⟩

/-- What is in the second of two related lists is related to something in the first one. -/
theorem exists_mem_of_forall₂ {α β : Type} {R : α → β → Prop} {a : List α} {l : List β} {y : β}
    (h : List.Forall₂ R a l) (hy : y ∈ l) : ∃ x ∈ a, R x y := by
  induction h with
  | nil => cases hy
  | cons hxy _ ih =>
    rcases List.mem_cons.1 hy with rfl | hy
    · exact ⟨_, List.mem_cons_self, hxy⟩
    · obtain ⟨x, hx, hxy⟩ := ih hy
      exact ⟨x, List.mem_cons_of_mem _ hx, hxy⟩

/-- What shows old children are these children. -/
theorem Sketch.exists_of_mem_ofTree {i : Item} (h : i ∈ (Sketch.ofTree s id).items) :
    ∃ c ∈ s.children id, i = .old c := by
  obtain ⟨c, hc, rfl⟩ := List.mem_map.1 h
  exact ⟨c, hc, rfl⟩

/-- A member is in the sketch of a declaration when it is among its children. -/
theorem Sketch.has_ofTree {m : MemberRequest} :
    Sketch.has s m (Sketch.ofTree s id).items = s.hasAmong (s.children id) m := by
  rw [Sketch.has, Sketch.ofTree, List.any_map]
  rfl

/-- A block of a sketch is a block of the tree that is drawn from it. -/
theorem Drawn.exists_blockAdded (hclosed : s.Closed) (h : Drawn name? s id k t')
    (hform : form.memberRank? = some r)
    (htogether : Together (Item.rank? s) r (Sketch.ofTree s id).items (nodes.map .new) k.items)
    (hnodes : List.Forall₂ (fun m n => m.realize (s.category id == .interfaceDecl) = .ok n)
      (asked.filter fun m => !Sketch.has s m (Sketch.ofTree s id).items) nodes) :
    ∃ ahead block behind,
      s.BlockAdded t' id form (s.children id) asked ahead block behind := by
  obtain ⟨a, b, hitems, hat⟩ := htogether
  have hshown := h.items
  rw [hitems] at hshown
  obtain ⟨front, behind, hsplit, hfront, hbehind⟩ := exists_append_of_forall₂ hshown
  obtain ⟨ahead, block, rfl, hahead, hblock⟩ := exists_append_of_forall₂ hfront
  have hrank : ∀ i c, Item.Shown s t' i c → (t'.category c = form ↔ i.rank? s = some r) := by
    intro i c hi
    have he : (t'.category c).memberRank? = i.rank? s :=
      h.eq_of_shown (f := fun n => n.category.memberRank?) (fun _ => memberRank?_of_isClassLike) hi
    rw [← he]
    exact ⟨fun hc => hc ▸ hform, fun hc => memberRank?_inj hc hform⟩
  -- The members of the form ahead of the block are old ones.
  have hold : ∀ i ∈ a, i.rank? s = some r → ∃ c ∈ s.children id, i = .old c := by
    intro i hi hir
    have hmem : i ∈ ofRank (Item.rank? s) r a := List.mem_filter.2 ⟨hi, by simp [hir]⟩
    rw [hat.ahead] at hmem
    exact Sketch.exists_of_mem_ofTree (List.mem_of_mem_filter hmem)
  refine ⟨ahead, block, behind, hsplit, fun c => ⟨fun hc => ?_, fun ⟨hc, hcat, hnew⟩ => ?_⟩, ?_,
    fun front' last back hbody hlast hback => ?_⟩
  · obtain ⟨i, hi, his⟩ := exists_mem_of_forall₂ hblock hc
    refine ⟨by rw [hsplit]; simp [hc], (hrank i c his).2 (hat.within i hi), fun hmem => ?_⟩
    obtain ⟨n, -, rfl⟩ := List.mem_map.1 hi
    exact Nat.not_lt.2 his.1.1 (hclosed id c hmem).2
  · rw [hsplit] at hc
    rcases List.mem_append.1 hc with hc | hc
    · rcases List.mem_append.1 hc with hc | hc
      · obtain ⟨i, hi, his⟩ := exists_mem_of_forall₂ hahead hc
        obtain ⟨c', hc', rfl⟩ := hold i hi ((hrank i c his).1 hcat)
        exact absurd (his.1 ▸ hc') hnew
      · exact hc
    · obtain ⟨i, hi, his⟩ := exists_mem_of_forall₂ hbehind hc
      exact absurd ((hrank i c his).1 hcat) (hat.behind i hi)
  · have hmap : nodes = block.map t'.node := by
      rw [← List.forall₂_eq_eq_eq, List.forall₂_map_right_iff]
      exact (List.forall₂_map_left_iff.1 hblock).imp fun n c hc => hc.2.1.symm
    rw [hmap, List.forall₂_map_right_iff] at hnodes
    simp only [Sketch.has_ofTree] at hnodes
    rw [h.grows.category_eq (lt_of_find h.found)]
    exact hnodes
  · have hlast' : (Item.old last).rank? s = some r := by rw [← hform, ← hlast]; rfl
    have hback' : ∀ i ∈ back.map Item.old, i.rank? s ≠ some r := by
      intro i hi he
      obtain ⟨c, hc, rfl⟩ := List.mem_map.1 hi
      exact hback c hc (memberRank?_inj he hform)
    have hof : ofRank (Item.rank? s) r (Sketch.ofTree s id).items =
        ofRank (Item.rank? s) r (front'.map .old) ++ [.old last] := by
      have hitems : (Sketch.ofTree s id).items =
          front'.map .old ++ [.old last] ++ back.map .old := by
        rw [Sketch.ofTree, hbody]
        simp
      rw [hitems, ofRank_append, ofRank_append, ofRank_eq_nil_iff.2 hback', List.append_nil]
      congr 1
      exact List.filter_cons_of_pos (by simp [hlast'])
    obtain ⟨f, i, rfl, hi⟩ := hat.adjacent (by rw [hof]; simp)
    have hahead' := hat.ahead
    rw [hof, ofRank_append, ofRank, ofRank, List.filter_cons_of_pos (by simp [hi])] at hahead'
    obtain ⟨-, he⟩ := List.append_inj' hahead' rfl
    obtain rfl := List.singleton_inj.1 he
    obtain ⟨f', l, rfl, -, hl⟩ := exists_append_of_forall₂ hahead
    obtain _ | ⟨hshow, hnil⟩ := hl
    cases hnil
    exact ⟨f', by rw [hshow.1]⟩

/-- Only the nodes of the body matter of the tree that a block is compared with. -/
theorem Tree.BlockAdded.congr {body ahead block behind : List Nat}
    (h : s.BlockAdded t' id form body asked ahead block behind)
    (hnode : ∀ c ∈ body, s.node c = t.node c) :
    t.BlockAdded t' id form body asked ahead block behind := by
  have hhas : ∀ m, t.hasAmong body m = s.hasAmong body m := by
    intro m
    rw [Tree.hasAmong, Tree.hasAmong, Bool.eq_iff_iff, List.any_eq_true, List.any_eq_true]
    exact exists_congr fun c => and_congr_right fun hc => by rw [hnode c hc]
  refine ⟨h.split, h.new, by simpa only [hhas] using h.ordered,
    fun front last back he hlast hback => ?_⟩
  have hmem : ∀ c ∈ last :: back, s.category c = t.category c := fun c hc => by
    rw [Tree.category, Tree.category, hnode c (by rw [he]; exact List.mem_append_right _ hc)]
  refine h.adjacent front last back he ((hmem last List.mem_cons_self).trans hlast) fun c hc => ?_
  rw [hmem c (List.mem_cons_of_mem _ hc)]
  exact hback c hc

/-- A declaration that is drawn from a sketch has its ranked members in the order of the sketch. -/
theorem Drawn.membersGraded (h : Drawn name? s id k t') (hg : Graded (Item.rank? s) k.items) :
    t'.MembersGraded name? := by
  intro id' hfound
  obtain rfl := Option.some.inj ((h.grows.find id h.found).symm.trans hfound)
  have hranks := congrArg (List.filterMap fun r => r) h.map_rank?_eq
  rw [List.filterMap_map, List.filterMap_map] at hranks
  rw [Tree.childRanks]
  exact (congrArg (List.Pairwise (· ≤ ·)) hranks).mpr hg

end Transfer

/-- What a run leaves of the layout of a body, and what it adds to it. Ranked members that stand in
order before the run do so after it. The constants that are new after it, the properties and the
methods, each form a block in the order of the declaration, right behind the last member of their form
that was there; that does not depend on the order of the body. -/
theorem realize_layout (d : Declaration) (t t' : Tree) (records : List PassRecord)
    (hc : t.Closed) (hrun : d.realize.on t = (.ok records, t')) :
    (t.MembersGraded d.name? → t'.MembersGraded d.name?) ∧
      ∃ id, t'.findClassLike? d.name? = some id ∧
        ∀ form ∈ [Category.constDecl, .propertyDecl, .methodDecl], ∃ ahead block behind,
          t.BlockAdded t' id form (t.body d.name?) (d.requests form) ahead block behind := by
  have hleads : d.passes.Leads t t' := ⟨records, hrun⟩
  rw [Declaration.passes_eq_opening] at hleads
  obtain ⟨s, hopening, hdetails⟩ := Pipeline.leads_append.1 hleads
  obtain ⟨hclosed, hsize, hbody, hnode⟩ := Declaration.opening_body hc hopening
  obtain ⟨id, hid⟩ := Option.isSome_iff_exists.1 (Declaration.opening_found hopening)
  rw [Tree.body_of_find hid] at hbody
  have hconcerns : ∀ p ∈ d.details, p.Concerns d.name? := fun p hp =>
    d.concerns_inner p (List.mem_append_right _ (List.mem_cons_of_mem _ hp))
  have hdrawn := (Drawn.ofTree hclosed hid).run hconcerns
    (fun _ => Declaration.isMember_of_mem_details) hdetails
  refine ⟨fun hg => hdrawn.membersGraded (Sketch.graded_addAll _ ?_), id,
    hdrawn.grows.find id hid, fun form hform => ?_⟩
  · rw [Graded, Sketch.ofTree, List.filterMap_map]
    exact Declaration.opening_membersGraded hc hg hopening id hid
  · have hrank : ∃ r, form.memberRank? = some r ∧ r ≠ 0 := by
      simp only [List.mem_cons, List.not_mem_nil, or_false] at hform
      rcases hform with rfl | rfl | rfl
      · exact ⟨1, rfl, by decide⟩
      · exact ⟨2, rfl, by decide⟩
      · exact ⟨3, rfl, by decide⟩
    obtain ⟨r, hr, hne⟩ := hrank
    obtain ⟨k, nodes, hk, htogether, hnodes⟩ :=
      Declaration.exists_block hclosed hid hdetails hr hne
    obtain ⟨ahead, block, behind, hblock⟩ := hk.exists_blockAdded hclosed hr htogether hnodes
    rw [← hbody]
    refine ⟨ahead, block, behind, hblock.congr fun c hmem => hnode c ?_⟩
    rw [hbody] at hmem
    exact Tree.lt_of_mem_body hc hmem

/-- A class with a constant that its file has, and with members that it lacks. -/
def coinClass : ClassSpec :=
  { ClassSpec.new "Coin" with
    constants := .ofList [{ name := "HEADS", value := .ofLiteral (.int 0) },
      { name := "TAILS", value := .ofLiteral (.int 1) }, { name := "EDGE", value := .ofLiteral (.int 2) }]
    properties := .ofList [{ name := "side" }] }

/-- A file whose class has a method ahead of a constant, and a piece of source behind them. -/
def coinFile : Outline :=
  .file [.mk { kind := .classDecl { name? := some "Coin" } }
    [.leaf { kind := .methodDecl { name := "flip" } },
      .leaf { kind := .constDecl { name := "HEADS", value := .int 0 } },
      .leaf { kind := .verbatim "use Minting;" }]]

/-- The forms and the names of what a body holds, in order. -/
def Tree.bodyNames (t : Tree) (name? : Option String) : List (Category × Option String) :=
  (t.body name?).map fun c => (t.category c, (t.node c).name?)

/-- Two constants go right behind the one that is there, although a method stands ahead of it, and the
property goes behind them. -/
theorem realize_layout_coin :
    ∃ records t', (Declaration.ofClass coinClass).realize.on (.ofOutline coinFile) =
        (.ok records, t') ∧
      t'.bodyNames (some "Coin") =
        [(.methodDecl, some "flip"), (.constDecl, some "HEADS"), (.constDecl, some "TAILS"),
          (.constDecl, some "EDGE"), (.propertyDecl, some "side"), (.verbatim, none)] ∧
      ((Tree.ofOutline coinFile).MembersGraded (some "Coin") → t'.MembersGraded (some "Coin")) ∧
        ∃ id, t'.findClassLike? (some "Coin") = some id ∧
          ∀ form ∈ [Category.constDecl, .propertyDecl, .methodDecl], ∃ ahead block behind,
            (Tree.ofOutline coinFile).BlockAdded t' id form
              ((Tree.ofOutline coinFile).body (some "Coin"))
              ((Declaration.ofClass coinClass).requests form) ahead block behind := by
  have hrun : ((Declaration.ofClass coinClass).realize.on (.ofOutline coinFile)).1.isOk = true ∧
      ((Declaration.ofClass coinClass).realize.on (.ofOutline coinFile)).2.bodyNames (some "Coin") =
        [(.methodDecl, some "flip"), (.constDecl, some "HEADS"), (.constDecl, some "TAILS"),
          (.constDecl, some "EDGE"), (.propertyDecl, some "side"), (.verbatim, none)] := by
    decide +kernel
  rcases h : (Declaration.ofClass coinClass).realize.on (.ofOutline coinFile) with
    ⟨e | records, t'⟩
  · rw [h] at hrun
    cases hrun.1
  · rw [h] at hrun
    exact ⟨records, t', rfl, hrun.2, realize_layout (.ofClass coinClass) (.ofOutline coinFile) t' records
      (Tree.closed_ofOutline _) h⟩

end PhpGraft

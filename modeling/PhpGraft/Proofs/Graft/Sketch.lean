import Mathlib.Data.List.Forall2
import PhpGraft.Proofs.Graft.Placing
import PhpGraft.Proofs.Graft.Stages

/-!
# What becomes of a declaration

The passes that add what belongs to a declaration leave the rest of the file alone. So their work is
described by the head of the declaration and the sequence of its children, where a child is either an
old node or a new leaf (`Sketch`). A tree is drawn from such a sketch when it is the tree that the
passes found but for that declaration (`Drawn`), and each pass that succeeds draws the sketch that
it makes of the sketch before it (`Drawn.step`). Handles of new leaves do not occur in a sketch, and
two trees that are drawn from one sketch are the same file (`Drawn.outline_eq`).
-/

namespace PhpGraft

open Edit

/-! ## Members that passes ask for -/

/-- A member that is added to a declaration unless it is there. -/
structure MemberRequest where
  /-- The form of the member. -/
  form : Category
  /-- The name of the member. -/
  name : String
  /-- Whether a name stands for the member. -/
  same : String → Bool
  /-- The member as a node, in a class or in an interface. -/
  realize : Bool → Except Error Node
  /-- The place of the form among the forms of members. -/
  rank : Nat
  /-- The form has its place. -/
  ranked : form.memberRank? = some rank
  /-- The node has the form and the name. -/
  realizes : Realizes realize form name

namespace MemberRequest

/-- A constant that is to be there. -/
def ofConst (spec : ConstSpec) : MemberRequest :=
  ⟨.constDecl, spec.name, (· == spec.name), fun _ => spec.realize, 1, rfl, spec.realizes⟩

/-- A property that is to be there. -/
def ofProperty (spec : PropertySpec) : MemberRequest :=
  ⟨.propertyDecl, spec.name, (· == spec.name), fun _ => spec.realize, 2, rfl, spec.realizes⟩

/-- A method that is to be there. -/
def ofMethod (spec : MethodSpec) : MemberRequest :=
  ⟨.methodDecl, spec.name, (Text.eqIgnoreCase · spec.name), spec.realize, 3, rfl, spec.realizes⟩

end MemberRequest

/-- The member that a pass asks for. -/
def Pass.request? : Pass → Option MemberRequest
  | constant _ spec => some (.ofConst spec)
  | property _ spec => some (.ofProperty spec)
  | method _ spec => some (.ofMethod spec)
  | _ => none

/-! ## Sketches -/

/-- A child of a declaration: an old node or a new leaf. -/
inductive Item where
  /-- The node under a handle. -/
  | old (id : Nat)
  /-- A leaf. -/
  | new (node : Node)

namespace Item

/-- The node that is meant, where old nodes are those of a tree. -/
def node (s : Tree) : Item → Node
  | old id => s.node id
  | new n => n

/-- The place of the node among the forms of members. -/
def rank? (s : Tree) (i : Item) : Option Nat := (i.node s).category.memberRank?

/-- Whether the child is a new leaf. -/
def isNew : Item → Bool
  | old _ => false
  | new _ => true

end Item

/-- The head of a declaration and its children. -/
structure Sketch where
  /-- The head. -/
  head : NodeKind
  /-- The children in order. -/
  items : List Item

namespace Sketch

/-- The sketch of what stands under a handle. -/
def ofTree (s : Tree) (id : Nat) : Sketch := ⟨(s.node id).kind, (s.children id).map .old⟩

/-- What a pass makes of a head: another one, where the change asks for one. -/
def headAfter (f : NodeKind → Except Error (Option NodeKind)) (head : NodeKind) : NodeKind :=
  match f head with
  | .ok (some head) => head
  | _ => head

/-- The traits that children use. -/
def usedTraits (s : Tree) (items : List Item) : List String :=
  items.flatMap fun i => traitNames (i.node s)

/-- The children with the traits that are missing. -/
def addTraits (s : Tree) (names : List String) (items : List Item) : List Item :=
  (traitNodes (Name.missing (fun name => name) (usedTraits s items) names)).map .new ++ items

/-- Whether a member is among children. -/
def has (s : Tree) (m : MemberRequest) (items : List Item) : Bool :=
  items.any fun i => isMember m.form m.same (i.node s)

/-- The children with a member at its place, unless it is there. -/
def addMember (s : Tree) (inInterface : Bool) (m : MemberRequest) (items : List Item) :
    List Item :=
  if has s m items then items
  else
    match m.realize inInterface with
    | .ok n => place (Item.rank? s) m.rank (.new n) items
    | .error _ => items

/-- The sketch of a declaration of a tree with what a pass adds to it. -/
def add (s : Tree) (id : Nat) (k : Sketch) (p : Pass) : Sketch :=
  match p with
  | .parent class? name =>
    { k with head := headAfter (classHead class? (withParent class? name)) k.head }
  | .interfaces class? names =>
    { k with head := headAfter (classHead class? fun d => .ok (withInterfaces? names d)) k.head }
  | .interfaceParents name names =>
    { k with head := headAfter (interfaceHead name (withParents? names)) k.head }
  | .traits _ names => { k with items := addTraits s names k.items }
  | p =>
    match p.request? with
    | some m => { k with items := addMember s (s.category id == .interfaceDecl) m k.items }
    | none => k

end Sketch

/-! ## Trees that are drawn from sketches -/

/-- Whether a child of a sketch is what stands under a handle of a tree. -/
def Item.Shown (s t : Tree) : Item → Nat → Prop
  | .old id, c => c = id ∧ id < s.cells.size
  | .new n, c => (s.cells.size ≤ c ∧ c < t.cells.size) ∧ t.node c = n ∧ t.children c = []

/-- A tree that is another one but for the declaration of a name, which is as in a sketch. -/
structure Drawn (name? : Option String) (s : Tree) (id : Nat) (k : Sketch) (t : Tree) : Prop where
  /-- The declaration is the one of the name. -/
  found : s.findClassLike? name? = some id
  /-- The tree has grown out of the other one. -/
  grows : Grows name? s t
  /-- Nothing else was stored than the new leaves. -/
  size : t.cells.size = s.cells.size + k.items.countP Item.isNew
  /-- The declaration has the head of the sketch. -/
  head : t.node id = { s.node id with kind := k.head }
  /-- The declaration has the children of the sketch. -/
  items : List.Forall₂ (Item.Shown s t) k.items (t.children id)
  /-- All other nodes are as they were. -/
  others : ∀ other < s.cells.size, other ≠ id →
    t.node other = s.node other ∧ t.children other = s.children other

/-- Classes and interfaces have no place among members. -/
theorem memberRank?_of_isClassLike {c : Category} (h : c.isClassLike = true) :
    c.memberRank? = none := by
  cases c <;> first | rfl | cases h

namespace Drawn

variable {name? : Option String} {s t : Tree} {id : Nat} {k : Sketch}

/-- A tree is drawn from the sketch of its declaration. -/
theorem ofTree (hc : s.Closed) (h : s.findClassLike? name? = some id) :
    Drawn name? s id (.ofTree s id) s where
  found := h
  grows := .refl _ _
  size := by
    rw [Sketch.ofTree, List.countP_map, List.countP_eq_zero.2, Nat.add_zero]
    exact fun _ _ => Bool.false_ne_true
  head := rfl
  items := by
    rw [Sketch.ofTree, List.forall₂_map_left_iff, List.forall₂_same]
    exact fun c hmem => ⟨rfl, (hc id c hmem).2⟩
  others := fun _ _ _ => ⟨rfl, rfl⟩

/-- What does not tell declarations apart is the same of a child and of what shows it. -/
theorem eq_of_shown {β : Type} {f : Node → β} {b : β}
    (hf : ∀ n : Node, n.category.isClassLike = true → f n = b) (h : Drawn name? s id k t)
    {i : Item} {c : Nat} (hi : i.Shown s t c) : f (t.node c) = f (i.node s) := by
  cases i with
  | old j =>
    obtain ⟨rfl, hlt⟩ := hi
    rcases h.grows.node c hlt with he | ⟨-, hg⟩
    · rw [he]
      rfl
    · rw [Item.node, hf _ hg.isClassLike, hf _ (hg.category_eq ▸ hg.isClassLike)]
  | new n => rw [hi.2.1, Item.node]

/-- What does not tell declarations apart is the same of the children and of what is drawn. -/
theorem map_eq {β : Type} {f : Node → β} {b : β}
    (hf : ∀ n : Node, n.category.isClassLike = true → f n = b) (h : Drawn name? s id k t) :
    (t.children id).map (fun c => f (t.node c)) = k.items.map fun i => f (i.node s) := by
  have hitems := h.items
  generalize t.children id = ids at hitems
  generalize k.items = items at hitems
  induction hitems with
  | nil => rfl
  | cons hi _ ih => rw [List.map_cons, List.map_cons, h.eq_of_shown hf hi, ih]

/-- A declaration has the members of its sketch. -/
theorem hasMember_eq (h : Drawn name? s id k t) (m : MemberRequest) :
    hasMember t id m.form m.same = Sketch.has s m k.items := by
  have htest : ∀ n : Node, n.category.isClassLike = true → isMember m.form m.same n = false := by
    intro n hn
    have hne : (n.category == m.form) = false := beq_false_of_ne fun he => by
      have := m.ranked
      rw [← he, memberRank?_of_isClassLike hn] at this
      cases this
    rw [isMember, hne, Bool.false_and]
  have hmap := congrArg (fun l : List Bool => l.any fun b => b) (h.map_eq htest)
  rw [List.any_map, List.any_map] at hmap
  rw [Sketch.has, Bool.eq_iff_iff, hasMember_iff, Tree.HasChild, ← List.any_eq_true]
  exact Bool.eq_iff_iff.1 hmap

/-- A declaration uses the traits of its sketch. -/
theorem usedTraits_eq (h : Drawn name? s id k t) : usedTraits t id = Sketch.usedTraits s k.items := by
  have htest : ∀ n : Node, n.category.isClassLike = true → traitNames n = [] := by
    intro n hn
    unfold traitNames
    split
    · next hk =>
      rw [Node.category, hk] at hn
      cases hn
    · rfl
  have hmap := congrArg List.flatten (h.map_eq htest)
  rwa [← List.flatMap_def, ← List.flatMap_def] at hmap

/-- The ranks of the children are those in the sketch. -/
theorem map_rank?_eq (h : Drawn name? s id k t) :
    ((t.children id).map fun c => (t.category c).memberRank?) = k.items.map (Item.rank? s) :=
  h.map_eq (f := fun n => n.category.memberRank?) fun _ => memberRank?_of_isClassLike

/-! ## Steps -/

/-- New leaves among the children are drawn from the sketch with them. -/
theorem insertNodes {index : Nat} {nodes : List Node} (h : Drawn name? s id k t)
    (hi : index ≤ (t.children id).length)
    (hgrows : Grows name? t (t.insertNodes id index nodes)) :
    Drawn name? s id
      { k with items := k.items.take index ++ nodes.map .new ++ k.items.drop index }
      (t.insertNodes id index nodes) := by
  have hid := lt_of_find h.found
  have hlt := lt_of_find (h.grows.find id h.found)
  refine ⟨h.found, h.grows.trans hgrows, ?_, ?_, ?_, fun other hother hne => ?_⟩
  · have hnew : (nodes.map Item.new).countP Item.isNew = nodes.length := by
      rw [List.countP_map]
      exact List.countP_eq_length.2 fun _ _ => rfl
    have hsplit := congrArg (List.countP Item.isNew) (List.take_append_drop index k.items)
    rw [List.countP_append] at hsplit
    rw [Tree.size_insertNodes, h.size, List.countP_append, List.countP_append, hnew]
    omega
  · rw [Tree.node_insertNodes_of_lt hlt, h.head]
  · rw [Tree.children_insertNodes hlt hi]
    have hold : ∀ (i : Item) (c : Nat), i.Shown s t c →
        i.Shown s (t.insertNodes id index nodes) c := by
      intro i c hi
      cases i with
      | old j => exact hi
      | new n =>
        obtain ⟨⟨hle, hc⟩, hnode, hchildren⟩ := hi
        refine ⟨⟨hle, ?_⟩, ?_, ?_⟩
        · rw [Tree.size_insertNodes]
          omega
        · rw [Tree.node_insertNodes_of_lt hc, hnode]
        · rw [Tree.children_insertNodes_of_ne (by omega), hchildren]
    have hnew : List.Forall₂ (Item.Shown s (t.insertNodes id index nodes)) (nodes.map .new)
        (t.freshIds nodes.length) := by
      conv => arg 2; rw [← @Tree.map_node_freshIds t id index nodes]
      rw [List.map_map, List.forall₂_map_left_iff, List.forall₂_same]
      intro c hc
      obtain ⟨hle, hltc⟩ := Tree.le_of_mem_freshIds hc
      have := h.grows.size_le
      refine ⟨⟨by omega, by simpa using hltc⟩, rfl, ?_⟩
      rw [Tree.children_insertNodes_of_ne (by omega), Tree.children_of_le hle]
    exact List.rel_append (List.rel_append (List.forall₂_take _ (h.items.imp hold)) hnew)
      (List.forall₂_drop _ (h.items.imp hold))
  · have hle := h.grows.size_le
    rw [Tree.node_insertNodes_of_lt (by omega), Tree.children_insertNodes_of_ne hne]
    exact h.others other hother hne

/-- A member at its place is drawn from the sketch with it. -/
theorem insertMember {n : Node} {rank : Nat} (h : Drawn name? s id k t)
    (hrank : n.category.memberRank? = some rank)
    (hgrows : Grows name? t (t.insertNodes id (memberIndex t id n.category) [n])) :
    Drawn name? s id { k with items := place (Item.rank? s) rank (.new n) k.items }
      (t.insertNodes id (memberIndex t id n.category) [n]) := by
  have hindex : memberIndex t id n.category = insertIndex (k.items.map (Item.rank? s)) rank := by
    rw [memberIndex, hrank, h.map_rank?_eq]
  have hdrawn := h.insertNodes (memberIndex_le t id n.category) hgrows
  rw [hindex] at hdrawn ⊢
  simpa [place] using hdrawn

/-- Another head is drawn from the sketch with it. -/
theorem modifyHead {kind : NodeKind} (h : Drawn name? s id k t)
    (hgrows : Grows name? t (t.modifyNode id fun n => { n with kind })) :
    Drawn name? s id { k with head := kind } (t.modifyNode id fun n => { n with kind }) := by
  have hid := lt_of_find h.found
  have hlt := lt_of_find (h.grows.find id h.found)
  refine ⟨h.found, h.grows.trans hgrows, ?_, ?_, ?_, fun other hother hne => ?_⟩
  · rw [Tree.size_modifyNode, h.size]
  · rw [Tree.node_modifyNode, if_pos ⟨rfl, hlt⟩, h.head]
  · rw [Tree.children_modifyNode]
    refine h.items.imp fun i c hi => ?_
    cases i with
    | old j => exact hi
    | new n =>
      obtain ⟨⟨hle, hc⟩, hnode, hchildren⟩ := hi
      have hne : ¬(c = id ∧ id < t.cells.size) := by omega
      refine ⟨⟨hle, by rwa [Tree.size_modifyNode]⟩, ?_, ?_⟩
      · rw [Tree.node_modifyNode, if_neg hne, hnode]
      · rw [Tree.children_modifyNode, hchildren]
  · rw [Tree.node_modifyNode, if_neg fun hc => hne hc.1, Tree.children_modifyNode]
    exact h.others other hother hne

variable {c? : Option Change}

/-- A planned head is drawn from the sketch with it. -/
theorem planHead {f : NodeKind → Except Error (Option NodeKind)}
    (hf : ∀ k k', f k = .ok (some k') → HeadGrows k k') (h : Drawn name? s id k t)
    (hplan : planHead t name? f = .ok c?) :
    Drawn name? s id { k with head := Sketch.headAfter f k.head } (t.after c?) := by
  obtain ⟨id', hfound, kind?, hkind, rfl⟩ := planHead_eq_ok.1 hplan
  obtain rfl : id = id' := Option.some.inj ((h.grows.find id h.found).symm.trans hfound)
  have hhead : (t.node id).kind = k.head := by rw [h.head]
  rw [hhead] at hkind
  rw [Sketch.headAfter, hkind]
  cases kind? with
  | none => exact h
  | some kind =>
    have hg : HeadGrows (t.node id).kind kind := by
      rw [hhead]
      exact hf _ _ hkind
    exact h.modifyHead (grows_head hfound hg)

/-- A planned member is drawn from the sketch with it. -/
theorem planMember {m : MemberRequest} (h : Drawn name? s id k t)
    (hplan : planMember t name? m.form m.same m.realize = .ok c?) :
    Drawn name? s id
      { k with items := Sketch.addMember s (s.category id == .interfaceDecl) m k.items }
      (t.after c?) := by
  obtain ⟨id', hfound, hcases⟩ := planMember_eq_ok.1 hplan
  obtain rfl : id = id' := Option.some.inj ((h.grows.find id h.found).symm.trans hfound)
  rw [h.hasMember_eq, h.grows.category_eq (lt_of_find h.found)] at hcases
  unfold Sketch.addMember
  rcases hcases with ⟨hm, rfl⟩ | ⟨hm, n, hn, rfl⟩
  · rw [if_pos hm]
    exact h
  · rw [if_neg (by rw [hm]; exact Bool.false_ne_true), hn]
    have hform := (m.realizes _ n hn).1
    have hrank : n.category.memberRank? = some m.rank := hform ▸ m.ranked
    refine h.insertMember hrank ((PassStep.of_planMember m.realizes ?_ hplan).grows ?_)
    · rw [m.ranked]
      rfl
    · intro he
      have := m.ranked
      rw [Option.some.inj he] at this
      cases this

/-- Planned traits are drawn from the sketch with them. -/
theorem planTraits {names : List String} (h : Drawn name? s id k t)
    (hgrows : ∀ c, c? = some c → Grows name? t (c.apply t))
    (hplan : planTraits t name? names = .ok c?) :
    Drawn name? s id { k with items := Sketch.addTraits s names k.items } (t.after c?) := by
  obtain ⟨id', hfound, -, rfl⟩ := planTraits_eq_ok.1 hplan
  obtain rfl : id = id' := Option.some.inj ((h.grows.find id h.found).symm.trans hfound)
  rw [h.usedTraits_eq] at hgrows ⊢
  unfold Sketch.addTraits
  cases hmissing : Name.missing (fun name => name) (Sketch.usedTraits s k.items) names with
  | nil => exact h
  | cons name rest =>
    rw [hmissing] at hgrows
    have hdrawn := h.insertNodes (Nat.zero_le _) (hgrows _ rfl)
    simpa [Tree.after, Change.apply] using hdrawn

/-- A pass that adds a part of the declaration draws the sketch with that part. -/
theorem step {p : Pass} (hp : p.Concerns name?)
    (hpart : p.makes? = none ∨ ∃ c, p.makes? = some c ∧ c.memberRank?.isSome = true)
    (h : Drawn name? s id k t) (hplan : p.plan t = .ok c?) :
    Drawn name? s id (k.add s id p) (t.after c?) := by
  have hgrows : ∀ c, c? = some c → Grows name? t (c.apply t) := by
    rintro c rfl
    refine (passStep_of_plan hp hplan).grows fun he => ?_
    rcases hpart with hnone | ⟨c, hc, hrank⟩
    · rw [hnone] at he
      cases he
    · rw [hc] at he
      rw [Option.some.inj he] at hrank
      cases hrank
  cases p with
  | parent class? name =>
    subst hp
    exact h.planHead (fun _ _ => headGrows_of_withParent) hplan
  | interfaces class? names =>
    subst hp
    exact h.planHead (fun _ _ => headGrows_of_withInterfaces?) hplan
  | interfaceParents name names =>
    subst hp
    exact h.planHead (fun _ _ => headGrows_of_withParents?) hplan
  | traits class? names =>
    subst hp
    exact h.planTraits hgrows hplan
  | constant class? spec =>
    subst hp
    exact h.planMember hplan
  | property class? spec =>
    subst hp
    exact h.planMember hplan
  | method class? spec =>
    subst hp
    exact h.planMember hplan
  | _ => simp [Pass.makes?, Category.memberRank?] at hpart

/-- Passes that add parts of the declaration draw the sketch with those parts. -/
theorem run {ps : Pipeline} {t' : Tree} (hps : ∀ p ∈ ps, p.Concerns name?)
    (hparts : ∀ p ∈ ps,
      p.makes? = none ∨ ∃ c, p.makes? = some c ∧ c.memberRank?.isSome = true)
    (h : Drawn name? s id k t) (hleads : ps.Leads t t') :
    Drawn name? s id (ps.foldl (Sketch.add s id) k) t' := by
  induction ps generalizing k t with
  | nil =>
    obtain rfl := Pipeline.leads_nil.1 hleads
    exact h
  | cons p ps ih =>
    rw [List.forall_mem_cons] at hps hparts
    obtain ⟨c?, hplan, hrest⟩ := Pipeline.leads_cons.1 hleads
    exact ih hps.2 hparts.2 (h.step hps.1 hparts.1 hplan) hrest

/-! ## Drawn trees as files -/

/-- What is reached from an old node is the same in all trees that are drawn from one sketch. -/
theorem unfold_eq {t' : Tree} (hc : s.Closed) (h : Drawn name? s id k t)
    (h' : Drawn name? s id k t') (fuel : Nat) :
    ∀ c < s.cells.size, t.unfold fuel c = t'.unfold fuel c := by
  induction fuel with
  | zero =>
    intro c hlt
    by_cases hid : c = id
    · rw [Tree.unfold, Tree.unfold, hid, h.head, h'.head]
    · rw [Tree.unfold, Tree.unfold, (h.others c hlt hid).1, (h'.others c hlt hid).1]
  | succ fuel ih =>
    intro c hlt
    by_cases hid : c = id
    · subst hid
      have hitems : (t.children c).map (t.unfold fuel) = (t'.children c).map (t'.unfold fuel) := by
        have hdrawn := h.items
        have hdrawn' := h'.items
        generalize t.children c = ids at hdrawn
        generalize t'.children c = ids' at hdrawn'
        generalize k.items = items at hdrawn hdrawn'
        induction hdrawn generalizing ids' with
        | nil =>
          cases hdrawn'
          rfl
        | @cons i d items ids hi _ ihitems =>
          obtain _ | ⟨hi', hrest'⟩ := hdrawn'
          rw [List.map_cons, List.map_cons, ihitems _ hrest']
          congr 1
          cases i with
          | old j =>
            obtain ⟨rfl, hj⟩ := hi
            rw [hi'.1]
            exact ih _ hj
          | new n =>
            -- A leaf looks the same from everywhere.
            obtain ⟨-, hnode, hchildren⟩ := hi
            obtain ⟨-, hnode', hchildren'⟩ := hi'
            cases fuel with
            | zero => rw [Tree.unfold, Tree.unfold, hnode, hnode']
            | succ fuel =>
              rw [Tree.unfold, Tree.unfold, hnode, hnode', hchildren, hchildren']
              rfl
      rw [Tree.unfold, Tree.unfold, h.head, h'.head, hitems]
    · obtain ⟨hnode, hchildren⟩ := h.others c hlt hid
      obtain ⟨hnode', hchildren'⟩ := h'.others c hlt hid
      rw [Tree.unfold, Tree.unfold, hnode, hnode', hchildren, hchildren']
      congr 1
      exact List.map_congr_left fun d hd => ih d (hc c d hd).2

/-- Trees that are drawn from one sketch are the same file. -/
theorem outline_eq {t' : Tree} (hc : s.Closed) (h : Drawn name? s id k t)
    (h' : Drawn name? s id k t') : t.outline = t'.outline := by
  rw [Tree.outline, Tree.outline, h.size, h'.size]
  exact h.unfold_eq hc h' _ _ Tree.root_lt

end Drawn

end PhpGraft

import PhpGraft.Proofs.Graft.Sketch

/-!
# The order of passes

The passes that add what belongs to a declaration can be run in other orders and make the same sketch
of it: a head does not depend on members, and members of different kinds can be placed in either order
(`Sketch.addAll_comm_of_rank`). Interfaces that are asked for in two steps are those that are asked
for at once (`Sketch.add_interfaces_append`). And passes that were settled once do nothing whenever
they are run later (`Pipeline.Leads.skip`).
-/

namespace PhpGraft

open Edit

namespace Sketch

variable {s : Tree} {owner : Nat} {k : Sketch} {p q : Pass} {items : List Item}

/-! ## Heads and children -/

/-- A pass that makes no nodes changes the head, whatever the children are. -/
theorem add_of_makes?_none (s : Tree) (owner : Nat) (hp : p.makes? = none) :
    ∃ f : NodeKind → NodeKind, ∀ k : Sketch, k.add s owner p = { k with head := f k.head } := by
  cases p with
  | parent => exact ⟨headAfter _, fun _ => rfl⟩
  | interfaces => exact ⟨headAfter _, fun _ => rfl⟩
  | interfaceParents => exact ⟨headAfter _, fun _ => rfl⟩
  | _ => cases hp

/-- A pass that makes nodes changes the children, whatever the head is. -/
theorem add_of_makes?_ne_none (s : Tree) (owner : Nat) (hp : p.makes? ≠ none) :
    ∃ g : List Item → List Item, ∀ k : Sketch, k.add s owner p = { k with items := g k.items } := by
  cases p with
  | parent | interfaces | interfaceParents => exact absurd rfl hp
  | traits class? names => exact ⟨addTraits s names, fun _ => rfl⟩
  | constant | property | method => exact ⟨addMember s _ _, fun _ => rfl⟩
  | _ => exact ⟨fun items => items, fun _ => rfl⟩

/-- A change of the head and one of the children can be made in either order. -/
theorem add_comm_of_makes? (hp : p.makes? = none) (hq : q.makes? ≠ none) :
    (k.add s owner p).add s owner q = (k.add s owner q).add s owner p := by
  obtain ⟨f, hf⟩ := add_of_makes?_none s owner hp
  obtain ⟨g, hg⟩ := add_of_makes?_ne_none s owner hq
  rw [hf, hg, hg, hf]

/-! ## Members of different kinds -/

/-- What is among the children after a leaf was placed. -/
theorem has_place {rank : Nat} {n : Node} {m : MemberRequest} :
    has s m (place (Item.rank? s) rank (.new n) items) =
      (isMember m.form m.same n || has s m items) := by
  unfold has place
  generalize insertIndex (items.map (Item.rank? s)) rank = index
  conv_rhs => rw [← List.take_append_drop index items]
  rw [List.any_append, List.any_append, List.any_cons]
  exact Bool.or_left_comm _ _ _

/-- A new member has the place of its form. -/
theorem rank?_of_realize {m : MemberRequest} {inInterface : Bool} {n : Node}
    (h : m.realize inInterface = .ok n) : (Item.new n).rank? s = some m.rank := by
  rw [Item.rank?, Item.node, (m.realizes _ n h).1, m.ranked]

/-- Adding a member keeps the ranked children in order. -/
theorem graded_addMember {m : MemberRequest} {inInterface : Bool}
    (h : Graded (Item.rank? s) items) :
    Graded (Item.rank? s) (addMember s inInterface m items) := by
  unfold addMember
  split
  · exact h
  · cases hn : m.realize inInterface with
    | error e => exact h
    | ok n => exact graded_place (rank?_of_realize hn) h

/-- Adding traits keeps the ranked children in order. -/
theorem graded_addTraits {names : List String} (h : Graded (Item.rank? s) items) :
    Graded (Item.rank? s) (addTraits s names items) := by
  have hzero : ∀ k ∈ ((traitNodes (Name.missing (fun name => name) (usedTraits s items) names)).map
      Item.new).filterMap (Item.rank? s), k = 0 := by
    intro k hk
    obtain ⟨i, hi, hrank⟩ := List.mem_filterMap.1 hk
    obtain ⟨n, hn, rfl⟩ := List.mem_map.1 hi
    obtain ⟨name, -, rfl⟩ := List.mem_map.1 hn
    exact (Option.some.inj hrank).symm
  unfold addTraits Graded
  rw [List.filterMap_append, List.pairwise_append]
  refine ⟨List.pairwise_of_forall_mem_list fun j hj k _ => ?_, h, fun j hj k _ => ?_⟩
  · rw [hzero j hj]
    exact Nat.zero_le k
  · rw [hzero j hj]
    exact Nat.zero_le k

/-- What passes add keeps the ranked children in order. -/
theorem graded_add (p : Pass) (h : Graded (Item.rank? s) k.items) :
    Graded (Item.rank? s) (k.add s owner p).items := by
  cases p with
  | traits class? names => exact graded_addTraits h
  | constant | property | method => exact graded_addMember h
  | _ => exact h

/-- A new member of another kind is not mistaken for a member. -/
theorem has_place_of_rank_ne {m m' : MemberRequest} {inInterface : Bool} {n : Node}
    (hn : m.realize inInterface = .ok n) (hne : m.rank ≠ m'.rank) :
    has s m' (place (Item.rank? s) m.rank (.new n) items) = has s m' items := by
  have hform : (n.category == m'.form) = false := by
    refine beq_false_of_ne fun he => hne ?_
    have hrank := m.ranked
    rw [← (m.realizes _ n hn).1, he, m'.ranked] at hrank
    exact (Option.some.inj hrank).symm
  rw [has_place, isMember, hform, Bool.false_and, Bool.false_or]

/-- Members of different kinds can be added in either order. -/
theorem addMember_comm {m m' : MemberRequest} {inInterface : Bool} (hne : m.rank ≠ m'.rank)
    (h : Graded (Item.rank? s) items) :
    addMember s inInterface m' (addMember s inInterface m items) =
      addMember s inInterface m (addMember s inInterface m' items) := by
  cases hn : m.realize inInterface with
  | error e => simp [addMember, hn]
  | ok n =>
    cases hn' : m'.realize inInterface with
    | error e => simp [addMember, hn']
    | ok n' =>
      have hplace := @has_place_of_rank_ne s items _ _ _ _ hn hne
      have hplace' := @has_place_of_rank_ne s items _ _ _ _ hn' hne.symm
      by_cases hm : has s m items = true
      · by_cases hm' : has s m' items = true
        · simp [addMember, hm, hm']
        · simp [addMember, hn', hm, hm', hplace']
      · by_cases hm' : has s m' items = true
        · simp [addMember, hn, hm, hm', hplace]
        · simp only [addMember, hn, hn', hm, hm', hplace, hplace', Bool.false_eq_true, if_false]
          exact place_comm (rank?_of_realize hn) (rank?_of_realize hn') hne h

/-- Passes for members of different kinds can be run in either order. -/
theorem add_comm_of_request? {m m' : MemberRequest} (hp : p.request? = some m)
    (hq : q.request? = some m') (hne : m.rank ≠ m'.rank) (h : Graded (Item.rank? s) k.items) :
    (k.add s owner p).add s owner q = (k.add s owner q).add s owner p := by
  have hadd : ∀ {p : Pass} {m : MemberRequest}, p.request? = some m → ∀ k : Sketch,
      k.add s owner p =
        { k with items := addMember s (s.category owner == .interfaceDecl) m k.items } := by
    intro p m hp k
    cases p with
    | constant | property | method =>
      obtain rfl := Option.some.inj hp
      rfl
    | _ => cases hp
  rw [hadd hp, hadd hq, hadd hq, hadd hp]
  exact congrArg (Sketch.mk k.head) (addMember_comm hne h)

/-! ## Interfaces -/

/-- A class with interfaces has those that it had, and behind them those that it lacked. -/
theorem headAfter_withInterfaces? (class? : Option String) (names : List String) (d : ClassDecl) :
    headAfter (classHead class? fun d => .ok (withInterfaces? names d)) (.classDecl d) =
      .classDecl { d with interfaces := d.interfaces ++ Name.missing id d.interfaces names } := by
  unfold headAfter classHead withInterfaces? appendMissing?
  cases h : Name.missing id d.interfaces names <;> simp [Except.map, h]

/-- Asking for interfaces again, and for further ones, is asking for all of them at once. -/
theorem add_interfaces_append (class? : Option String) (names further : List String) :
    (k.add s owner (.interfaces class? names)).add s owner (.interfaces class? (names ++ further)) =
      k.add s owner (.interfaces class? (names ++ further)) := by
  obtain ⟨head, items⟩ := k
  unfold add
  cases head with
  | classDecl d =>
    simp only [headAfter_withInterfaces?]
    have hself := @Name.missing_self String id d.interfaces names
    rw [List.map_id] at hself
    simp only [Name.missing_append, hself, List.map_id, List.map_nil, List.append_nil,
      List.nil_append, List.append_assoc]
  | _ => rfl

/-! ## Orders of passes -/

/-- Steps of two lists that can be made in either order, one by one, can be made list by list in
either order. -/
theorem foldl_append_comm {β γ : Type} {f : β → γ → β} {P : β → Prop} {as bs : List γ}
    (hP : ∀ b x, P b → P (f b x))
    (hcomm : ∀ b, P b → ∀ x ∈ as, ∀ y ∈ bs, f (f b x) y = f (f b y) x) {b : β} (hb : P b) :
    bs.foldl f (as.foldl f b) = as.foldl f (bs.foldl f b) := by
  induction bs generalizing b with
  | nil => rfl
  | cons y bs ih =>
    -- One step goes past all steps of the first list.
    have hpast : ∀ {l : List γ} {b : β}, (∀ x ∈ l, x ∈ as) → P b →
        f (l.foldl f b) y = l.foldl f (f b y) := by
      intro l b hl hb
      induction l generalizing b with
      | nil => rfl
      | cons x l ihl =>
        rw [List.forall_mem_cons] at hl
        rw [List.foldl_cons, List.foldl_cons, ihl hl.2 (hP b x hb),
          hcomm b hb x hl.1 y List.mem_cons_self]
    rw [List.foldl_cons, List.foldl_cons, hpast (fun _ hx => hx) hb]
    exact ih (fun b hb x hx z hz => hcomm b hb x hx z (List.mem_cons_of_mem _ hz)) (hP b y hb)

/-- The sketch with what passes add to it, one after another. -/
def addAll (s : Tree) (owner : Nat) (ps : Pipeline) (k : Sketch) : Sketch := ps.foldl (add s owner) k

/-- Passes can be run in two parts. -/
theorem addAll_append (ps qs : Pipeline) :
    addAll s owner (ps ++ qs) k = addAll s owner qs (addAll s owner ps k) := List.foldl_append

/-- What passes add keeps the ranked children in order. -/
theorem graded_addAll (ps : Pipeline) (h : Graded (Item.rank? s) k.items) :
    Graded (Item.rank? s) (addAll s owner ps k).items := by
  induction ps generalizing k with
  | nil => exact h
  | cons p ps ih => exact ih (graded_add p h)

/-- Changes of the head can be made ahead of changes of the children. -/
theorem addAll_comm_of_makes? {ps qs : Pipeline} (hps : ∀ p ∈ ps, p.makes? = none)
    (hqs : ∀ q ∈ qs, q.makes? ≠ none) :
    addAll s owner ps (addAll s owner qs k) = addAll s owner qs (addAll s owner ps k) :=
  (foldl_append_comm (P := fun _ => True) (fun _ _ _ => trivial)
    (fun _ _ p hp q hq => add_comm_of_makes? (hps p hp) (hqs q hq)) trivial).symm

/-- Whether passes ask for members that have their place at a rank. -/
def RequestsAt (rank : Nat) (ps : Pipeline) : Prop :=
  ∀ p ∈ ps, ∃ m, p.request? = some m ∧ m.rank = rank

/-- Members of different kinds can be added in either order. -/
theorem addAll_comm_of_rank {ps qs : Pipeline} {r r' : Nat} (hne : r ≠ r')
    (hps : RequestsAt r ps) (hqs : RequestsAt r' qs) (h : Graded (Item.rank? s) k.items) :
    addAll s owner ps (addAll s owner qs k) = addAll s owner qs (addAll s owner ps k) := by
  refine (foldl_append_comm (P := fun k : Sketch => Graded (Item.rank? s) k.items)
    (fun _ p hk => graded_add p hk) (fun k hk p hp q hq => ?_) h).symm
  obtain ⟨m, hm, rfl⟩ := hps p hp
  obtain ⟨m', hm', rfl⟩ := hqs q hq
  exact add_comm_of_request? hm hm' hne hk

end Sketch

namespace Pipeline

/-- A run goes on behind passes that were settled when the tree grew. -/
theorem Leads.skip {name? : Option String} {ps qs : Pipeline} {t u t' : Tree}
    (hps : ∀ p ∈ ps, p.Concerns name?) (hs : ∀ p ∈ ps, p.Settled t) (hgrows : Grows name? t u)
    (h : (ps ++ qs).Leads u t') : qs.Leads u t' := by
  induction ps with
  | nil => exact h
  | cons p ps ih =>
    rw [List.forall_mem_cons] at hps hs
    obtain ⟨c?, hplan, hrest⟩ := leads_cons.1 h
    have hnone : p.plan u = .ok none := hs.1.mono hps.1 hgrows
    obtain rfl : none = c? := Except.ok.inj (hnone.symm.trans hplan)
    exact ih hps.2 hs.2 hrest

/-- A run that succeeds leaves one tree. -/
theorem Leads.unique {ps : Pipeline} {t u u' : Tree} (h : ps.Leads t u) (h' : ps.Leads t u') :
    u = u' := by
  obtain ⟨records, hrun⟩ := h
  obtain ⟨records', hrun'⟩ := h'
  exact congrArg Prod.snd (hrun.symm.trans hrun')

end Pipeline

end PhpGraft

import PhpGraft.Proofs.Graft.Slots

/-!
# Slots are filled

`Fills` says what becomes of the names of a slot when some names are wanted: a name that is there
stays there as often as it was, a wanted name that is missing is there once, and nothing else comes.
One pass fills the slot of its form with its names (`fills_of_plan`), and so a run that succeeds fills
all slots with the names of all its passes (`Leads.fills`). For the parent of a class even more is
known: it is the old one if there is one (`Leads.extends?_eq`).
-/

namespace PhpGraft

open Edit

/-- Of each key there are as many names as before if there were any, and else one if it is wanted. -/
def Fills (keyOf : String → String) (known wanted result : List String) : Prop :=
  ∀ k, result.countP (keyOf · == k) =
    if 0 < known.countP (keyOf · == k) then known.countP (keyOf · == k)
    else if wanted.any (keyOf · == k) then 1 else 0

namespace Fills

variable {keyOf : String → String} {known wanted wanted' result result' : List String}

/-- Known names need not be filled in. -/
theorem of_known (h : ∀ w ∈ wanted, ∃ n ∈ known, keyOf n = keyOf w) :
    Fills keyOf known wanted known := by
  intro k
  by_cases hpos : 0 < known.countP (keyOf · == k)
  · rw [if_pos hpos]
  · have hnone : wanted.any (keyOf · == k) = false := by
      refine Bool.eq_false_iff.2 fun hany => hpos ?_
      obtain ⟨w, hw, hkey⟩ := List.any_eq_true.1 hany
      obtain ⟨n, hn, hsame⟩ := h w hw
      exact List.countP_pos_iff.2 ⟨n, hn, by rw [hsame]; exact hkey⟩
    rw [if_neg hpos, hnone]
    simpa using hpos

/-- Nothing is filled in where nothing is wanted. -/
theorem nil : Fills keyOf known [] known := of_known (List.forall_mem_nil _)

/-- The order of names does not matter. -/
theorem perm (h : Fills keyOf known wanted result) (hp : result'.Perm result) :
    Fills keyOf known wanted result' := fun k => by
  rw [hp.countP_eq]
  exact h k

/-- A name that is missing is put behind the others. -/
theorem single {name : String} (h : ∀ n ∈ known, keyOf n ≠ keyOf name) :
    Fills keyOf known [name] (known ++ [name]) := by
  intro k
  rw [List.countP_append, List.countP_singleton]
  by_cases hk : keyOf name = k
  · have hzero : known.countP (keyOf · == k) = 0 :=
      List.countP_eq_zero.2 fun n hn hkey => h n hn ((eq_of_beq hkey).trans hk.symm)
    simp [hzero, hk]
  · simp only [List.any_cons, List.any_nil, beq_false_of_ne hk, Bool.or_false,
      Bool.false_eq_true, if_false]
    split <;> omega

/-- Missing names are put behind the others. -/
theorem missing {α : Type} {nameOf : α → String} {wanted : List α} :
    Fills Name.key known (wanted.map nameOf)
      (known ++ (Name.missing nameOf known wanted).map nameOf) := fun k => by
  rw [Name.countP_append_missing, List.any_map]
  rfl

/-- What was filled in twice was filled in with both. -/
theorem trans (h : Fills keyOf known wanted result) (h' : Fills keyOf result wanted' result') :
    Fills keyOf known (wanted ++ wanted') result' := by
  intro k
  rw [h' k, h k, List.any_append]
  by_cases hpos : 0 < known.countP (keyOf · == k)
  · simp [hpos]
  · cases wanted.any (keyOf · == k) <;> simp [hpos]

end Fills

/-- The names of a slot that a pass wants to be there. -/
def Pass.wants : Pass → Slot → List String
  | imports l, .imports => l.map Import.name
  | parent _ name, .parent => [name]
  | interfaces _ names, .heritage => names
  | interfaceParents _ names, .heritage => names
  | traits _ names, .traits => names
  | constant _ spec, .constants => [spec.name]
  | property _ spec, .properties => [spec.name]
  | method _ spec, .methods => [spec.name]
  | _, _ => []

/-- A pass wants no names of a slot of another form. -/
theorem Pass.wants_eq_nil {p : Pass} {s : Slot} (h : p.makes? ≠ s.category?) : p.wants s = [] := by
  cases p <;> cases s <;> first | rfl | exact absurd rfl h

/-! ## One pass -/

section Plan

variable {name? : Option String} {t : Tree} {c? : Option Change} {s : Slot}

/-- The imported names are those of the imports in the scope of the file. -/
theorem importedNames_eq : importedNames t t.scope = Slot.imports.names name? t := by
  show importedNames t t.scope = (t.children t.scope).flatMap fun c => Slot.imports.inChild (t.node c)
  unfold importedNames Tree.childrenOf
  induction t.children t.scope with
  | nil => rfl
  | cons c cs ih =>
    rw [List.flatMap_cons, ← ih, Slot.inChild_eq (by simp)]
    by_cases hc : t.category c = .useDecl
    · have hc' : (t.node c).category = .useDecl := hc
      simp only [List.filter_cons, hc, beq_self_eq_true, if_true, hc', Slot.category?]
      cases hn : (t.node c).name? <;> simp [hn]
    · have hc' : ¬(t.node c).category = .useDecl := hc
      simp [hc, hc', Slot.category?, eq_comm (a := Category.useDecl)]

/-- A pass for imports fills the imports. -/
theorem fills_imports {l : List Import} (hc : t.Closed)
    (h : (Pass.imports l).plan t = .ok c?) :
    Fills Name.key (Slot.imports.names name? t) (l.map Import.name)
      (Slot.imports.names name? (t.after c?)) := by
  have hfills := @Fills.missing (Slot.imports.names name? t) Import Import.name l
  cases c? with
  | none =>
    refine .of_known ?_
    rw [List.forall_mem_map, ← importedNames_eq]
    intro i hi
    obtain ⟨n, hn, hsame⟩ := settled_imports_iff.1 h i hi
    exact ⟨n, hn, Name.same_iff.1 hsame⟩
  | some c =>
    have hstep := @passStep_of_plan name? t c (.imports l) trivial h
    simp only [Pass.plan, planImports, Except.ok.injEq] at h
    rw [@importedNames_eq name? t] at h
    split at h
    · cases h
    · obtain rfl := Option.some.inj h
      refine hfills.perm ?_
      have hnodes : ∀ l : List Import, (l.map Import.node).flatMap Slot.imports.inChild =
          l.map Import.name := by
        intro l
        rw [List.flatMap_map]
        exact List.map_eq_flatMap.symm
      rw [← hnodes]
      exact Slot.names_insertNodes hc hstep

/-- All slots but the imports stand under the declaration. -/
theorem Slot.names_of_find {id : Nat} (hs : s ≠ imports) (h : t.findClassLike? name? = some id) :
    s.names name? t = s.namesAt t id := by
  have hown : s.owner? name? t = some id := by
    cases s with
    | imports => exact absurd rfl hs
    | _ => exact h
  rw [names, hown]

/-- A pass for traits fills the traits. -/
theorem fills_traits {names : List String} (hc : t.Closed)
    (h : (Pass.traits name? names).plan t = .ok c?) :
    Fills Name.key (Slot.traits.names name? t) names (Slot.traits.names name? (t.after c?)) := by
  obtain ⟨id, hfound, -, hplan⟩ := planTraits_eq_ok.1 h
  have hused : usedTraits t id = Slot.traits.names name? t := by
    rw [Slot.names_of_find (by simp) hfound]
    rfl
  rw [hused] at hplan
  have hfills := @Fills.missing (Slot.traits.names name? t) String (fun name => name) names
  rw [List.map_id', List.map_id'] at hfills
  split at hplan
  · next hmissing =>
    subst hplan
    rw [List.isEmpty_iff.1 hmissing, List.append_nil] at hfills
    exact hfills
  · subst hplan
    refine hfills.perm ?_
    have hnodes : ∀ l : List String, (traitNodes l).flatMap Slot.traits.inChild = l := by
      intro l
      rw [traitNodes, List.flatMap_map]
      exact List.flatMap_singleton' l
    have hstep := @passStep_of_plan name? t _ (.traits name? names) rfl h
    have hperm := @Slot.names_insertNodes .traits _ _ _ _ _ _ hc hstep
    rwa [hnodes] at hperm

/-- A declaration has a member of a name exactly when its slot has the name. -/
theorem hasMember_iff_names {cat : Category} {name : String} {same : String → Bool} {id : Nat}
    (hs : s.category? = some cat) (hcat : cat.memberRank?.isSome = true) (hs' : s ≠ .traits)
    (hsame : ∀ n, same n = s.same n name) (hfound : t.findClassLike? name? = some id) :
    hasMember t id cat same = true ↔ ∃ n ∈ s.names name? t, s.keyOf n = s.keyOf name := by
  have himports : s ≠ .imports := by
    rintro rfl
    obtain rfl := Option.some.inj hs
    cases hcat
  have hhead : s.inHead (t.node id).kind = [] := by
    cases s with
    | parent | heritage => cases hs
    | _ => rfl
  rw [hasMember_iff, Slot.names_of_find himports hfound, Slot.namesAt, hhead, List.nil_append]
  simp only [List.mem_flatMap, Slot.inChild_eq hs', hs, Tree.HasChild, isMember,
    Bool.and_eq_true, beq_iff_eq, Option.any_eq_true]
  constructor
  · rintro ⟨c, hmem, hc, n, hn, hn'⟩
    refine ⟨n, ⟨c, hmem, ?_⟩, ?_⟩
    · rw [if_pos (by rw [hc]), hn]
      exact List.mem_singleton_self n
    · rw [hsame, s.same_eq] at hn'
      exact eq_of_beq hn'
  · rintro ⟨n, ⟨c, hmem, hn⟩, hkey⟩
    split at hn
    · next hc =>
      refine ⟨c, hmem, (Option.some.inj hc).symm, n, Option.mem_toList.1 hn, ?_⟩
      rw [hsame, s.same_eq, hkey, beq_self_eq_true]
    · cases hn

/-- A pass for a member fills the slot of its form. -/
theorem fills_member {cat : Category} {name : String} {same : String → Bool}
    {realize : Bool → Except Error Node} (hr : Realizes realize cat name)
    (hs : s.category? = some cat) (hcat : cat.memberRank?.isSome = true) (hs' : s ≠ .traits)
    (hsame : ∀ n, same n = s.same n name) (hc : t.Closed)
    (h : planMember t name? cat same realize = .ok c?) :
    Fills s.keyOf (s.names name? t) [name] (s.names name? (t.after c?)) := by
  obtain ⟨id, hfound, hplan⟩ := planMember_eq_ok.1 h
  have hmember := hasMember_iff_names hs hcat hs' hsame hfound
  obtain ⟨hm, rfl⟩ | ⟨hm, n, hn, rfl⟩ := hplan
  · refine .of_known fun w hw => ?_
    rw [List.mem_singleton.1 hw]
    exact hmember.1 hm
  · have hnodes : [n].flatMap s.inChild = [name] := by
      obtain ⟨hform, hname⟩ := hr _ n hn
      rw [List.flatMap_singleton, Slot.inChild_eq hs', if_pos (by rw [hs, hform]), hname]
      rfl
    have hperm := @Slot.names_insertNodes s _ _ _ _ _ _ hc (PassStep.of_planMember hr hcat h)
    rw [hnodes] at hperm
    refine (Fills.single fun m hm' hkey => ?_).perm hperm
    rw [hmember.2 ⟨m, hm', hkey⟩] at hm
    cases hm

/-- A pass for the head of a declaration changes nothing else. -/
theorem head_of_planHead {f : NodeKind → Except Error (Option NodeKind)}
    (hf : ∀ k k', f k = .ok (some k') → HeadGrows k k') (h : planHead t name? f = .ok c?) :
    ∃ id kind?, t.findClassLike? name? = some id ∧ (t.after c?).findClassLike? name? = some id ∧
      f (t.node id).kind = .ok kind? ∧
        ((t.after c?).node id).kind = kind?.getD (t.node id).kind := by
  obtain ⟨id, hfound, kind?, hkind, rfl⟩ := planHead_eq_ok.1 h
  refine ⟨id, kind?, hfound, ?_, hkind, ?_⟩
  · cases kind? with
    | none => exact hfound
    | some kind => exact (findClassLike?_head (hf _ _ hkind)).trans hfound
  · cases kind? with
    | none => rfl
    | some kind =>
      show ((t.modifyNode id fun n => { n with kind }).node id).kind = kind
      rw [Tree.node_modifyNode, if_pos ⟨rfl, lt_of_find hfound⟩]

/-- A pass for the head of a declaration fills its slots as the change of the head does. -/
theorem fills_head {f : NodeKind → Except Error (Option NodeKind)} {wanted : List String}
    (hs : s.category? = none) (hf : ∀ k k', f k = .ok (some k') → HeadGrows k k')
    (hfills : ∀ k kind?, f k = .ok kind? →
      Fills s.keyOf (s.inHead k) wanted (s.inHead (kind?.getD k)))
    (h : planHead t name? f = .ok c?) :
    Fills s.keyOf (s.names name? t) wanted (s.names name? (t.after c?)) := by
  have himports : s ≠ .imports := by
    rintro rfl
    cases hs
  obtain ⟨id, kind?, hfound, hfound', hkind, hnode⟩ := head_of_planHead hf h
  rw [Slot.names_of_find himports hfound, Slot.names_of_find himports hfound',
    Slot.namesAt_of_category? hs, Slot.namesAt_of_category? hs, hnode]
  exact hfills _ _ hkind

/-- Giving a class a parent fills its parent. -/
theorem fills_withParent {parent : String} {k : NodeKind} {kind? : Option NodeKind}
    (hs : s.category? = none) (h : classHead name? (withParent name? parent) k = .ok kind?) :
    Fills s.keyOf (s.inHead k) ((Pass.parent name? parent).wants s) (s.inHead (kind?.getD k)) := by
  cases k with
  | classDecl d =>
    simp only [classHead, withParent] at h
    cases hp : d.parent? with
    | none =>
      simp only [hp, Except.map, Option.map_some, Except.ok.injEq] at h
      subst h
      cases s with
      | parent =>
        show Fills Name.key d.parent?.toList [parent] [parent]
        rw [hp]
        exact Fills.single (List.forall_mem_nil _)
      | heritage => exact .nil
      | _ => cases hs
    | some existing =>
      simp only [hp] at h
      split at h
      · next hsame =>
        obtain rfl := (Except.ok.inj h).symm
        cases s with
        | parent =>
          refine .of_known fun w hw => ⟨existing, ?_, ?_⟩
          · simp [Slot.inHead, NodeKind.extends?, hp]
          · rw [List.mem_singleton.1 hw]
            exact Name.same_iff.1 hsame
        | heritage => exact .nil
        | _ => cases hs
      · cases h
  | _ => cases h

/-- Adding the missing names to those in a head fills them in. -/
theorem fills_appendMissing? {known wanted : List String} :
    Fills Name.key known wanted ((appendMissing? known wanted).getD known) := by
  have hfills := @Fills.missing known String id wanted
  rw [List.map_id, List.map_id] at hfills
  unfold appendMissing?
  dsimp only
  split
  · next hmissing =>
    rw [List.isEmpty_iff.1 hmissing, List.append_nil] at hfills
    exact hfills
  · exact hfills

/-- Giving a class interfaces fills its interfaces. -/
theorem fills_withInterfaces? {names : List String} {k : NodeKind} {kind? : Option NodeKind}
    (hs : s.category? = none)
    (h : classHead name? (fun d => .ok (withInterfaces? names d)) k = .ok kind?) :
    Fills s.keyOf (s.inHead k) ((Pass.interfaces name? names).wants s)
      (s.inHead (kind?.getD k)) := by
  cases k with
  | classDecl d =>
    simp only [classHead, Except.map, Except.ok.injEq] at h
    subst h
    have hfills := @fills_appendMissing? d.interfaces names
    unfold withInterfaces?
    cases s with
    | parent => cases appendMissing? d.interfaces names <;> exact .nil
    | heritage => cases happ : appendMissing? d.interfaces names <;> rwa [happ] at hfills
    | _ => cases hs
  | _ => cases h

/-- Giving an interface parents fills its parents. -/
theorem fills_withParents? {name : String} {names : List String} {k : NodeKind}
    {kind? : Option NodeKind} (hs : s.category? = none)
    (h : interfaceHead name (withParents? names) k = .ok kind?) :
    Fills s.keyOf (s.inHead k) ((Pass.interfaceParents name names).wants s)
      (s.inHead (kind?.getD k)) := by
  cases k with
  | interfaceDecl d =>
    simp only [interfaceHead, Except.ok.injEq] at h
    subst h
    have hfills := @fills_appendMissing? d.parents names
    unfold withParents?
    cases s with
    | parent => cases appendMissing? d.parents names <;> exact .nil
    | heritage => cases happ : appendMissing? d.parents names <;> rwa [happ] at hfills
    | _ => cases hs
  | _ => cases h

/-- A pass fills the slot of its form with its names, and it leaves all others as they are. -/
theorem fills_of_plan {p : Pass} (hp : p.Concerns name?) (hc : t.Closed)
    (h : p.plan t = .ok c?) :
    Fills s.keyOf (s.names name? t) (p.wants s) (s.names name? (t.after c?)) := by
  by_cases hs : p.makes? = s.category?
  · cases p with
    | strictTypes | namespaceDecl | classDecl | interfaceDecl => cases s <;> cases hs
    | imports l =>
      obtain rfl : s = .imports := by cases s <;> first | rfl | cases hs
      exact fills_imports hc h
    | traits class? names =>
      obtain rfl : s = .traits := by cases s <;> first | rfl | cases hs
      subst hp
      exact fills_traits hc h
    | parent class? name =>
      subst hp
      exact fills_head hs.symm (fun _ _ => headGrows_of_withParent)
        (fun _ _ => fills_withParent hs.symm) h
    | interfaces class? names =>
      subst hp
      exact fills_head hs.symm (fun _ _ => headGrows_of_withInterfaces?)
        (fun _ _ => fills_withInterfaces? hs.symm) h
    | interfaceParents name names =>
      subst hp
      exact fills_head hs.symm (fun _ _ => headGrows_of_withParents?)
        (fun _ _ => fills_withParents? hs.symm) h
    | constant class? spec =>
      obtain rfl : s = .constants := by cases s <;> first | rfl | cases hs
      subst hp
      exact fills_member spec.realizes rfl rfl (by simp) (fun _ => rfl) hc h
    | property class? spec =>
      obtain rfl : s = .properties := by cases s <;> first | rfl | cases hs
      subst hp
      exact fills_member spec.realizes rfl rfl (by simp) (fun _ => rfl) hc h
    | method class? spec =>
      obtain rfl : s = .methods := by cases s <;> first | rfl | cases hs
      subst hp
      exact fills_member spec.realizes rfl rfl (by simp) (fun _ => rfl) hc h
  · rw [Pass.wants_eq_nil hs]
    cases c? with
    | none => exact .nil
    | some c => exact Fills.nil.perm (Slot.names_of_step hc (passStep_of_plan hp h) hs)

/-- The parent of the class of a name, if it has one. -/
def Tree.extends? (t : Tree) (name? : Option String) : Option String :=
  (t.findClassLike? name?).bind fun id => (t.node id).kind.extends?

/-- The parent of a class is its slot for parents. -/
theorem toList_extends? : (t.extends? name?).toList = Slot.parent.names name? t := by
  have howner : Slot.parent.owner? name? t = t.findClassLike? name? := rfl
  rw [Slot.names, howner, Tree.extends?]
  cases t.findClassLike? name? with
  | none => rfl
  | some id => exact (Slot.namesAt_of_category? (s := .parent) rfl).symm

/-- A pass for the head of a declaration leaves its parent or gives it one, as the change of the head
does. -/
theorem extends?_head {f : NodeKind → Except Error (Option NodeKind)} {wanted? : Option String}
    (hf : ∀ k k', f k = .ok (some k') → HeadGrows k k')
    (hext : ∀ k kind?, f k = .ok kind? → (kind?.getD k).extends? = k.extends?.or wanted?)
    (h : planHead t name? f = .ok c?) :
    (t.after c?).extends? name? = (t.extends? name?).or wanted? := by
  obtain ⟨id, kind?, hfound, hfound', hkind, hnode⟩ := head_of_planHead hf h
  rw [Tree.extends?, Tree.extends?, hfound, hfound', Option.bind_some, Option.bind_some, hnode]
  exact hext _ _ hkind

/-- A class that has a parent keeps it, and one that has none is given the parent that is wanted. -/
theorem extends?_of_plan {p : Pass} (hp : p.Concerns name?) (hc : t.Closed)
    (h : p.plan t = .ok c?) :
    (t.after c?).extends? name? = (t.extends? name?).or (p.wants .parent).head? := by
  by_cases hs : p.makes? = none
  · cases p with
    | parent class? name =>
      subst hp
      refine extends?_head (fun _ _ => headGrows_of_withParent) (fun k kind? hk => ?_) h
      cases k with
      | classDecl d =>
        simp only [classHead, withParent] at hk
        cases hpar : d.parent? with
        | none =>
          simp only [hpar, Except.map, Option.map_some, Except.ok.injEq] at hk
          subst hk
          show some name = d.parent?.or (some name)
          rw [hpar, Option.none_or]
        | some existing =>
          simp only [hpar] at hk
          split at hk
          · obtain rfl := (Except.ok.inj hk).symm
            show d.parent? = d.parent?.or (some name)
            rw [hpar, Option.some_or]
          · cases hk
      | _ => cases hk
    | interfaces class? names =>
      subst hp
      refine extends?_head (fun _ _ => headGrows_of_withInterfaces?) (fun k kind? hk => ?_) h
      cases k with
      | classDecl d =>
        simp only [classHead, Except.map, Except.ok.injEq, withInterfaces?] at hk
        subst hk
        cases appendMissing? d.interfaces names <;> exact Option.or_none.symm
      | _ => cases hk
    | interfaceParents name names =>
      subst hp
      refine extends?_head (fun _ _ => headGrows_of_withParents?) (fun k kind? hk => ?_) h
      cases k with
      | interfaceDecl d =>
        simp only [interfaceHead, Except.ok.injEq, withParents?] at hk
        subst hk
        cases appendMissing? d.parents names <;> rfl
      | _ => cases hk
    | _ => cases hs
  · have hwants : p.wants .parent = [] := Pass.wants_eq_nil hs
    rw [hwants, List.head?_nil, Option.or_none]
    cases c? with
    | none => rfl
    | some c =>
      have hperm := Slot.names_of_step (s := .parent) hc (passStep_of_plan hp h) hs
      rw [← toList_extends?, ← toList_extends?] at hperm
      show (c.apply t).extends? name? = t.extends? name?
      cases hnew : (c.apply t).extends? name? <;> cases hold : t.extends? name? <;>
        simp_all

end Plan

/-! ## Runs -/

namespace Pipeline

variable {name? : Option String} {ps : Pipeline} {t t' : Tree} {s : Slot}

/-- A pass that succeeds leaves a closed tree. -/
theorem closed_of_plan {p : Pass} {c? : Option Change} (hp : p.Concerns name?) (hc : t.Closed)
    (h : p.plan t = .ok c?) : (t.after c?).Closed := by
  cases c? with
  | none => exact hc
  | some c => exact Slot.closed_of_step hc (passStep_of_plan hp h)

/-- A run that succeeds fills every slot with the names that its passes want there. -/
theorem Leads.fills (hps : ∀ p ∈ ps, p.Concerns name?) (hc : t.Closed) (h : Leads ps t t') :
    Fills s.keyOf (s.names name? t) (ps.flatMap (·.wants s)) (s.names name? t') := by
  induction ps generalizing t with
  | nil =>
    rw [leads_nil.1 h]
    exact .nil
  | cons p ps ih =>
    obtain ⟨c?, hplan, hrest⟩ := leads_cons.1 h
    rw [List.forall_mem_cons] at hps
    rw [List.flatMap_cons]
    exact (fills_of_plan hps.1 hc hplan).trans
      (ih hps.2 (closed_of_plan hps.1 hc hplan) hrest)

/-- After a run that succeeds, the parent of a class is the old one, or else the first one that a
pass wants. -/
theorem Leads.extends?_eq (hps : ∀ p ∈ ps, p.Concerns name?) (hc : t.Closed)
    (h : Leads ps t t') :
    t'.extends? name? = (t.extends? name?).or (ps.flatMap (·.wants .parent)).head? := by
  induction ps generalizing t with
  | nil =>
    rw [leads_nil.1 h]
    exact Option.or_none.symm
  | cons p ps ih =>
    obtain ⟨c?, hplan, hrest⟩ := leads_cons.1 h
    rw [List.forall_mem_cons] at hps
    rw [ih hps.2 (closed_of_plan hps.1 hc hplan) hrest, extends?_of_plan hps.1 hc hplan,
      Option.or_assoc, List.flatMap_cons, List.head?_append]

end Pipeline

end PhpGraft

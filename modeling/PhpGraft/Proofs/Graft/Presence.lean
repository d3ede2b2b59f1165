import PhpGraft.Proofs.Graft.Idempotence
import PhpGraft.Proofs.Graft.Realization

/-!
# When a declaration is there

A run of the passes of a declaration changes nothing exactly when the file has all that the
declaration holds, at the places where the passes look for it (`Declaration.unchanged_iff`): the
directive for strict types stands among the statements of the file, a namespace is there if one is
asked for, the declaration of the name is there, and every name that the declaration holds is found
in its slot. A parent, interfaces and traits are found in a declaration of the same form only
(`Slot.Offers`).
-/

namespace PhpGraft

open Edit

/-- Whether a slot is one of classes only, or one of interfaces only. -/
def Slot.bindsForm : Slot → Bool
  | parent | heritage | traits => true
  | imports | constants | properties | methods => false

/-- Whether a slot of a file has a name; if it is one of declarations of one form only, then the
declaration has to be of the given form. -/
def Slot.Offers (s : Slot) (form : Category) (name? : Option String) (t : Tree) (w : String) : Prop :=
  (s.bindsForm = true → ∃ id, t.findClassLike? name? = some id ∧ t.category id = form) ∧
    ∃ n ∈ s.names name? t, s.same n w = true

/-- The form of the declarations that a pass is meant for, if it is meant for one form only. -/
def Pass.form? : Pass → Option Category
  | parent _ _ | interfaces _ _ | traits _ _ => some .classDecl
  | interfaceParents _ _ => some .interfaceDecl
  | _ => none

section Passes

variable {name? : Option String} {t : Tree} {p : Pass} {form : Category}

/-- A pass that wants names of one slot only. -/
theorem forall_wants_iff {slot : Slot} {l : List String} {Q : Slot → String → Prop}
    (h : ∀ s, p.wants s = if s = slot then l else []) :
    (∀ s, ∀ w ∈ p.wants s, Q s w) ↔ ∀ w ∈ l, Q slot w := by
  constructor
  · intro hall w hw
    refine hall slot w ?_
    rwa [h, if_pos rfl]
  · intro hall s w hw
    rw [h] at hw
    split at hw
    · next hs => exact hs ▸ hall w hw
    · cases hw

/-- A pass for a part of a class finds it, or one for a part of an interface does. -/
theorem settled_head_iff {f : NodeKind → Except Error (Option NodeKind)} :
    planHead t name? f = .ok none ↔
      ∃ id, t.findClassLike? name? = some id ∧ f (t.node id).kind = .ok none := by
  rw [planHead_eq_ok]
  refine exists_congr fun id => and_congr_right fun _ => ?_
  constructor
  · rintro ⟨kind?, hkind, hnone⟩
    rwa [← Option.map_eq_none_iff.1 hnone.symm]
  · intro h
    exact ⟨none, h, rfl⟩

/-- A slot without a declaration has no names. -/
theorem isSome_find_of_names {s : Slot} {n : String} (hs : s ≠ .imports) (h : n ∈ s.names name? t) :
    ∃ id, t.findClassLike? name? = some id := by
  rw [← Option.isSome_iff_exists]
  by_contra hnone
  have hown : s.owner? name? t = none := by
    cases s with
    | imports => exact absurd rfl hs
    | _ => exact Option.not_isSome_iff_eq_none.1 hnone
  rw [Slot.names, hown] at h
  cases h

/-- A pass for a member is settled when its slot has the name. -/
theorem settled_member_iff {s : Slot} {c : Category} {same : String → Bool} {w : String}
    {realize : Bool → Except Error Node} (hs : s.category? = some c)
    (hcat : c.memberRank?.isSome = true) (hs' : s ≠ .traits) (hsame : ∀ n, same n = s.same n w) :
    planMember t name? c same realize = .ok none ↔ ∃ n ∈ s.names name? t, s.same n w = true := by
  have himports : s ≠ .imports := by
    rintro rfl
    obtain rfl := Option.some.inj hs
    cases hcat
  have hkey : (∃ n ∈ s.names name? t, s.same n w = true) ↔
      ∃ n ∈ s.names name? t, s.keyOf n = s.keyOf w := by
    simp only [s.same_eq, beq_iff_eq]
  rw [planMember_eq_ok, hkey]
  constructor
  · rintro ⟨id, hfound, ⟨hm, -⟩ | ⟨-, n, -, hc⟩⟩
    · exact (hasMember_iff_names hs hcat hs' hsame hfound).1 hm
    · cases hc
  · rintro ⟨n, hn, hnw⟩
    obtain ⟨id, hfound⟩ := isSome_find_of_names himports hn
    exact ⟨id, hfound, .inl ⟨(hasMember_iff_names hs hcat hs' hsame hfound).2 ⟨n, hn, hnw⟩, rfl⟩⟩

/-- A pass for names in the head of a declaration is settled when the slot offers them. -/
theorem settled_names_iff {s : Slot} {f : NodeKind → Except Error (Option NodeKind)}
    {names : List String} (hs : s.category? = none)
    (hf : ∀ k : NodeKind, f k = .ok none ↔
      k.category = form ∧ ∀ w ∈ names, ∃ n ∈ s.inHead k, s.same n w = true)
    (hne : names ≠ []) :
    planHead t name? f = .ok none ↔ ∀ w ∈ names, s.Offers form name? t w := by
  have himports : s ≠ .imports := by
    rintro rfl
    cases hs
  have hbinds : s.bindsForm = true := by
    cases s <;> first | rfl | cases hs
  rw [settled_head_iff]
  constructor
  · rintro ⟨id, hfound, hid⟩ w hw
    obtain ⟨hcat, hall⟩ := (hf _).1 hid
    refine ⟨fun _ => ⟨id, hfound, hcat⟩, ?_⟩
    rw [Slot.names_of_find himports hfound, Slot.namesAt_of_category? hs]
    exact hall w hw
  · intro hall
    obtain ⟨w, hw⟩ := List.exists_mem_of_ne_nil names hne
    obtain ⟨id, hfound, hcat⟩ := (hall w hw).1 hbinds
    refine ⟨id, hfound, (hf _).2 ⟨hcat, fun w hw => ?_⟩⟩
    have hoffer := (hall w hw).2
    rwa [Slot.names_of_find himports hfound, Slot.namesAt_of_category? hs] at hoffer

/-- A class is not given the parent that it has. -/
theorem classHead_withParent_iff {class? : Option String} {parent : String} {k : NodeKind} :
    classHead class? (withParent class? parent) k = .ok none ↔
      k.category = .classDecl ∧
        ∀ w ∈ [parent], ∃ n ∈ Slot.parent.inHead k, Slot.parent.same n w = true := by
  rw [List.forall_mem_singleton]
  cases k with
  | classDecl d =>
    simp only [classHead, withParent, NodeKind.category, Slot.inHead, NodeKind.extends?, true_and]
    cases d.parent? with
    | none => simp [Except.map]
    | some existing =>
      rw [Option.toList_some]
      cases hsame : Name.same existing parent <;> simp [hsame, Except.map, Slot.same]
  | _ => simp [classHead, NodeKind.category]

/-- A class is not given interfaces that it has. -/
theorem classHead_withInterfaces_iff {class? : Option String} {names : List String}
    {k : NodeKind} :
    classHead class? (fun d => .ok (withInterfaces? names d)) k = .ok none ↔
      k.category = .classDecl ∧
        ∀ w ∈ names, ∃ n ∈ Slot.heritage.inHead k, Slot.heritage.same n w = true := by
  cases k with
  | classDecl d =>
    have hmissing := @Name.missing_eq_nil_iff String id d.interfaces names
    rw [← appendMissing?_eq_none] at hmissing
    simp only [classHead, Except.map, Except.ok.injEq, Option.map_eq_none_iff, withInterfaces?,
      hmissing]
    exact (and_iff_right rfl).symm
  | _ => simp [classHead, NodeKind.category]

/-- An interface is not given parents that it has. -/
theorem interfaceHead_withParents_iff {name : String} {names : List String} {k : NodeKind} :
    interfaceHead name (withParents? names) k = .ok none ↔
      k.category = .interfaceDecl ∧
        ∀ w ∈ names, ∃ n ∈ Slot.heritage.inHead k, Slot.heritage.same n w = true := by
  cases k with
  | interfaceDecl d =>
    have hmissing := @Name.missing_eq_nil_iff String id d.parents names
    rw [← appendMissing?_eq_none] at hmissing
    simp only [interfaceHead, Except.ok.injEq, Option.map_eq_none_iff, withParents?, hmissing]
    exact (and_iff_right rfl).symm
  | _ => simp [interfaceHead, NodeKind.category]

/-- A pass finds what it looks for exactly when the slots offer it. -/
theorem settled_iff_offers (hp : p.Concerns name?) (hform : ∀ c, p.form? = some c → c = form)
    (hwants : ∃ s w, w ∈ p.wants s) :
    p.Settled t ↔ ∀ s, ∀ w ∈ p.wants s, s.Offers form name? t w := by
  cases p with
  | imports l =>
    rw [@forall_wants_iff _ .imports (l.map Import.name) _ fun s => by cases s <;> rfl,
      settled_imports_iff, List.forall_mem_map, @importedNames_eq name?]
    exact forall₂_congr fun _ _ => (and_iff_right fun h => by cases h).symm
  | parent class? name =>
    subst hp
    obtain rfl := hform _ rfl
    rw [@forall_wants_iff _ .parent [name] _ fun s => by cases s <;> rfl]
    exact settled_names_iff rfl (fun _ => classHead_withParent_iff) (by simp)
  | interfaces class? names =>
    subst hp
    obtain rfl := hform _ rfl
    rw [@forall_wants_iff _ .heritage names _ fun s => by cases s <;> rfl]
    refine settled_names_iff rfl (fun _ => classHead_withInterfaces_iff) ?_
    rintro rfl
    obtain ⟨s, w, hw⟩ := hwants
    cases s <;> cases hw
  | interfaceParents name names =>
    subst hp
    obtain rfl := hform _ rfl
    rw [@forall_wants_iff _ .heritage names _ fun s => by cases s <;> rfl]
    refine settled_names_iff rfl (fun _ => interfaceHead_withParents_iff) ?_
    rintro rfl
    obtain ⟨s, w, hw⟩ := hwants
    cases s <;> cases hw
  | traits class? names =>
    subst hp
    obtain rfl := hform _ rfl
    rw [@forall_wants_iff _ .traits names _ fun s => by cases s <;> rfl, settled_traits_iff]
    have hnames : ∀ id, t.findClassLike? class? = some id →
        usedTraits t id = Slot.traits.names class? t := fun id hfound =>
      (@Slot.names_of_find class? t .traits id (by decide) hfound).symm
    constructor
    · rintro ⟨id, hfound, hcat, hall⟩ w hw
      rw [hnames id hfound] at hall
      exact ⟨fun _ => ⟨id, hfound, hcat⟩, hall w hw⟩
    · intro hall
      obtain ⟨s, w, hw⟩ := hwants
      have hne : ∃ w, w ∈ names := by
        cases s <;> first | exact ⟨w, hw⟩ | cases hw
      obtain ⟨w, hw⟩ := hne
      obtain ⟨id, hfound, hcat⟩ := (hall w hw).1 rfl
      refine ⟨id, hfound, hcat, ?_⟩
      rw [hnames id hfound]
      exact fun w hw => (hall w hw).2
  | constant class? spec =>
    subst hp
    rw [@forall_wants_iff _ .constants [spec.name] _ fun s => by cases s <;> rfl,
      List.forall_mem_singleton, Pass.Settled, Pass.plan,
      @settled_member_iff class? t .constants .constDecl (· == spec.name) spec.name _ rfl rfl
        (by decide) fun _ => rfl]
    exact (and_iff_right fun h => by cases h).symm
  | property class? spec =>
    subst hp
    rw [@forall_wants_iff _ .properties [spec.name] _ fun s => by cases s <;> rfl,
      List.forall_mem_singleton, Pass.Settled, Pass.plan,
      @settled_member_iff class? t .properties .propertyDecl (· == spec.name) spec.name _ rfl rfl
        (by decide) fun _ => rfl]
    exact (and_iff_right fun h => by cases h).symm
  | method class? spec =>
    subst hp
    rw [@forall_wants_iff _ .methods [spec.name] _ fun s => by cases s <;> rfl,
      List.forall_mem_singleton, Pass.Settled, Pass.plan,
      @settled_member_iff class? t .methods .methodDecl (Text.eqIgnoreCase · spec.name) spec.name _ rfl rfl
        (by decide) fun _ => rfl]
    exact (and_iff_right fun h => by cases h).symm
  | _ =>
    obtain ⟨s, w, hw⟩ := hwants
    cases s <;> cases hw

end Passes

namespace Declaration

variable {d : Declaration} {t : Tree} {p : Pass}

/-- The form of a declaration. -/
def form : Declaration → Category
  | ofClass _ => .classDecl
  | ofInterface _ => .interfaceDecl

/-- The names of a slot that the passes of a declaration look for. -/
def wants (d : Declaration) (s : Slot) : List String := d.passes.flatMap (·.wants s)

/-- A pass for the items of a map is run only if there are some, and then it looks for their names. -/
theorem mem_unless_isEmpty {α : Type} [Keyed α] {m : NameMap α} {p q : Pass} {slot : Slot}
    (hq : q.wants slot = m.names) (hp : p ∈ if m.isEmpty then [] else [q]) :
    p = q ∧ ∃ s w, w ∈ p.wants s := by
  split at hp
  · cases hp
  · next hne =>
    obtain rfl := List.mem_singleton.1 hp
    refine ⟨rfl, slot, ?_⟩
    rw [hq]
    exact List.exists_mem_of_ne_nil _ fun hnil => hne (List.isEmpty_iff.2 (List.map_eq_nil_iff.1 hnil))

/-- The passes for what belongs to a declaration look for names, in a declaration of its form if they
depend on the form. -/
theorem wants_of_mem_details (hp : p ∈ d.details) :
    (∃ s w, w ∈ p.wants s) ∧ ∀ c, p.form? = some c → c = d.form := by
  cases d with
  | ofClass c =>
    simp only [details, List.mem_append] at hp
    rcases hp with ((((hp | hp) | hp) | hp) | hp) | hp
    · obtain ⟨name, -, rfl⟩ := Option.map_eq_some_iff.1 (Option.mem_toList.1 hp)
      exact ⟨⟨.parent, name, List.mem_singleton_self _⟩, fun _ h => (Option.some.inj h).symm⟩
    · obtain ⟨rfl, hwants⟩ := @mem_unless_isEmpty _ _ _ _ _ .heritage rfl hp
      exact ⟨hwants, fun _ h => (Option.some.inj h).symm⟩
    · obtain ⟨rfl, hwants⟩ := @mem_unless_isEmpty _ _ _ _ _ .traits rfl hp
      exact ⟨hwants, fun _ h => (Option.some.inj h).symm⟩
    · obtain ⟨spec, -, rfl⟩ := List.mem_map.1 hp
      exact ⟨⟨.constants, spec.name, List.mem_singleton_self _⟩, fun _ h => by cases h⟩
    · obtain ⟨spec, -, rfl⟩ := List.mem_map.1 hp
      exact ⟨⟨.properties, spec.name, List.mem_singleton_self _⟩, fun _ h => by cases h⟩
    · obtain ⟨spec, -, rfl⟩ := List.mem_map.1 hp
      exact ⟨⟨.methods, spec.name, List.mem_singleton_self _⟩, fun _ h => by cases h⟩
  | ofInterface i =>
    simp only [details, List.mem_append] at hp
    rcases hp with (hp | hp) | hp
    · obtain ⟨rfl, hwants⟩ := @mem_unless_isEmpty _ _ _ _ _ .heritage rfl hp
      exact ⟨hwants, fun _ h => (Option.some.inj h).symm⟩
    · obtain ⟨spec, -, rfl⟩ := List.mem_map.1 hp
      exact ⟨⟨.constants, spec.name, List.mem_singleton_self _⟩, fun _ h => by cases h⟩
    · obtain ⟨spec, -, rfl⟩ := List.mem_map.1 hp
      exact ⟨⟨.methods, spec.name, List.mem_singleton_self _⟩, fun _ h => by cases h⟩

/-- The pass for the declaration itself is settled when the declaration is there. -/
theorem settled_declares : d.declares.Settled t ↔ (t.findClassLike? d.name?).isSome = true := by
  have hplan : ∀ {name? kind doc? attributes},
      planDeclaration t name? kind doc? attributes = .ok none ↔
        (t.findClassLike? name?).isSome = true := by
    intro name? kind doc? attributes
    rw [planDeclaration_eq_ok]
    constructor
    · rintro (⟨hsome, -⟩ | ⟨-, _, -, hc⟩)
      · exact hsome
      · cases hc
    · exact fun hsome => .inl ⟨hsome, rfl⟩
  cases d with
  | ofClass c => exact hplan
  | ofInterface i => exact hplan

/-- A run of the passes of a declaration changes nothing exactly when the file has what they look
for. -/
theorem unchanged_iff (d : Declaration) (t : Tree) :
    d.passes.Unchanged t ↔
      (d.parts.strict = true → t.HasChild Tree.root isStrictDirective) ∧
        (d.parts.scope?.isSome = true → t.namespace?.isSome = true) ∧
        (t.findClassLike? d.name?).isSome = true ∧
        ∀ s, ∀ w ∈ d.wants s, s.Offers d.form d.name? t w := by
  have hstrict : (∀ p ∈ if d.parts.strict then [Pass.strictTypes] else [], p.Settled t) ↔
      (d.parts.strict = true → t.HasChild Tree.root isStrictDirective) := by
    rw [← isSome_findChild?]
    cases d.parts.strict with
    | false => simp
    | true =>
      simp only [if_true, List.forall_mem_singleton, Pass.Settled, Pass.plan, forall_const]
      cases (t.findChild? Tree.root isStrictDirective).isSome <;> simp
  have hscope : (∀ p ∈ (d.parts.scope?.map Pass.namespaceDecl).toList, p.Settled t) ↔
      (d.parts.scope?.isSome = true → t.namespace?.isSome = true) := by
    cases d.parts.scope? with
    | none => simp
    | some name =>
      simp only [Option.map_some, Option.toList_some, List.forall_mem_singleton, Pass.Settled,
        Pass.plan, Option.isSome_some, forall_const]
      cases t.namespace?.isSome <;> simp
  have hoffers : ∀ ps : Pipeline, (∀ p ∈ ps, p.Concerns d.name?) →
      (∀ p ∈ ps, (∃ s w, w ∈ p.wants s) ∧ ∀ c, p.form? = some c → c = d.form) →
      ((∀ p ∈ ps, p.Settled t) ↔
        ∀ p ∈ ps, ∀ s, ∀ w ∈ p.wants s, s.Offers d.form d.name? t w) :=
    fun ps hps hwants => forall₂_congr fun p hp =>
      settled_iff_offers (hps p hp) (hwants p hp).2 (hwants p hp).1
  have himports := hoffers d.importPasses
    (fun p hp => d.concerns_inner p (List.mem_append_left _ hp)) fun p hp => by
      obtain ⟨rfl, hwants⟩ := @mem_unless_isEmpty _ _ _ _ _ .imports rfl hp
      exact ⟨hwants, fun _ h => by cases h⟩
  have hdetails := hoffers d.details
    (fun p hp => d.concerns_inner p (List.mem_append_right _ (List.mem_cons_of_mem _ hp)))
    fun p => wants_of_mem_details
  have hwants : (∀ s, ∀ w ∈ d.wants s, s.Offers d.form d.name? t w) ↔
      ∀ p ∈ d.passes, ∀ s, ∀ w ∈ p.wants s, s.Offers d.form d.name? t w := by
    simp only [wants, List.mem_flatMap]
    constructor
    · exact fun h p hp s w hw => h s w ⟨p, hp, hw⟩
    · rintro h s w ⟨p, hp, hw⟩
      exact h p hp s w hw
  -- The other passes look for no names.
  have hnone : ∀ p : Pass, p = .strictTypes ∨ (∃ name, p = .namespaceDecl name) ∨ p = d.declares →
      ∀ s, ∀ w ∈ p.wants s, s.Offers d.form d.name? t w := by
    intro p hp s w hw
    rcases hp with rfl | ⟨name, rfl⟩ | rfl
    · cases s <;> cases hw
    · cases s <;> cases hw
    · cases d <;> cases s <;> cases hw
  have hopening : ∀ p ∈ (if d.parts.strict then [Pass.strictTypes] else []) ++
      (d.parts.scope?.map Pass.namespaceDecl).toList,
      ∀ s, ∀ w ∈ p.wants s, s.Offers d.form d.name? t w := by
    intro p hp
    rcases List.mem_append.1 hp with hp | hp
    · split at hp
      · exact hnone p (.inl (List.mem_singleton.1 hp))
      · cases hp
    · obtain ⟨name, -, rfl⟩ := Option.map_eq_some_iff.1 (Option.mem_toList.1 hp)
      exact hnone _ (.inr (.inl ⟨name, rfl⟩))
  rw [List.forall_mem_append] at hopening
  rw [Pipeline.unchanged_iff_settled, hwants, passes_eq, inner]
  simp only [List.forall_mem_append, List.forall_mem_cons, hstrict, hscope, himports, hdetails,
    settled_declares]
  constructor
  · rintro ⟨hs, hns, himp, hfound, hdet⟩
    exact ⟨hs, hns, hfound, hopening.1, hopening.2, himp, hnone _ (.inr (.inr rfl)), hdet⟩
  · rintro ⟨hs, hns, hfound, -, -, himp, -, hdet⟩
    exact ⟨hs, hns, himp, hfound, hdet⟩

end Declaration

end PhpGraft

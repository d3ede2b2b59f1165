import PhpGraft.Proofs.Graft.Conservation
import PhpGraft.Proofs.Graft.Increment
import PhpGraft.Proofs.Graft.Presence

/-!
# How far a run comes

A run goes on behind its first part if that succeeds, and stops where it fails
(`Pipeline.snd_on_run_append`). A pass for a part of a class fails where the declaration of the name is
none (`category_of_plan`), and a pass for a member succeeds if the member is there or can be realized
(`exists_planMember_iff`); so it is known from a file which constants a run comes past
(`leads_constants_iff`).
-/

namespace PhpGraft

open Edit

/-! ## What a run that succeeds keeps -/

/-- A name is there after names were filled in if it was there, or if it is one of them. -/
theorem Fills.exists_iff {keyOf : String → String} {known wanted result : List String}
    (h : Fills keyOf known wanted result) (k : String) :
    (∃ n ∈ result, keyOf n = k) ↔ (∃ n ∈ known, keyOf n = k) ∨ ∃ w ∈ wanted, keyOf w = k := by
  have hcount (l : List String) : (∃ n ∈ l, keyOf n = k) ↔ 0 < l.countP (keyOf · == k) := by
    simp [List.countP_pos_iff]
  have hwanted : (∃ w ∈ wanted, keyOf w = k) ↔ wanted.any (keyOf · == k) = true := by simp
  rw [hcount, hcount, hwanted, h k]
  by_cases hknown : 0 < known.countP (keyOf · == k)
  · rw [if_pos hknown, or_iff_left_of_imp fun _ => hknown]
  · rw [if_neg hknown, or_iff_right hknown]
    cases wanted.any (keyOf · == k) <;> simp

/-- A run keeps the form of a stored node. -/
theorem GrowsWrapped.category_eq {name? : Option String} {t t' : Tree} {id : Nat}
    (h : GrowsWrapped name? t t') (hid : id < t.cells.size) : t'.category id = t.category id := by
  rcases h.node hid with he | ⟨-, hnode⟩
  · rw [Tree.category, he, Tree.category]
  · exact hnode.category_eq

/-- What a run that succeeds does to a tree. -/
theorem Pipeline.Leads.growsWrapped {name? : Option String} {ps : Pipeline} {t t' : Tree}
    (hps : ∀ p ∈ ps, p.Concerns name?) (h : ps.Leads t t') : GrowsWrapped name? t t' := by
  obtain ⟨records, hrun⟩ := h
  have hgrows := growsWrapped_run hps t
  rwa [hrun] at hgrows

/-- A run that succeeds leaves a closed tree. -/
theorem Pipeline.Leads.closed {name? : Option String} {ps : Pipeline} {t t' : Tree}
    (hps : ∀ p ∈ ps, p.Concerns name?) (hc : t.Closed) (h : ps.Leads t t') : t'.Closed :=
  h.induction (fun p hp _ _ hc hplan => Slot.closed_of_step hc (passStep_of_plan (hps p hp) hplan)) hc

/-- A run that succeeds keeps the declaration of a name. -/
theorem Pipeline.Leads.found {name? : Option String} {ps : Pipeline} {t t' : Tree} {id : Nat}
    (hps : ∀ p ∈ ps, p.Concerns name?) (h : ps.Leads t t') (hfound : t.findClassLike? name? = some id) :
    t'.findClassLike? name? = some id ∧ t'.category id = t.category id :=
  ⟨(h.growsWrapped hps).find hfound, (h.growsWrapped hps).category_eq (lt_of_find hfound)⟩

/-- A run whose passes add to other slots keeps the names of a slot. -/
theorem Pipeline.Leads.exists_names_iff {name? : Option String} {ps : Pipeline} {t t' : Tree} {s : Slot}
    (hps : ∀ p ∈ ps, p.Concerns name?) (hmakes : ∀ p ∈ ps, p.makes? ≠ s.category?) (hc : t.Closed)
    (h : ps.Leads t t') (k : String) :
    (∃ n ∈ s.names name? t', s.keyOf n = k) ↔ ∃ n ∈ s.names name? t, s.keyOf n = k := by
  have hwants : ps.flatMap (·.wants s) = [] :=
    List.flatMap_eq_nil_iff.2 fun p hp => Pass.wants_eq_nil (hmakes p hp)
  rw [(h.fills (s := s) hps hc).exists_iff k, hwants]
  simp

/-! ## Runs in two parts -/

namespace Pipeline

variable {name? : Option String} {ps qs : Pipeline} {t t' : Tree} {id : Nat}

/-- A run goes on behind its first part, unless that failed. -/
theorem snd_on_run_append (ps qs : Pipeline) (t : Tree) :
    ((run (ps ++ qs)).on t).2 =
      match (run ps).on t with
      | (.ok _, s) => ((run qs).on s).2
      | (.error _, s) => s := by
  induction ps generalizing t with
  | nil => rfl
  | cons p ps ih =>
    rw [List.cons_append, on_run_cons, on_run_cons]
    cases p.plan t with
    | error e => rfl
    | ok c? =>
      have ih := ih (t.after c?)
      dsimp only
      rcases hall : (run (ps ++ qs)).on (t.after c?) with ⟨_ | _, _⟩ <;>
        rcases hfirst : (run ps).on (t.after c?) with ⟨_ | _, _⟩ <;>
          rw [hall, hfirst] at ih <;> exact ih

/-- A run goes on behind its first part, if that succeeds. -/
theorem Leads.snd_on_run_append (h : ps.Leads t t') :
    ((run (ps ++ qs)).on t).2 = ((run qs).on t').2 := by
  obtain ⟨records, hrun⟩ := h
  rw [Pipeline.snd_on_run_append, hrun]

/-- A run stops where its first part fails. -/
theorem snd_on_run_append_of_not_leads (h : ∀ s, ¬ps.Leads t s) :
    ((run (ps ++ qs)).on t).2 = ((run ps).on t).2 := by
  rw [Pipeline.snd_on_run_append]
  rcases hrun : (run ps).on t with ⟨e | records, s⟩
  · rfl
  · exact absurd ⟨records, hrun⟩ (h s)

/-- Passes that find their elements leave the tree as it is. -/
theorem leads_of_settled (h : ∀ p ∈ ps, p.Settled t) : ps.Leads t t := by
  induction ps with
  | nil => exact leads_nil.2 rfl
  | cons p ps ih =>
    rw [List.forall_mem_cons] at h
    exact leads_cons.2 ⟨none, h.1, ih h.2⟩

/-- A run succeeds if all its passes do where the declaration is there. -/
theorem exists_leads (hps : ∀ p ∈ ps, p.Concerns name?) (hfound : t.findClassLike? name? = some id)
    (h : ∀ p ∈ ps, ∀ s : Tree, s.findClassLike? name? = some id → ∃ c?, p.plan s = .ok c?) :
    ∃ s, ps.Leads t s := by
  induction ps generalizing t with
  | nil => exact ⟨t, leads_nil.2 rfl⟩
  | cons p ps ih =>
    rw [List.forall_mem_cons] at hps h
    obtain ⟨c?, hplan⟩ := h.1 t hfound
    have hfirst : Leads [p] t (t.after c?) := leads_singleton.2 ⟨c?, hplan, rfl⟩
    obtain ⟨hafter, -⟩ := hfirst.found (List.forall_mem_singleton.2 hps.1) hfound
    obtain ⟨s, hs⟩ := ih hps.2 hafter h.2
    exact ⟨s, leads_cons.2 ⟨c?, hplan, hs⟩⟩

end Pipeline

/-! ## Which passes succeed -/

/-- A pass for a part of a class fails where the declaration is no class, and likewise for interfaces. -/
theorem category_of_plan {name? : Option String} {p : Pass} {t : Tree} {form : Category} {c? : Option Change}
    (hp : p.Concerns name?) (hform : p.form? = some form) (h : p.plan t = .ok c?) :
    ∃ id, t.findClassLike? name? = some id ∧ t.category id = form := by
  have hhead {f : NodeKind → Except Error (Option NodeKind)}
      (hf : ∀ k kind?, f k = .ok kind? → k.category = form) (hplan : planHead t name? f = .ok c?) :
      ∃ id, t.findClassLike? name? = some id ∧ t.category id = form := by
    obtain ⟨id, hfound, kind?, hkind, -⟩ := planHead_eq_ok.1 hplan
    exact ⟨id, hfound, hf _ _ hkind⟩
  cases p with
  | traits class? names =>
    subst hp
    obtain ⟨id, hfound, hclass, -⟩ := planTraits_eq_ok.1 h
    exact ⟨id, hfound, hclass.trans (Option.some.inj hform)⟩
  | parent class? name | interfaces class? names =>
    subst hp
    refine hhead (fun k kind? hk => ?_) h
    cases k <;> first | exact Option.some.inj hform | cases hk
  | interfaceParents name names =>
    subst hp
    refine hhead (fun k kind? hk => ?_) h
    cases k <;> first | exact Option.some.inj hform | cases hk
  | _ => cases hform

section Member

variable {name? : Option String} {t : Tree} {id : Nat}

/-- A pass for a member of a declaration succeeds if the member is there or can be realized. -/
theorem exists_planMember_iff {slot : Slot} {form : Category} {same : String → Bool} {w : String}
    {realize : Bool → Except Error Node} (hs : slot.category? = some form)
    (hform : form.memberRank?.isSome = true) (hs' : slot ≠ .traits) (hsame : ∀ n, same n = slot.same n w)
    (hfound : t.findClassLike? name? = some id) :
    (∃ c?, planMember t name? form same realize = .ok c?) ↔
      (∃ n ∈ slot.names name? t, slot.keyOf n = slot.keyOf w) ∨
        ∃ n, realize (t.category id == .interfaceDecl) = .ok n := by
  rw [← hasMember_iff_names hs hform hs' hsame hfound]
  constructor
  · rintro ⟨c?, hplan⟩
    obtain ⟨id', hfound', ⟨hhas, -⟩ | ⟨-, n, hn, -⟩⟩ := planMember_eq_ok.1 hplan
    · rw [hfound] at hfound'
      cases hfound'
      exact .inl hhas
    · rw [hfound] at hfound'
      cases hfound'
      exact .inr ⟨n, hn⟩
  · intro h
    cases hhas : hasMember t id form same with
    | true => exact ⟨none, planMember_eq_ok.2 ⟨id, hfound, .inl ⟨hhas, rfl⟩⟩⟩
    | false =>
      obtain ⟨n, hn⟩ := h.resolve_left (by rw [hhas]; exact Bool.false_ne_true)
      exact ⟨_, planMember_eq_ok.2 ⟨id, hfound, .inr ⟨hhas, n, hn, rfl⟩⟩⟩

/-- A pass for a constant succeeds if the constant is there or can be realized. -/
theorem exists_plan_constant_iff {k : ConstSpec} (hfound : t.findClassLike? name? = some id) :
    (∃ c?, (Pass.constant name? k).plan t = .ok c?) ↔
      k.name ∈ Slot.constants.names name? t ∨ ∃ n, k.realize = .ok n := by
  have hplan := @exists_planMember_iff name? t id .constants .constDecl (· == k.name) k.name
    (fun _ => k.realize) rfl rfl (by simp) (fun _ => rfl) hfound
  rw [Pass.plan, hplan]
  simp [Slot.keyOf]

/-- A pass for a property succeeds if the property is there or can be realized. -/
theorem exists_plan_property_iff {p : PropertySpec} (hfound : t.findClassLike? name? = some id) :
    (∃ c?, (Pass.property name? p).plan t = .ok c?) ↔
      p.name ∈ Slot.properties.names name? t ∨ ∃ n, p.realize = .ok n := by
  have hplan := @exists_planMember_iff name? t id .properties .propertyDecl (· == p.name) p.name
    (fun _ => p.realize) rfl rfl (by simp) (fun _ => rfl) hfound
  rw [Pass.plan, hplan]
  simp [Slot.keyOf]

/-- The passes for constants of different names succeed if each of them is there or can be realized. -/
theorem leads_constants_iff {ks : List ConstSpec} (hc : t.Closed) (hfound : t.findClassLike? name? = some id)
    (hks : ks.Pairwise fun a b => a.name ≠ b.name) :
    (∃ s, Pipeline.Leads (ks.map (.constant name?)) t s) ↔
      ∀ k ∈ ks, k.name ∈ Slot.constants.names name? t ∨ ∃ n, k.realize = .ok n := by
  induction ks generalizing t with
  | nil => simp
  | cons k ks ih =>
    obtain ⟨hk, hks⟩ := List.pairwise_cons.1 hks
    have hrest {c? : Option Change} (hplan : (Pass.constant name? k).plan t = .ok c?) :
        (∃ s, Pipeline.Leads (ks.map (.constant name?)) (t.after c?) s) ↔
          ∀ k ∈ ks, k.name ∈ Slot.constants.names name? t ∨ ∃ n, k.realize = .ok n := by
      have hleads : Pipeline.Leads [.constant name? k] t (t.after c?) :=
        Pipeline.leads_singleton.2 ⟨c?, hplan, rfl⟩
      have hself : ∀ p ∈ [Pass.constant name? k], p.Concerns name? := List.forall_mem_singleton.2 rfl
      rw [ih (hleads.closed hself hc) (hleads.found hself hfound).1 hks]
      refine forall₂_congr fun k' hk' => or_congr_left ?_
      have hfills := (hleads.fills (s := .constants) hself hc).exists_iff k'.name
      simpa [Slot.keyOf, Pass.wants, hk k' hk'] using hfills
    rw [List.forall_mem_cons, ← exists_plan_constant_iff hfound]
    constructor
    · rintro ⟨s, hs⟩
      obtain ⟨c?, hplan, hs⟩ := Pipeline.leads_cons.1 hs
      exact ⟨⟨c?, hplan⟩, (hrest hplan).1 ⟨s, hs⟩⟩
    · rintro ⟨⟨c?, hplan⟩, h⟩
      obtain ⟨s, hs⟩ := (hrest hplan).2 h
      exact ⟨s, Pipeline.leads_cons.2 ⟨c?, hplan, hs⟩⟩

end Member

end PhpGraft

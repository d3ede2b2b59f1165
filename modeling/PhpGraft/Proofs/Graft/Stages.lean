import PhpGraft.Proofs.Graft.Settled

/-!
# Runs that succeed

A run that succeeds goes through all of its passes, each on the tree that the one before it left
(`Pipeline.Leads`). Unless one of them adds a namespace, the tree only grows on the way, every node
that is new has the form that some pass makes, and in the end every pass finds its element
(`Leads.settled`).

The passes of a declaration come in stages: the directive for strict types, the namespace, the
imports, the declaration, and at last what belongs to the declaration (`Declaration.passes_eq`). The
first two are taken apart here (`leads_strict`, `leads_namespace`).
-/

namespace PhpGraft

open Edit

namespace Pipeline

variable {p : Pass} {ps qs : Pipeline} {t t' : Tree}

/-- A run that succeeds on a tree, and the tree that it leaves. -/
def Leads (ps : Pipeline) (t t' : Tree) : Prop := ∃ records, (run ps).on t = (.ok records, t')

/-- Without passes, nothing happens. -/
@[simp] theorem leads_nil : Leads [] t t' ↔ t' = t := by
  constructor
  · rintro ⟨records, h⟩
    exact (congrArg Prod.snd h).symm
  · rintro rfl
    exact ⟨[], rfl⟩

/-- A run that succeeds goes through its first pass and then through the others. -/
theorem leads_cons : Leads (p :: ps) t t' ↔ ∃ c?, p.plan t = .ok c? ∧ Leads ps (t.after c?) t' := by
  unfold Leads
  rw [on_run_cons]
  constructor
  · rintro ⟨records, h⟩
    split at h
    · cases h
    · next c? hplan =>
      split at h
      · next records' t'' hrest =>
        obtain ⟨-, rfl⟩ := Prod.mk.inj h
        exact ⟨c?, hplan, records', hrest⟩
      · cases h
  · rintro ⟨c?, hplan, records, hrest⟩
    refine ⟨p.record c? :: records, ?_⟩
    simp only [hplan, hrest]

/-- A run of one pass makes the change that the pass plans. -/
theorem leads_singleton : Leads [p] t t' ↔ ∃ c?, p.plan t = .ok c? ∧ t' = t.after c? := by
  simp only [leads_cons, leads_nil]

/-- A run that succeeds goes through its first part and then through the other one. -/
theorem leads_append : Leads (ps ++ qs) t t' ↔ ∃ s, Leads ps t s ∧ Leads qs s t' := by
  induction ps generalizing t with
  | nil => simp
  | cons p ps ih =>
    simp only [List.cons_append, leads_cons, ih]
    constructor
    · rintro ⟨c?, hplan, s, hs, hrest⟩
      exact ⟨s, ⟨c?, hplan, hs⟩, hrest⟩
    · rintro ⟨s, ⟨c?, hplan, hs⟩, hrest⟩
      exact ⟨c?, hplan, s, hs, hrest⟩

/-- What every change of a run keeps holds of the tree that a successful run leaves. -/
theorem Leads.induction {P : Tree → Prop} (h : Leads ps t t')
    (hstep : ∀ p ∈ ps, ∀ t c, P t → p.plan t = .ok (some c) → P (c.apply t)) (ht : P t) :
    P t' := by
  obtain ⟨records, hrun⟩ := h
  have := run_induction hstep ht
  rwa [hrun] at this

section Concerns

variable {name? : Option String} (hps : ∀ p ∈ ps, p.Concerns name?)
  (hns : ∀ p ∈ ps, p.makes? ≠ some .namespaceDecl)

include hps hns

/-- A tree grows in a run that adds no namespace. -/
theorem Leads.grows (h : Leads ps t t') : Grows name? t t' :=
  h.induction (P := fun s => Grows name? t s)
    (fun p hp _ _ hs hplan => hs.trans ((passStep_of_plan (hps p hp) hplan).grows (hns p hp)))
    (.refl _ _)

/-- Whatever is new after a run has the form that one of the passes makes. -/
theorem Leads.exists_makes (h : Leads ps t t') {id : Nat} (hle : t.cells.size ≤ id)
    (hlt : id < t'.cells.size) : ∃ p ∈ ps, p.makes? = some (t'.category id) := by
  refine (h.induction (P := fun s => Grows name? t s ∧ ∀ id, t.cells.size ≤ id →
    id < s.cells.size → ∃ p ∈ ps, p.makes? = some (s.category id)) ?_ ⟨.refl _ _, ?_⟩).2 id hle hlt
  · intro p hp s c ⟨hs, hmakes⟩ hplan
    have hstep := passStep_of_plan (hps p hp) hplan
    have hgrows := hstep.grows (hns p hp)
    refine ⟨hs.trans hgrows, fun id hle hlt => ?_⟩
    rcases Nat.lt_or_ge id s.cells.size with hold | hnew
    · rw [hgrows.category_eq hold]
      exact hmakes id hle hold
    · exact ⟨p, hp, hstep.category_eq hnew hlt⟩
  · intro id hle hlt
    omega

/-- After a run that succeeds, every pass finds its element: the one that the pass itself has added,
if there was none, and no later pass takes it away. -/
theorem Leads.settled (h : Leads ps t t') : ∀ p ∈ ps, p.Settled t' := by
  induction ps generalizing t with
  | nil => exact List.forall_mem_nil _
  | cons p ps ih =>
    obtain ⟨c?, hplan, hrest⟩ := leads_cons.1 h
    rw [List.forall_mem_cons] at hps hns
    have hself : p.Settled (t.after c?) := by
      cases c? with
      | none => exact hplan
      | some c => exact settled_after_plan hps.1 hplan
    exact List.forall_mem_cons.2
      ⟨hself.mono hps.1 (hrest.grows hps.2 hns.2), ih hps.2 hns.2 hrest⟩

end Concerns

/-- The run of a stage for strict types adds the directive at the front if the file does not have
it. -/
theorem leads_strict {strict : Bool} :
    Leads (if strict then [.strictTypes] else []) t t' ↔
      t' = if strict = true ∧ ¬t.HasChild Tree.root isStrictDirective
        then t.insertNodes Tree.root 0 [strictDirective] else t := by
  cases strict with
  | false => simp
  | true =>
    rw [if_pos rfl, leads_singleton, Pass.plan]
    simp only [← isSome_findChild?, true_and]
    cases (t.findChild? Tree.root isStrictDirective).isSome <;> simp [Tree.after, Change.apply]

/-- A directive that was put at the front. -/
theorem node_strictDirective :
    (t.insertNodes Tree.root 0 [strictDirective]).node t.cells.size = strictDirective := by
  have := @Tree.map_node_freshIds t Tree.root 0 [strictDirective]
  simpa [Tree.freshIds] using this

/-- A directive that was put at the front stands ahead of all other statements. -/
theorem mem_leading_strictDirective :
    t.cells.size ∈ ((t.insertNodes Tree.root 0 [strictDirective]).children Tree.root).take
      (leadingDirectives (t.insertNodes Tree.root 0 [strictDirective]) Tree.root) := by
  have hcat : (t.insertNodes Tree.root 0 [strictDirective]).category t.cells.size =
      .directive := by
    rw [Tree.category, node_strictDirective]
    rfl
  rw [Tree.take_leadingDirectives, Tree.children_insertNodes Tree.root_lt (Nat.zero_le _)]
  simp [Tree.freshIds, hcat]

/-- The run of a stage for a namespace wraps a file without one. -/
theorem leads_namespace {scope? : Option String} :
    Leads (scope?.map Pass.namespaceDecl).toList t t' ↔
      t' = t ∧ (scope? = none ∨ t.namespace?.isSome = true) ∨
        t.namespace? = none ∧ ∃ name, scope? = some name ∧ t' = t.wrapped (Name.bare name) := by
  cases scope? with
  | none => simp
  | some name =>
    rw [Option.map_some, Option.toList_some, leads_singleton, Pass.plan]
    cases t.namespace? <;> simp [Tree.after, Change.apply]

end Pipeline

/-! ## The stages of a declaration -/

namespace Declaration

/-- The pass that adds the declaration itself. -/
def declares : Declaration → Pass
  | ofClass c => .classDecl c.name? c.modifiers c.doc? c.attributes
  | ofInterface i => .interfaceDecl i.name i.doc? i.attributes

/-- The passes that add what belongs to the declaration. -/
def details : Declaration → Pipeline
  | ofClass c =>
    (c.parent?.map (.parent c.name?)).toList ++
      (if c.interfaces.isEmpty then [] else [.interfaces c.name? c.interfaces.names]) ++
      (if c.traits.isEmpty then [] else [.traits c.name? c.traits.names]) ++
      c.constantPasses c.name? ++ c.propertyPasses ++ c.methodPasses c.name?
  | ofInterface i =>
    (if i.parents.isEmpty then [] else [.interfaceParents i.name i.parents.names]) ++
      i.constantPasses (some i.name) ++ i.methodPasses (some i.name)

/-- The passes for the imports of the file. -/
def importPasses (d : Declaration) : Pipeline :=
  if d.parts.imports.isEmpty then [] else [.imports d.parts.imports.items]

/-- The passes of a declaration behind those for the directive and for the namespace. -/
def inner (d : Declaration) : Pipeline := d.importPasses ++ d.declares :: d.details

/-- The passes of a declaration in their stages. -/
theorem passes_eq (d : Declaration) :
    d.passes = (if d.parts.strict then [.strictTypes] else []) ++
      ((d.parts.scope?.map Pass.namespaceDecl).toList ++ d.inner) := by
  cases d <;> simp only [passes, ClassSpec.passes, InterfaceSpec.passes, DeclarationParts.scaffold,
    inner, importPasses, declares, details, List.append_assoc, List.singleton_append] <;> rfl

/-- The passes of the last stage add members, or they change the head of the declaration. -/
theorem isMember_of_mem_details {d : Declaration} {p : Pass} (hp : p ∈ d.details) :
    p.makes? = none ∨ ∃ c, p.makes? = some c ∧ c.memberRank?.isSome = true := by
  revert p
  cases d with
  | ofClass c =>
    simp only [details, ClassSpec.propertyPasses, DeclarationParts.constantPasses,
      DeclarationParts.methodPasses, List.forall_mem_append, List.forall_mem_map]
    refine ⟨⟨⟨⟨⟨?_, ?_⟩, ?_⟩, ?_⟩, ?_⟩, ?_⟩
    · cases c.parent? <;> simp [Pass.makes?]
    · split <;> simp [Pass.makes?]
    · split <;> simp [Pass.makes?, Category.memberRank?]
    all_goals exact fun _ _ => .inr ⟨_, rfl, rfl⟩
  | ofInterface i =>
    simp only [details, DeclarationParts.constantPasses, DeclarationParts.methodPasses,
      List.forall_mem_append, List.forall_mem_map]
    refine ⟨⟨?_, ?_⟩, ?_⟩
    · split <;> simp [Pass.makes?]
    all_goals exact fun _ _ => .inr ⟨_, rfl, rfl⟩

/-- The passes behind the namespace add neither a namespace nor a directive. -/
theorem makes_of_mem_inner {d : Declaration} {p : Pass} (hp : p ∈ d.inner) :
    p.makes? ≠ some .namespaceDecl ∧ p.makes? ≠ some .directive := by
  rw [inner, List.mem_append, List.mem_cons] at hp
  rcases hp with hp | rfl | hp
  · rw [importPasses] at hp
    split at hp
    · cases hp
    · rw [List.mem_singleton.1 hp]
      simp [Pass.makes?]
  · cases d <;> simp [declares, Pass.makes?]
  · rcases isMember_of_mem_details hp with hnone | ⟨c, hc, hmember⟩
    · simp [hnone]
    · rw [hc]
      cases c <;> simp_all [Category.memberRank?]

/-- The passes behind the namespace are about the declaration, too. -/
theorem concerns_inner (d : Declaration) : ∀ p ∈ d.inner, p.Concerns d.name? := fun p hp =>
  concerns_passes d p (by
    rw [passes_eq]
    exact List.mem_append_right _ (List.mem_append_right _ hp))

end Declaration

end PhpGraft

import PhpGraft.Proofs.Graft.Stages

/-!
# Running again

A second run finds everything in its place and leaves the tree alone, except in one case. The
directive for strict types is looked for among all statements of the file, but only the directives
ahead of the other statements stay outside of a namespace that is put around them. So if the
directive stands behind something else, and the run adds a namespace, then the directive ends up
inside the namespace, where the next run does not find it (`Declaration.LosesStrict`). In all other
cases a run is idempotent (`rerun_unchanged_iff`).
-/

namespace PhpGraft

open Edit

namespace Pipeline

variable {ps : Pipeline} {t : Tree}

/-- A run on a tree that reports no change and makes none. -/
def Unchanged (ps : Pipeline) (t : Tree) : Prop :=
  ∃ records, (run ps).on t = (.ok records, t) ∧ ∀ r ∈ records, r.outcome = .unchanged

/-- A run changes nothing exactly when every pass finds its element. -/
theorem unchanged_iff_settled : Unchanged ps t ↔ ∀ p ∈ ps, p.Settled t := by
  induction ps with
  | nil => exact iff_of_true ⟨[], rfl, List.forall_mem_nil _⟩ (List.forall_mem_nil _)
  | cons p ps ih =>
    rw [List.forall_mem_cons, ← ih]
    unfold Unchanged
    rw [on_run_cons]
    constructor
    · rintro ⟨records, hrun, hall⟩
      split at hrun
      · cases hrun
      · next c? hplan =>
        split at hrun
        · next records' t' hrest =>
          obtain ⟨hrecords, rfl⟩ := Prod.mk.inj hrun
          obtain rfl := Except.ok.inj hrecords
          rw [List.forall_mem_cons] at hall
          cases c? with
          | none => exact ⟨hplan, records', hrest, hall.2⟩
          | some c => exact absurd hall.1 (by simp [Pass.record])
        · cases hrun
    · rintro ⟨hp, records, hrest, hall⟩
      have hplan : p.plan t = .ok none := hp
      refine ⟨p.record none :: records, ?_, List.forall_mem_cons.2 ⟨rfl, hall⟩⟩
      simp only [hplan, Tree.after, hrest]

end Pipeline

/-! ## The directive for strict types -/

section Strict

variable {name? : Option String} {t t' : Tree} {test : Node → Bool}

/-- A child that satisfies a test was there before the tree grew, if it is neither new nor a
declaration. -/
theorem Grows.hasChild_of {id : Nat} (h : Grows name? t t')
    (hnew : ∀ c, t.cells.size ≤ c → test (t'.node c) = false)
    (hclass : ∀ n, test n = true → n.category.isClassLike = false) (hc : t'.HasChild id test) :
    t.HasChild id test := by
  obtain ⟨c, hmem, htest⟩ := hc
  have hlt : c < t.cells.size := by
    refine Nat.lt_of_not_le fun hle => ?_
    rw [hnew c hle] at htest
    exact Bool.false_ne_true htest
  have hmem' : c ∈ t.children id := (h.edges id c hmem).resolve_right (Nat.not_le.2 hlt)
  have hcat : (t.category c).isClassLike = false := by
    rw [← h.category_eq hlt]
    exact hclass _ htest
  exact ⟨c, hmem', by rwa [← h.node_eq hlt hcat]⟩

/-- Whether the directive for strict types stands ahead of all other statements, among directives
only. -/
def Tree.LeadsStrict (t : Tree) : Prop :=
  ∃ c ∈ (t.children root).take (leadingDirectives t root), isStrictDirective (t.node c) = true

instance (t : Tree) : Decidable t.LeadsStrict :=
  inferInstanceAs (Decidable
    (∃ c ∈ (t.children Tree.root).take (leadingDirectives t Tree.root), isStrictDirective (t.node c) = true))

/-- A wrapped file has the directives that stood ahead of its statements. -/
theorem hasChild_wrapped {name : String} :
    (t.wrapped name).HasChild Tree.root isStrictDirective ↔ t.LeadsStrict := by
  have hnode : ∀ c ∈ (t.children Tree.root).take (leadingDirectives t Tree.root),
      (t.wrapped name).node c = t.node c := by
    intro c hc
    have hlt : c < t.cells.size :=
      Tree.lt_of_category_ne (by rw [Tree.category_of_mem_leading hc]; decide)
    rw [Tree.node_wrapped, if_neg (Nat.ne_of_lt hlt)]
  unfold Tree.HasChild Tree.LeadsStrict
  rw [Tree.children_wrapped_root]
  constructor
  · rintro ⟨c, hc, htest⟩
    rcases List.mem_append.1 hc with hc | hc
    · exact ⟨c, hc, by rwa [← hnode c hc]⟩
    · rw [List.mem_singleton.1 hc, Tree.node_wrapped, if_pos rfl] at htest
      cases htest
  · rintro ⟨c, hc, htest⟩
    exact ⟨c, List.mem_append_left _ hc, by rwa [hnode c hc]⟩

/-- A directive that was put at the front stands ahead of all other statements. -/
theorem leadsStrict_insertNodes :
    (t.insertNodes Tree.root 0 [strictDirective]).LeadsStrict :=
  ⟨t.cells.size, Pipeline.mem_leading_strictDirective, by
    rw [Pipeline.node_strictDirective]
    rfl⟩

end Strict

/-! ## A second run -/

namespace Declaration

/-- Whether a run moves the directive for strict types out of sight: it asks for the directive, finds
it behind some other statement, and puts all but the directives at the front into a namespace. -/
def LosesStrict (d : Declaration) (t : Tree) : Prop :=
  d.parts.strict = true ∧ d.parts.scope?.isSome = true ∧ t.namespace? = none ∧
    t.HasChild Tree.root isStrictDirective ∧ ¬t.LeadsStrict

instance (d : Declaration) (t : Tree) : Decidable (d.LosesStrict t) :=
  inferInstanceAs (Decidable (_ ∧ _ ∧ _ ∧ _ ∧ _))

variable {d : Declaration} {t t₁ t₂ t' : Tree}

/-- What a run does behind the namespace neither adds nor hides the directive for strict types. -/
theorem hasChild_inner (h : d.inner.Leads t t') :
    t'.HasChild Tree.root isStrictDirective ↔ t.HasChild Tree.root isStrictDirective := by
  have hns := fun p (hp : p ∈ d.inner) => (makes_of_mem_inner hp).1
  have hgrows := h.grows d.concerns_inner hns
  refine ⟨hgrows.hasChild_of (fun c hle => ?_) fun _ => isClassLike_of_isStrictDirective,
    hgrows.hasChild rfl fun _ => isClassLike_of_isStrictDirective⟩
  refine Bool.eq_false_iff.2 fun htest => ?_
  have hcat : t'.category c = .directive := category_of_isStrictDirective htest
  have hlt : c < t'.cells.size := Tree.lt_of_category_ne (by rw [hcat]; decide)
  obtain ⟨p, hp, hmakes⟩ := h.exists_makes d.concerns_inner hns hle hlt
  exact (makes_of_mem_inner hp).2 (hmakes.trans (congrArg some hcat))

/-- The first two stages of a run leave the directive for strict types in sight, or they lose it. -/
theorem hasChild_opening (hs : d.parts.strict = true)
    (h₁ : t₁ = if d.parts.strict = true ∧ ¬t.HasChild Tree.root isStrictDirective
      then t.insertNodes Tree.root 0 [strictDirective] else t)
    (h₂ : t₂ = t₁ ∧ (d.parts.scope? = none ∨ t₁.namespace?.isSome = true) ∨
      t₁.namespace? = none ∧ ∃ name, d.parts.scope? = some name ∧ t₂ = t₁.wrapped (Name.bare name)) :
    t₂.HasChild Tree.root isStrictDirective ↔ ¬d.LosesStrict t := by
  have hstrict : t₁.HasChild Tree.root isStrictDirective := by
    rw [h₁]
    split
    · exact hasChild_insertNodes Tree.root_lt (Nat.zero_le _) (List.mem_singleton_self _) rfl
    · next hn => exact not_not.1 fun hc => hn ⟨hs, hc⟩
  have hnamespace : t₁.namespace? = t.namespace? := by
    rw [h₁]
    split
    · exact findChild?_insertNodes Tree.root_lt (Nat.zero_le _)
        (fun n hn => by rw [List.mem_singleton.1 hn]; rfl) rfl
    · rfl
  rcases h₂ with ⟨rfl, hkeep⟩ | ⟨hnone, name, hscope, rfl⟩
  · -- No namespace is added.
    refine iff_of_true hstrict fun hloses => ?_
    obtain ⟨-, hsome, hnone, -⟩ := hloses
    rcases hkeep with hscope | hns
    · rw [hscope] at hsome
      cases hsome
    · rw [hnamespace, hnone] at hns
      cases hns
  · rw [hasChild_wrapped]
    by_cases hhas : t.HasChild Tree.root isStrictDirective
    · rw [h₁, if_neg fun hc => hc.2 hhas]
      rw [hnamespace] at hnone
      constructor
      · exact fun hleads ⟨_, _, _, _, hn⟩ => hn hleads
      · exact fun hn => not_not.1 fun hleads =>
          hn ⟨hs, by rw [hscope]; rfl, hnone, hhas, hleads⟩
    · rw [h₁, if_pos ⟨hs, hhas⟩]
      exact iff_of_true leadsStrict_insertNodes fun hloses => hhas hloses.2.2.2.1

/-- A namespace that is asked for is there after the first two stages of a run. -/
theorem settled_namespace
    (h₂ : t₂ = t₁ ∧ (d.parts.scope? = none ∨ t₁.namespace?.isSome = true) ∨
      t₁.namespace? = none ∧ ∃ name, d.parts.scope? = some name ∧ t₂ = t₁.wrapped (Name.bare name)) :
    ∀ p ∈ (d.parts.scope?.map Pass.namespaceDecl).toList, p.Settled t₂ := by
  intro p hp
  rw [Option.mem_toList, Option.map_eq_some_iff] at hp
  obtain ⟨name, hname, rfl⟩ := hp
  have hns : t₂.namespace?.isSome = true := by
    rcases h₂ with ⟨rfl, hscope | hns⟩ | ⟨-, _, -, rfl⟩
    · rw [hname] at hscope
      cases hscope
    · exact hns
    · rw [Tree.namespace?_wrapped]
      rfl
  rw [Pass.Settled, Pass.plan, if_pos hns]

/-- Whether a second run changes nothing is decided by the directive for strict types alone. -/
theorem settled_passes_iff (h : d.passes.Leads t t') :
    (∀ p ∈ d.passes, p.Settled t') ↔ ¬d.LosesStrict t := by
  rw [passes_eq, Pipeline.leads_append] at h
  obtain ⟨t₁, h₁, h⟩ := h
  obtain ⟨t₂, h₂, h₃⟩ := Pipeline.leads_append.1 h
  rw [Pipeline.leads_strict] at h₁
  rw [Pipeline.leads_namespace] at h₂
  have hns := fun p (hp : p ∈ d.inner) => (makes_of_mem_inner hp).1
  have hgrows := h₃.grows d.concerns_inner hns
  have hinner := h₃.settled d.concerns_inner hns
  have hname : ∀ p ∈ (d.parts.scope?.map Pass.namespaceDecl).toList, p.Settled t' := by
    intro p hp
    refine (settled_namespace h₂ p hp).mono (d.concerns_passes p ?_) hgrows
    rw [passes_eq]
    exact List.mem_append_right _ (List.mem_append_left _ hp)
  rw [passes_eq, List.forall_mem_append, List.forall_mem_append]
  rw [and_iff_left ⟨hname, hinner⟩]
  cases hs : d.parts.strict with
  | false =>
    refine iff_of_true (List.forall_mem_nil _) fun hloses => ?_
    rw [LosesStrict, hs] at hloses
    exact Bool.false_ne_true hloses.1
  | true =>
    rw [if_pos rfl, List.forall_mem_singleton, ← hasChild_opening hs h₁ h₂, ← hasChild_inner h₃,
      ← isSome_findChild?, Pass.Settled, Pass.plan]
    cases (t'.findChild? Tree.root isStrictDirective).isSome <;> simp

end Declaration

/-- Running again after a run that succeeded changes nothing and says so, if and only if the first
run did not lose the directive for strict types. -/
theorem rerun_unchanged_iff (d : Declaration) (t t' : Tree) (records : List PassRecord)
    (h : d.realize.on t = (.ok records, t')) :
    d.passes.Unchanged t' ↔ ¬d.LosesStrict t := by
  rw [Pipeline.unchanged_iff_settled]
  exact Declaration.settled_passes_iff ⟨records, h⟩

/-- A class in a namespace, in a file with the directive for strict types. -/
def namespacedClass : Declaration := .ofClass { ClassSpec.new "A" with scope? := some "App" }

/-- Running again on what was made from an empty file changes nothing. -/
theorem rerun_unchanged_of_empty :
    ∃ records t', namespacedClass.realize.on .empty = (.ok records, t') ∧
      namespacedClass.passes.Unchanged t' := by
  have hok : (namespacedClass.realize.on .empty).1.isOk = true := by decide +kernel
  rcases hrun : namespacedClass.realize.on .empty with ⟨e | records, t'⟩
  · rw [hrun] at hok
    cases hok
  · exact ⟨records, t', rfl, (rerun_unchanged_iff _ _ _ _ hrun).2 (by decide +kernel)⟩

/-- A file whose directive for strict types stands behind a comment of its own is not settled by one
run: the run moves the directive into the namespace, and the next run adds another one. -/
theorem rerun_changed_of_comment :
    ∃ file records t',
      Outline.parse "<?php\n// comment\n\ndeclare(strict_types=1);\n" = .ok file ∧
        namespacedClass.realize.on (.ofOutline file) = (.ok records, t') ∧
          ¬namespacedClass.passes.Unchanged t' := by
  have hcheck : (match Outline.parse "<?php\n// comment\n\ndeclare(strict_types=1);\n" with
      | .ok file => (namespacedClass.realize.on (.ofOutline file)).1.isOk &&
          decide (namespacedClass.LosesStrict (.ofOutline file))
      | .error _ => false) = true := by decide +kernel
  cases hparse : Outline.parse "<?php\n// comment\n\ndeclare(strict_types=1);\n" with
  | error e =>
    rw [hparse] at hcheck
    cases hcheck
  | ok file =>
    rw [hparse] at hcheck
    obtain ⟨hok, hloses⟩ := Bool.and_eq_true_iff.1 hcheck
    rcases hrun : namespacedClass.realize.on (.ofOutline file) with ⟨e | records, t'⟩
    · rw [hrun] at hok
      cases hok
    · refine ⟨file, records, t', rfl, hrun, fun hsame => ?_⟩
      rw [Pipeline.unchanged_iff_settled, Declaration.settled_passes_iff ⟨records, hrun⟩] at hsame
      exact hsame (of_decide_eq_true hloses)

end PhpGraft

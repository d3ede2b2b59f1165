import PhpGraft.Proofs.Graft.Conservation
import PhpGraft.Proofs.Graft.Idempotence
import PhpGraft.Proofs.Graft.Realization
import PhpGraft.Proofs.Syntax.Gaps

/-!
# The directive for strict types at the head of a file

The directive for strict types has to be the first statement of its file. Where it is, it stays first:
a namespace goes behind the directives ahead of all other statements, and so do imports. But a comment
that stands by itself is a statement, too. Behind such a comment the directive is not among those
directives, so that a new namespace is put around it, and new imports are put ahead of it. A run keeps
the directive at the head of its file exactly where neither happens (`marker_heads_iff`).
-/

namespace PhpGraft

open Edit

/-- Whether `marker` is a statement of the file, with only some of the statements `ahead` in front of
it. -/
def Tree.Heads (t : Tree) (ahead : List NodeId) (marker : NodeId) : Prop :=
  ∃ front behind, t.children root = front ++ marker :: behind ∧ ∀ c ∈ front, c ∈ ahead

/-- Whether all imports of a declaration are known in the scope of a file. -/
def Declaration.Imported (d : Declaration) (t : Tree) : Prop :=
  ∀ i ∈ d.parts.imports.items, ∃ name ∈ importedNames t t.scope, Name.same name i.name = true

/-- Whether a run neither puts a namespace around the statements of a file nor imports ahead of them:
the file has a namespace, or the declaration has none and the file has all of its imports. -/
def Declaration.SparesHead (d : Declaration) (t : Tree) : Prop :=
  t.namespace?.isSome = true ∨ d.parts.scope? = none ∧ d.Imported t

/-! ## The statements of a file in the stages of a run -/

section Stages

variable {d : Declaration} {t t' : Tree} {name? : Option String}

/-- Steps that add members, or that change a head, leave the statements of the file alone. -/
theorem PassStep.children_root {makes? : Option Category} {c : Change} (hc : t.Closed)
    (h : PassStep name? t makes? c)
    (hmakes : makes? = none ∨ ∃ form, makes? = some form ∧ form.memberRank?.isSome = true) :
    (c.apply t).children Tree.root = t.children Tree.root := by
  cases h with
  | @insert parent index nodes stored place form inside home fresh bare =>
    rcases hmakes with rfl | ⟨form', rfl, hmember⟩
    · -- Nothing is made, and so there are no new nodes.
      have hnil : nodes = [] :=
        List.eq_nil_iff_forall_not_mem.2 fun n hn => nomatch form n hn
      subst hnil
      rfl
    · have hfound : t.findClassLike? name? = some parent := by
        have hhome := home form' rfl
        cases form' <;> first | exact hhome | cases hmember
      exact Tree.children_insertNodes_of_ne (Slot.ne_root_of_find hc hfound).symm
  | head found grows form => exact Tree.children_modifyNode _ _
  | wrap name bare form =>
    rcases hmakes with hnone | ⟨form', hsome, hmember⟩
    · rw [hnone] at form
      cases form
    · obtain rfl := Option.some.inj (hsome.symm.trans form)
      cases hmember

/-- What belongs to a declaration is not among the statements of the file. -/
theorem children_root_of_details (hc : t.Closed) (h : d.details.Leads t t') :
    t'.children Tree.root = t.children Tree.root := by
  have hboth : t'.Closed ∧ t'.children Tree.root = t.children Tree.root := by
    refine h.induction
      (P := fun s => s.Closed ∧ s.children Tree.root = t.children Tree.root) ?_ ⟨hc, rfl⟩
    rintro p hp s c ⟨hs, hsame⟩ hplan
    have hconcerns : p.Concerns d.name? :=
      d.concerns_inner p (List.mem_append_right _ (List.mem_cons_of_mem _ hp))
    have hstep := passStep_of_plan hconcerns hplan
    exact ⟨Slot.closed_of_step hs hstep,
      (hstep.children_root hs (Declaration.isMember_of_mem_details hp)).trans hsame⟩
  exact hboth.2

/-- A declaration goes behind all statements, in the file or in its namespace. -/
theorem exists_children_root_of_declares {c? : Option Change} (h : d.declares.plan t = .ok c?) :
    ∃ more, (t.after c?).children Tree.root = t.children Tree.root ++ more := by
  have hplan {kind : NodeKind} {doc? : Option String} {attributes : List AttributeSpec}
      (h : planDeclaration t d.name? kind doc? attributes = .ok c?) :
      ∃ more, (t.after c?).children Tree.root = t.children Tree.root ++ more := by
    rcases planDeclaration_eq_ok.1 h with ⟨-, rfl⟩ | ⟨-, realized, -, rfl⟩
    · exact ⟨[], (List.append_nil _).symm⟩
    · by_cases hscope : t.scope = Tree.root
      · refine ⟨t.freshIds 1, ?_⟩
        show (t.insertNodes t.scope _ _).children Tree.root = _
        rw [hscope, Tree.children_insertNodes Tree.root_lt (Nat.le_refl _), List.take_length,
          List.drop_length, List.append_nil]
        rfl
      · exact ⟨[], (Tree.children_insertNodes_of_ne (Ne.symm hscope)).trans
          (List.append_nil _).symm⟩
  cases d <;> exact hplan h

/-- A stage for imports adds nothing where all of them are known, and else it adds some behind the
leading directives of the scope. -/
theorem exists_of_importPasses (h : d.importPasses.Leads t t') :
    t' = t ∧ d.Imported t ∨
      ¬d.Imported t ∧
        ∃ node nodes, t' = t.insertNodes t.scope (leadingDirectives t t.scope) (node :: nodes) := by
  unfold Declaration.importPasses at h
  split at h
  · next hempty =>
    have hnone : d.parts.imports.items = [] := List.isEmpty_iff.1 hempty
    refine .inl ⟨Pipeline.leads_nil.1 h, ?_⟩
    rw [Declaration.Imported, hnone]
    exact List.forall_mem_nil _
  · obtain ⟨c?, hplan, rfl⟩ := Pipeline.leads_singleton.1 h
    cases c? with
    | none => exact .inl ⟨rfl, settled_imports_iff.1 hplan⟩
    | some c =>
      have hunknown : ¬d.Imported t := fun hknown => by
        have hsettled : (Pass.imports d.parts.imports.items).Settled t :=
          settled_imports_iff.2 hknown
        rw [Pass.Settled, hplan] at hsettled
        cases hsettled
      simp only [Pass.plan, planImports, Except.ok.injEq] at hplan
      split at hplan
      · cases hplan
      · next hmissing =>
        obtain rfl := Option.some.inj hplan
        obtain ⟨i, l, hcons⟩ := List.exists_cons_of_ne_nil (mt List.isEmpty_iff.2 hmissing)
        rw [hcons]
        exact .inr ⟨hunknown, _, _, rfl⟩

/-- Behind the imports, a run adds only at the end of the statements of the file. -/
theorem exists_children_root_behind (hc : t.Closed)
    (h : Pipeline.Leads (d.declares :: d.details) t t') :
    ∃ more, t'.children Tree.root = t.children Tree.root ++ more := by
  obtain ⟨c?, hplan, hdetails⟩ := Pipeline.leads_cons.1 h
  have hconcerns : d.declares.Concerns d.name? :=
    d.concerns_inner _ (List.mem_append_right _ List.mem_cons_self)
  obtain ⟨more, hmore⟩ := exists_children_root_of_declares hplan
  exact ⟨more, (children_root_of_details (Pipeline.closed_of_plan hconcerns hc hplan) hdetails).trans
    hmore⟩

end Stages

/-! ## Where the directive ends up -/

/-- The passes for imports are about the declaration, too. -/
theorem concerns_importPasses {d : Declaration} : ∀ p ∈ d.importPasses, p.Concerns d.name? :=
  fun p hp => d.concerns_inner p (List.mem_append_left _ hp)

/-- A namespace is a statement of its file, and the file is none. -/
theorem scope_ne_root {t : Tree} (hc : t.Closed) (h : t.namespace?.isSome = true) :
    t.scope ≠ Tree.root := by
  obtain ⟨ns, hns⟩ := Option.isSome_iff_exists.1 h
  have hmem : ns ∈ t.children Tree.root := List.mem_of_find?_eq_some hns
  rw [Tree.scope, hns]
  exact Nat.ne_of_gt (hc _ _ hmem).1

/-- A file in a namespace of its own is closed. -/
theorem closed_wrapped {t : Tree} (hc : t.Closed) (hnone : t.namespace? = none) (name : String) :
    (t.wrapped name).Closed := by
  have hstep : PassStep none t (some .namespaceDecl) (.wrap name) := .wrap name hnone rfl
  have hclosed : ((Change.wrap name).apply t).Closed := Slot.closed_of_step hc hstep
  exact hclosed

section Heads

variable {d : Declaration} {t t' : Tree} {ahead behind : List NodeId} {marker : NodeId}

/-- A statement that was not there before is in front of all others. -/
theorem not_heads_of_fresh {first : NodeId} {rest : List NodeId}
    (h : t'.children Tree.root = first :: rest) (hfirst : t.cells.size ≤ first)
    (hahead : ∀ c ∈ ahead, c < t.cells.size) (hmarker : marker < t.cells.size) :
    ¬t'.Heads ahead marker := by
  rintro ⟨front, behind, hsplit, hfront⟩
  rw [h] at hsplit
  cases front with
  | nil =>
    obtain ⟨rfl, -⟩ := List.cons.inj hsplit
    exact absurd hmarker (Nat.not_lt.2 hfirst)
  | cons c front =>
    obtain ⟨rfl, -⟩ := List.cons.inj hsplit
    exact absurd (hahead first (hfront first List.mem_cons_self)) (Nat.not_lt.2 hfirst)

/-- Where a directive is the first statement, it is among the leading ones. -/
theorem exists_take_leading (h : t.children Tree.root = marker :: behind)
    (hmarker : t.category marker = .directive) :
    ∃ rest, (t.children Tree.root).take (leadingDirectives t Tree.root) = marker :: rest := by
  rw [Tree.take_leadingDirectives, h, List.takeWhile_cons_of_pos (by rw [hmarker]; rfl)]
  exact ⟨_, rfl⟩

/-- Where the first statement is no directive, there are no leading ones. -/
theorem leadingDirectives_eq_zero {first : NodeId} {rest : List NodeId}
    (h : t.children Tree.root = first :: rest) (hfirst : t.category first ≠ .directive) :
    leadingDirectives t Tree.root = 0 := by
  rw [leadingDirectives, h, List.takeWhile_cons_of_neg (by simpa using hfirst)]
  rfl

/-- Behind the namespace, a run keeps a directive that is the first statement of the file. -/
theorem exists_children_root_of_first (hc : t.Closed) (h : d.inner.Leads t t')
    (hroot : t.children Tree.root = marker :: behind) (hmarker : t.category marker = .directive) :
    ∃ rest, t'.children Tree.root = marker :: rest := by
  obtain ⟨s, himports, hrest⟩ := Pipeline.leads_append.1 h
  obtain ⟨more, hmore⟩ := exists_children_root_behind
    (Declaration.closed_of_leads concerns_importPasses hc himports) hrest
  have hs : ∃ rest, s.children Tree.root = marker :: rest := by
    rcases exists_of_importPasses himports with ⟨rfl, -⟩ | ⟨-, node, nodes, rfl⟩
    · exact ⟨behind, hroot⟩
    · by_cases hscope : t.scope = Tree.root
      · -- Imports of the file go behind the leading directives, of which the marker is the first.
        obtain ⟨rest, htake⟩ := exists_take_leading hroot hmarker
        rw [hscope, Tree.children_insertNodes Tree.root_lt Tree.leadingDirectives_le, htake]
        exact ⟨_, rfl⟩
      · exact ⟨behind, (Tree.children_insertNodes_of_ne (Ne.symm hscope)).trans hroot⟩
  obtain ⟨rest, hs⟩ := hs
  exact ⟨rest ++ more, by rw [hmore, hs, List.cons_append]⟩

/-- The first two stages of a run on a file with the directive add at most a namespace. -/
theorem exists_inner_of_leads (hstrict : t.HasChild Tree.root isStrictDirective)
    (h : d.passes.Leads t t') :
    (d.parts.scope? = none ∨ t.namespace?.isSome = true) ∧ d.inner.Leads t t' ∨
      t.namespace? = none ∧ ∃ name, d.parts.scope? = some name ∧
        d.inner.Leads (t.wrapped (Name.bare name)) t' := by
  rw [Declaration.passes_eq, Pipeline.leads_append] at h
  obtain ⟨t₁, h₁, h⟩ := h
  obtain ⟨t₂, h₂, h₃⟩ := Pipeline.leads_append.1 h
  rw [Pipeline.leads_strict, if_neg fun hs => hs.2 hstrict] at h₁
  subst h₁
  rcases Pipeline.leads_namespace.1 h₂ with ⟨rfl, hkeep⟩ | ⟨hnone, name, hscope, rfl⟩
  · exact .inl ⟨hkeep, h₃⟩
  · exact .inr ⟨hnone, name, hscope, h₃⟩

/-- A file whose head is spared gets new statements at the end only. -/
theorem exists_children_root_of_spares (hc : t.Closed) (hspares : d.SparesHead t)
    (hstrict : t.HasChild Tree.root isStrictDirective) (h : d.passes.Leads t t') :
    ∃ more, t'.children Tree.root = t.children Tree.root ++ more := by
  rcases exists_inner_of_leads hstrict h with ⟨-, hinner⟩ | ⟨hnone, name, hscope, -⟩
  · obtain ⟨s, himports, hrest⟩ := Pipeline.leads_append.1 hinner
    obtain ⟨more, hmore⟩ := exists_children_root_behind
      (Declaration.closed_of_leads concerns_importPasses hc himports) hrest
    suffices hs : s.children Tree.root = t.children Tree.root from ⟨more, hs ▸ hmore⟩
    rcases exists_of_importPasses himports with ⟨rfl, -⟩ | ⟨hunknown, node, nodes, rfl⟩
    · rfl
    · have hns : t.namespace?.isSome = true := hspares.resolve_right fun hs => hunknown hs.2
      exact Tree.children_insertNodes_of_ne (scope_ne_root hc hns).symm
  · rcases hspares with hns | ⟨hglobal, -⟩
    · rw [hnone] at hns
      cases hns
    · rw [hscope] at hglobal
      cases hglobal

/-- A file whose head is not spared gets a new first statement, if its first one is no directive. -/
theorem exists_fresh_of_not_spares (hc : t.Closed) (hspares : ¬d.SparesHead t) {first : NodeId}
    {rest : List NodeId} (hroot : t.children Tree.root = first :: rest)
    (hfirst : t.category first ≠ .directive) (hstrict : t.HasChild Tree.root isStrictDirective)
    (h : d.passes.Leads t t') :
    ∃ new rest, t'.children Tree.root = new :: rest ∧ t.cells.size ≤ new := by
  have hnone : t.namespace? = none :=
    Option.not_isSome_iff_eq_none.1 fun hns => hspares (.inl hns)
  have hscope : t.scope = Tree.root := by
    rw [Tree.scope, hnone]
    rfl
  have hzero := leadingDirectives_eq_zero hroot hfirst
  rcases exists_inner_of_leads hstrict h with ⟨hkeep, hinner⟩ | ⟨-, name, -, hinner⟩
  · -- Without a namespace, some imports are put ahead of everything.
    have hglobal : d.parts.scope? = none := hkeep.resolve_right (by simp [hnone])
    obtain ⟨s, himports, hrest⟩ := Pipeline.leads_append.1 hinner
    obtain ⟨more, hmore⟩ := exists_children_root_behind
      (Declaration.closed_of_leads concerns_importPasses hc himports) hrest
    rcases exists_of_importPasses himports with ⟨-, hknown⟩ | ⟨-, node, nodes, rfl⟩
    · exact absurd (.inr ⟨hglobal, hknown⟩) hspares
    · rw [hscope, hzero, Tree.children_insertNodes Tree.root_lt (Nat.zero_le _)] at hmore
      exact ⟨_, _, hmore, Nat.le_add_right _ _⟩
  · -- The namespace around the statements is the only statement that is left.
    have hwrapped : (t.wrapped (Name.bare name)).children Tree.root = [t.cells.size] := by
      rw [Tree.children_wrapped_root, hzero, List.take_zero, List.nil_append]
    have hcw : (t.wrapped (Name.bare name)).Closed := closed_wrapped hc hnone _
    obtain ⟨s, himports, hrest⟩ := Pipeline.leads_append.1 hinner
    obtain ⟨more, hmore⟩ := exists_children_root_behind
      (Declaration.closed_of_leads concerns_importPasses hcw himports) hrest
    have hs : s.children Tree.root = [t.cells.size] := by
      have hns : (t.wrapped (Name.bare name)).namespace?.isSome = true := by
        rw [Tree.namespace?_wrapped]
        rfl
      have hne : Tree.root ≠ (t.wrapped (Name.bare name)).scope := (scope_ne_root hcw hns).symm
      rcases exists_of_importPasses himports with ⟨hsame, -⟩ | ⟨-, node, nodes, hinsert⟩
      · rw [hsame, hwrapped]
      · rw [hinsert, Tree.children_insertNodes_of_ne hne, hwrapped]
    rw [hs] at hmore
    exact ⟨_, _, hmore, Nat.le_refl _⟩

/-- A directive that is the first statement of its file stays the first one. -/
theorem exists_children_root_of_foremost (hc : t.Closed)
    (hroot : t.children Tree.root = marker :: behind)
    (hmarker : isStrictDirective (t.node marker) = true) (h : d.passes.Leads t t') :
    ∃ rest, t'.children Tree.root = marker :: rest := by
  have hdirective : t.category marker = .directive := category_of_isStrictDirective hmarker
  have hstrict : t.HasChild Tree.root isStrictDirective :=
    ⟨marker, by rw [hroot]; exact List.mem_cons_self, hmarker⟩
  rcases exists_inner_of_leads hstrict h with ⟨-, hinner⟩ | ⟨hnone, name, -, hinner⟩
  · exact exists_children_root_of_first hc hinner hroot hdirective
  · -- The namespace is put behind the leading directives.
    have hlt : marker < t.cells.size := Tree.lt_of_category_ne (by rw [hdirective]; decide)
    have hcw : (t.wrapped (Name.bare name)).Closed := closed_wrapped hc hnone _
    obtain ⟨rest, htake⟩ := exists_take_leading hroot hdirective
    have hroot' : (t.wrapped (Name.bare name)).children Tree.root =
        marker :: (rest ++ [t.cells.size]) := by
      rw [Tree.children_wrapped_root, htake, List.cons_append]
    refine exists_children_root_of_first hcw hinner hroot' ?_
    rw [Tree.category, Tree.node_wrapped, if_neg (Nat.ne_of_lt hlt)]
    exact hdirective

/-- The directive stays at the head of its file exactly where nothing stood ahead of it or the head of
the file is spared. -/
theorem heads_iff_of_leads (hc : t.Closed) (hroot : t.children Tree.root = ahead ++ marker :: behind)
    (hmarker : isStrictDirective (t.node marker) = true)
    (hahead : ∀ c ∈ ahead, t.category c = .verbatim) (h : d.passes.Leads t t') :
    t'.Heads ahead marker ↔ ahead = [] ∨ d.SparesHead t := by
  have hdirective : t.category marker = .directive := category_of_isStrictDirective hmarker
  have hlt : marker < t.cells.size := Tree.lt_of_category_ne (by rw [hdirective]; decide)
  have hltAhead : ∀ c ∈ ahead, c < t.cells.size := fun c hmem =>
    Tree.lt_of_category_ne (by rw [hahead c hmem]; decide)
  have hstrict : t.HasChild Tree.root isStrictDirective :=
    ⟨marker, by rw [hroot]; simp, hmarker⟩
  constructor
  · intro hheads
    cases ahead with
    | nil => exact .inl rfl
    | cons first ahead =>
      refine .inr (not_not.1 fun hspares => ?_)
      have hfirst : t.category first ≠ .directive := by
        rw [hahead first List.mem_cons_self]
        decide
      obtain ⟨new, rest, hnew, hfresh⟩ := exists_fresh_of_not_spares hc hspares hroot hfirst hstrict h
      exact not_heads_of_fresh hnew hfresh hltAhead hlt hheads
  · rintro (rfl | hspares)
    · obtain ⟨rest, hrest⟩ := exists_children_root_of_foremost hc hroot hmarker h
      exact ⟨[], rest, hrest, List.forall_mem_nil _⟩
    · obtain ⟨more, hmore⟩ := exists_children_root_of_spares hc hspares hstrict h
      refine ⟨ahead, behind ++ more, ?_, fun _ hmem => hmem⟩
      rw [hmore, hroot, List.append_assoc, List.cons_append]

end Heads

/-- A run on a file whose directive for strict types has only source text ahead of it, such as
comments that stand by themselves, leaves the directive as it is. The directive is still a statement
of the file, with nothing ahead of it but what was there before, exactly if nothing was ahead of it,
the file has a namespace, or the declaration has none and the file has all of its imports. -/
theorem marker_heads_iff (d : Declaration) (t t' : Tree) (records : List PassRecord)
    (ahead behind : List NodeId) (marker : NodeId) (hc : t.Closed)
    (hroot : t.children Tree.root = ahead ++ marker :: behind)
    (hmarker : isStrictDirective (t.node marker) = true)
    (hahead : ∀ c ∈ ahead, t.category c = .verbatim)
    (h : d.realize.on t = (.ok records, t')) :
    t'.node marker = t.node marker ∧
      (t'.Heads ahead marker ↔ ahead = [] ∨ d.SparesHead t) := by
  have hdirective : t.category marker = .directive := category_of_isStrictDirective hmarker
  have hlt : marker < t.cells.size := Tree.lt_of_category_ne (by rw [hdirective]; decide)
  refine ⟨?_, heads_iff_of_leads hc hroot hmarker hahead ⟨records, h⟩⟩
  have hgrows := d.growsWrapped_realize t
  rw [h] at hgrows
  rcases hgrows.node hlt with hsame | ⟨-, hhead⟩
  · exact hsame
  · -- Only the head of a class or interface can change, and the directive is none.
    have hlike := hhead.isClassLike
    rw [isClassLike_of_isStrictDirective hmarker] at hlike
    cases hlike

/-- What can be decided about a source that is read and about a run on it that succeeds. -/
theorem exists_run_of_readsWith (source : String) (d : Declaration) (P : Tree → Prop)
    [DecidablePred P] (h : Outline.readsWith source (fun file _ =>
      (d.realize.on (.ofOutline file)).1.isOk && decide (P (.ofOutline file))) = true) :
    ∃ file records t', Outline.parse source = .ok file ∧
      d.realize.on (.ofOutline file) = (.ok records, t') ∧ P (.ofOutline file) := by
  obtain ⟨file, _, _, hparse, -, -, hcheck⟩ := Outline.exists_of_readsWith h
  obtain ⟨hok, hP⟩ := Bool.and_eq_true_iff.1 hcheck
  rcases hrun : d.realize.on (.ofOutline file) with ⟨e | records, t'⟩
  · rw [hrun] at hok
    cases hok
  · exact ⟨file, records, t', hparse, hrun, of_decide_eq_true hP⟩

/-- Behind a comment that stands by itself, the directive of a file with a namespace stays. -/
theorem marker_heads_of_namespace :
    ∃ file records t',
      Outline.parse "<?php\n// licence\n\ndeclare(strict_types=1);\n\nnamespace App;\n" = .ok file ∧
        namespacedClass.realize.on (.ofOutline file) = (.ok records, t') ∧ t'.Heads [1] 2 := by
  obtain ⟨file, records, t', hparse, hrun, hroot, hmarker, hahead, hns⟩ := exists_run_of_readsWith
    "<?php\n// licence\n\ndeclare(strict_types=1);\n\nnamespace App;\n" namespacedClass
    (fun t => t.children Tree.root = [1] ++ 2 :: [3] ∧ isStrictDirective (t.node 2) = true ∧
      t.category 1 = .verbatim ∧ t.namespace?.isSome = true) (by decide +kernel)
  obtain ⟨-, hiff⟩ := marker_heads_iff namespacedClass _ t' records [1] [3] 2
    (Tree.closed_ofOutline file) hroot hmarker
    (List.forall_mem_singleton.2 hahead) hrun
  exact ⟨file, records, t', hparse, hrun, hiff.2 (.inr (.inl hns))⟩

/-- Without the namespace, the directive ends up in the new one, which is then the only statement. -/
theorem marker_buried_of_comment :
    ∃ file records t',
      Outline.parse "<?php\n// licence\n\ndeclare(strict_types=1);\n" = .ok file ∧
        namespacedClass.realize.on (.ofOutline file) = (.ok records, t') ∧ ¬t'.Heads [1] 2 := by
  obtain ⟨file, records, t', hparse, hrun, hroot, hmarker, hahead, hns⟩ := exists_run_of_readsWith
    "<?php\n// licence\n\ndeclare(strict_types=1);\n" namespacedClass
    (fun t => t.children Tree.root = [1] ++ 2 :: [] ∧ isStrictDirective (t.node 2) = true ∧
      t.category 1 = .verbatim ∧ t.namespace? = none) (by decide +kernel)
  refine ⟨file, records, t', hparse, hrun, fun hheads => ?_⟩
  have hcase := (heads_iff_of_leads (Tree.closed_ofOutline file) hroot hmarker
    (List.forall_mem_singleton.2 hahead) ⟨records, hrun⟩).1 hheads
  rcases hcase with hnil | hsome | ⟨hglobal, -⟩
  · cases hnil
  · rw [hns] at hsome
    cases hsome
  · cases hglobal

end PhpGraft

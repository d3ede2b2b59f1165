import PhpGraft.Proofs.Graft.Conservation
import PhpGraft.Proofs.Graft.Reached
import PhpGraft.Proofs.Graft.Slots
import PhpGraft.Proofs.Syntax.Heads
import PhpGraft.Proofs.Syntax.Printing

/-!
# Printed lines survive

A declaration is realized in a file that was read. Of the lines that the file is printed with, all but the
head of the declaration are printed afterwards, too, in their order (`realize_keeps_lines`).

The tree before the run, with the head that its declaration has afterwards, is compared with the tree after
the run: what is reached from the root of the one is kept in the other (`IsRun.kept`). And which head it
has makes a difference to one line only (`Outline.HeadAt.exists_linesOf_print`).
-/

namespace PhpGraft

open Edit Outline

/-! ## What a run adds -/

namespace GrowsWrapped

variable {name? : Option String} {t t' : Tree} {id : Nat}

/-- Handles stay given out. -/
theorem size_le (h : GrowsWrapped name? t t') : t.cells.size ≤ t'.cells.size := by
  obtain ⟨t₁, t₂, hbefore, hwrap, hafter⟩ := h
  refine hbefore.size_le.trans (Nat.le_trans ?_ hafter.size_le)
  rcases hwrap with rfl | ⟨-, name, rfl⟩
  · exact Nat.le_refl _
  · rw [Tree.size_wrapped]
    omega

/-- The statements of the file stay where they are, or the last of them are in a namespace that is
new. -/
theorem root_cases (h : GrowsWrapped name? t t') :
    (t.children Tree.root).Sublist (t'.children Tree.root) ∨
      ∃ (ids ids' : List Nat) (w : Nat) (name : String), t.children Tree.root = ids ++ ids' ∧
        (ids ++ [w]).Sublist (t'.children Tree.root) ∧ ids'.Sublist (t'.children w) ∧
        t.cells.size ≤ w ∧ w < t'.cells.size ∧ (t'.node w).kind = .namespaceDecl name := by
  obtain ⟨t₁, t₂, hbefore, rfl | ⟨-, name, rfl⟩, hafter⟩ := h
  · exact .inl ((hbefore.trans hafter).children _)
  · have hroot := hbefore.children Tree.root
    rw [← List.take_append_drop (leadingDirectives t₁ Tree.root) (t₁.children Tree.root),
      List.sublist_append_iff] at hroot
    obtain ⟨ids, ids', hids, htake, hdrop⟩ := hroot
    have hnew : t₁.cells.size < (t₁.wrapped name).cells.size := by
      rw [Tree.size_wrapped]
      exact Nat.lt_succ_self _
    have hnode : (t₁.wrapped name).node t₁.cells.size = { kind := .namespaceDecl name } := by
      rw [Tree.node_wrapped, if_pos rfl]
    refine .inr ⟨ids, ids', t₁.cells.size, name, hids, ?_, ?_, hbefore.size_le,
      Nat.lt_of_lt_of_le hnew hafter.size_le, ?_⟩
    · have hall := hafter.children Tree.root
      rw [Tree.children_wrapped_root] at hall
      exact (htake.append_right _).trans hall
    · have hall := hafter.children t₁.cells.size
      rw [Tree.children_wrapped_new] at hall
      exact hdrop.trans hall
    · rw [hafter.node_eq hnew (by rw [Tree.category, hnode]; rfl), hnode]

/-- What is found only after a run is new. -/
theorem le_of_find (h : GrowsWrapped name? t t') (hnone : t.findClassLike? name? = none)
    (hid : t'.findClassLike? name? = some id) : t.cells.size ≤ id := by
  by_contra hlt
  rw [Nat.not_le] at hlt
  have hlike : Tree.isClassLike name? (t.node id) = true := by
    have hfound := isClassLike_of_find hid
    rcases h.node hlt with he | ⟨-, hg⟩
    · rwa [he] at hfound
    · rwa [hg.isClassLike_eq] at hfound
  -- it would stand in the scope of the file already
  have hmem : id ∈ t.children t.scope := by
    obtain ⟨t₁, t₂, hbefore, hwrap, hafter⟩ := h
    have hscope := mem_of_find hid
    rw [hafter.scope_eq] at hscope
    have hlt₁ := Nat.lt_of_lt_of_le hlt hbefore.size_le
    rcases hwrap with rfl | ⟨hns, name, rfl⟩
    · have hold := (hafter.edges _ _ hscope).resolve_right (Nat.not_le.2 hlt₁)
      rw [hbefore.scope_eq] at hold
      exact (hbefore.edges _ _ hold).resolve_right (Nat.not_le.2 hlt)
    · have hlt₂ : id < (t₁.wrapped name).cells.size := by
        rw [Tree.size_wrapped]
        exact Nat.lt_succ_of_lt hlt₁
      have hold := (hafter.edges _ _ hscope).resolve_right (Nat.not_le.2 hlt₂)
      rw [Tree.scope_wrapped, Tree.children_wrapped_new] at hold
      have hroot : t.scope = Tree.root := by
        rw [Tree.scope, ← hbefore.namespace_eq, hns, Option.getD_none]
      rw [hroot]
      exact (hbefore.edges _ _ (List.mem_of_mem_drop hold)).resolve_right (Nat.not_le.2 hlt)
  exact List.find?_eq_none.1 hnone id hmem hlike

end GrowsWrapped

/-- A kind of node that passes make: nodes of it have a line of their own, and namespaces have names. -/
structure NodeKind.IsMade (kind : NodeKind) : Prop where
  /-- Nodes of the kind have a line of their own. -/
  hasLine : kind.HasLine
  /-- A namespace has a name. -/
  named : kind ≠ .namespaceDecl ""

/-- A kind of another form than a namespace, a file and source text is made as it is. -/
theorem NodeKind.IsMade.of_category {kind : NodeKind} (hfile : kind.category ≠ .file)
    (hverbatim : kind.category ≠ .verbatim) (hns : kind.category ≠ .namespaceDecl) : kind.IsMade := by
  cases kind with
  | file => exact absurd rfl hfile
  | verbatim => exact absurd rfl hverbatim
  | namespaceDecl => exact absurd rfl hns
  | _ => exact ⟨trivial, nofun⟩

/-- A head that grew is one of a kind that passes make. -/
theorem HeadGrows.isMade {k k' : NodeKind} (h : HeadGrows k k') : k'.IsMade := by
  cases h <;> exact ⟨trivial, nofun⟩

/-- A head that grew is one of the same form. -/
theorem HeadGrows.sameForm {k k' : NodeKind} (h : HeadGrows k k') : k.SameForm k' := by
  cases h with
  | ofClass name =>
    refine ⟨rfl, ?_⟩
    simp only [Reader.isAnonymous, NodeKind.category, NodeKind.name?, name]
  | ofInterface name => exact ⟨rfl, rfl⟩

namespace Pipeline

variable {name? : Option String} {t : Tree} {c : Change} {ps : Pipeline}

/-- The nodes that a step adds are of kinds that passes make. -/
theorem isMade_of_plan {p : Pass} (hp : p.Concerns name?)
    (hnamed : ∀ name, p = .namespaceDecl name → Name.bare name ≠ "") (h : p.plan t = .ok (some c))
    {id : Nat} (hid : t.cells.size ≤ id) (hlt : id < (c.apply t).cells.size) :
    ((c.apply t).node id).kind.IsMade := by
  have hform := (passStep_of_plan hp h).category_eq hid hlt
  by_cases hns : ∃ name, p = .namespaceDecl name
  · obtain ⟨name, rfl⟩ := hns
    rw [Pass.plan, Except.ok.injEq] at h
    split at h
    · cases h
    · obtain rfl := Option.some.inj h
      have hlast : id = t.cells.size := by
        rw [Change.apply, Tree.size_wrapped] at hlt
        omega
      rw [Change.apply, Tree.node_wrapped, if_pos hlast]
      exact ⟨trivial, fun he => hnamed name rfl (NodeKind.namespaceDecl.inj he)⟩
  · have hforms : p.makes? ≠ some .file ∧ p.makes? ≠ some .verbatim ∧ p.makes? ≠ some .namespaceDecl := by
      cases p with
      | namespaceDecl name => exact absurd ⟨name, rfl⟩ hns
      | _ => simp [Pass.makes?]
    obtain ⟨hfile, hverbatim, hnone⟩ := hforms
    rw [hform] at hfile hverbatim hnone
    exact .of_category (fun he => hfile (congrArg some he)) (fun he => hverbatim (congrArg some he))
      fun he => hnone (congrArg some he)

/-- A run leaves a closed tree, and the nodes that it adds are of kinds that passes make. -/
theorem isMade_run (hps : ∀ p ∈ ps, p.Concerns name?)
    (hnamed : ∀ name, Pass.namespaceDecl name ∈ ps → Name.bare name ≠ "") (hc : t.Closed) :
    ((run ps).on t).2.Closed ∧ ∀ id, t.cells.size ≤ id → id < ((run ps).on t).2.cells.size →
      (((run ps).on t).2.node id).kind.IsMade := by
  refine run_induction (P := fun s => s.Closed ∧ ∀ id, t.cells.size ≤ id → id < s.cells.size →
    (s.node id).kind.IsMade) (fun p hp s c ⟨hclosed, hmade⟩ hplan => ?_) ⟨hc, fun id hle hlt => ?_⟩
  · have hstep := passStep_of_plan (hps p hp) hplan
    refine ⟨Slot.closed_of_step hclosed hstep, fun id hle hlt => ?_⟩
    rcases Nat.lt_or_ge id s.cells.size with hold | hnew
    · have hgrows : GrowsWrapped name? s (c.apply s) :=
        GrowsWrapped.step ⟨s, s, .refl _ _, .inl rfl, .refl _ _⟩ hstep.grows_or_wraps
      rcases hgrows.node hold with he | ⟨-, hg⟩
      · rw [he]
        exact hmade id hle hold
      · obtain ⟨kind, hgrows, he⟩ := hg
        rw [he]
        exact hgrows.isMade
    · exact isMade_of_plan (hps p hp) (fun name he => hnamed name (he ▸ hp)) hplan hnew hlt
  · omega

end Pipeline

/-! ## Realizing a declaration -/

/-- Whether a namespace that a declaration has is named by more than backslashes. -/
def Declaration.ScopeNamed (d : Declaration) : Prop := ∀ name ∈ d.parts.scope?, Name.bare name ≠ ""

namespace Declaration

/-- The namespace that is set has a name. -/
theorem scopeNamed_setScope (d : Declaration) (name : String) :
    (d.mapParts fun p => p.setScope name).ScopeNamed := by
  have hparts : (d.mapParts fun p => p.setScope name).parts = d.parts.setScope name := by
    cases d <;> rfl
  intro other hscope
  rw [hparts, DeclarationParts.setScope, Option.mem_def, normalizeScope?] at hscope
  dsimp only at hscope
  split at hscope
  · cases hscope
  · next hne =>
    obtain rfl := Option.some.inj hscope
    exact Name.bare_bare_ne (by simpa using hne)

/-- The pass for a namespace is the one for the namespace of the declaration. -/
theorem scope?_of_mem_passes {d : Declaration} {name : String} (h : Pass.namespaceDecl name ∈ d.passes) :
    d.parts.scope? = some name := by
  rw [passes_eq, List.mem_append, List.mem_append] at h
  rcases h with hstrict | hscope | hinner
  · split at hstrict
    · exact nomatch List.mem_singleton.1 hstrict
    · cases hstrict
  · cases hs : d.parts.scope? with
    | none =>
      rw [hs] at hscope
      cases hscope
    | some other =>
      rw [hs] at hscope
      exact congrArg some (Pass.namespaceDecl.inj (List.mem_singleton.1 hscope)).symm
  · exact absurd rfl (makes_of_mem_inner hinner).1

end Declaration

/-! ## Namespaces that are read back -/

/-- A node that is no namespace with a name of backslashes alone. -/
def Node.ScopeNamed (n : Node) : Prop := ∀ name, n.kind = .namespaceDecl name → name = "" ∨ Name.bare name ≠ ""

namespace FileScan

variable {wanted : Node → Bool}

/-- Whether the namespace that was found is named by more than backslashes, if one was found. -/
def ScopeNamed (s : FileScan) : Prop := ∀ name ∈ s.scope?, Name.bare name ≠ ""

mutual

/-- The namespace that is found in an outline has a name. -/
theorem ScopeNamed.visit {s : FileScan} (hs : s.ScopeNamed) {o : Outline} (ho : o.All Node.ScopeNamed) :
    (s.visit wanted o).ScopeNamed := by
  cases o with
  | mk n children =>
    unfold FileScan.visit
    split
    · exact hs.visitAll ho.children
    · split
      · exact hs
      · exact hs
    · next name hkind =>
      refine ScopeNamed.visitAll (fun other hother => ?_) ho.children
      dsimp only at hother
      split at hother
      · cases hother
      · next hne =>
        obtain rfl := Option.some.inj hother
        exact (ho.node name hkind).resolve_left (by simpa using hne)
    · exact hs
    · split
      · exact hs
      · exact hs
    · split
      · exact hs
      · exact hs
    all_goals exact hs

/-- The namespace that is found in outlines has a name. -/
theorem ScopeNamed.visitAll {s : FileScan} (hs : s.ScopeNamed) {os : List Outline}
    (hos : ∀ o ∈ os, o.All Node.ScopeNamed) : (s.visitAll wanted os).ScopeNamed := by
  cases os with
  | nil =>
    rw [FileScan.visitAll]
    exact hs
  | cons o os =>
    obtain ⟨ho, hos⟩ := List.forall_mem_cons.1 hos
    rw [FileScan.visitAll]
    split
    · exact hs
    · exact (hs.visit ho).visitAll hos

end

/-- The namespace that is found in a file that was read has a name. -/
theorem scopeNamed_of_parse {source : String} {file : Outline} (h : Outline.parse source = .ok file)
    (wanted : Node → Bool) : (ofOutlines wanted [file]).ScopeNamed := by
  obtain ⟨statements, rfl, hread⟩ := Outline.isRead_of_parse h
  have hempty : ScopeNamed {} := nofun
  refine hempty.visitAll (List.forall_mem_singleton.2 (.mk nofun fun o ho => ?_))
  exact (hread o ho).mono fun n hn name hkind => (hn.scope name hkind).imp id Lexer.IsNameText.bare_ne

end FileScan

namespace Declaration

/-- The namespace of a class that is read back is the one that was found. -/
theorem scopeNamed_of_class {s : FileScan} (hs : s.ScopeNamed) {c : ClassSpec}
    (h : ClassSpec.ofScan? s = some c) : (ofClass c).ScopeNamed := by
  unfold ClassSpec.ofScan? at h
  obtain ⟨o, -, h⟩ := Option.bind_eq_some_iff.1 h
  split at h
  · obtain rfl := Option.some.inj h
    exact hs
  · cases h

/-- The namespace of an interface that is read back is the one that was found. -/
theorem scopeNamed_of_interface {s : FileScan} (hs : s.ScopeNamed) {i : InterfaceSpec}
    (h : InterfaceSpec.ofScan? s = some i) : (ofInterface i).ScopeNamed := by
  unfold InterfaceSpec.ofScan? at h
  obtain ⟨o, -, h⟩ := Option.bind_eq_some_iff.1 h
  split at h
  · obtain rfl := Option.some.inj h
    exact hs
  · cases h

/-- The namespace of a declaration that is read back from a file that was read has a name. -/
theorem scopeNamed_of_parse {source : String} {file : Outline} {d : Declaration}
    (h : Outline.parse source = .ok file) (hd : Declaration.ofFile file = .ok d) : d.ScopeNamed := by
  have hscan := FileScan.scopeNamed_of_parse h fun _ => true
  unfold ofFile at hd
  split at hd
  · next other hrecover =>
    obtain rfl := Except.ok.inj hd
    unfold recover? at hrecover
    dsimp only at hrecover
    split at hrecover
    · obtain ⟨i, hi, rfl⟩ := Option.map_eq_some_iff.1 hrecover
      exact scopeNamed_of_interface hscan hi
    · obtain ⟨c, hc, rfl⟩ := Option.map_eq_some_iff.1 hrecover
      exact scopeNamed_of_class hscan hc
    · cases hrecover
  · cases hd

end Declaration

/-! ## Lines after a run -/

namespace Tree

variable {t : Tree}

/-- What is reached from nodes that have lines of their own has lines. -/
theorem hasLines_unfold (hc : t.Closed) (h : ∀ id, 0 < id → id < t.cells.size → (t.node id).kind.HasLine)
    (fuel : Nat) {id : Nat} (hpos : 0 < id) (hlt : id < t.cells.size) : (t.unfold fuel id).HasLines := by
  induction fuel generalizing id with
  | zero => exact all_leaf (h id hpos hlt)
  | succ fuel ih =>
    refine .mk (h id hpos hlt) fun o ho => ?_
    obtain ⟨c, hmem, rfl⟩ := List.mem_map.1 ho
    obtain ⟨hcpos, hclt⟩ := hc id c hmem
    exact ih hcpos hclt

/-- What is reached from the root has lines if the other nodes have lines of their own. -/
theorem hasLines_outline (hc : t.Closed) (h : ∀ id, 0 < id → id < t.cells.size → (t.node id).kind.HasLine) :
    ∀ o ∈ t.outline.children, o.HasLines := by
  intro o ho
  rw [outline] at ho
  obtain ⟨fuel, hfuel⟩ := Nat.exists_eq_succ_of_ne_zero (Nat.ne_of_gt t.rooted)
  rw [hfuel] at ho
  obtain ⟨c, hmem, rfl⟩ := List.mem_map.1 ho
  obtain ⟨hpos, hlt⟩ := hc root c hmem
  exact hasLines_unfold hc h fuel hpos hlt

/-- With another head, a tree is closed if it is without. -/
theorem closed_withKind (hc : t.Closed) (id : NodeId) (kind : NodeKind) : (t.withKind id kind).Closed := by
  intro p c hmem
  rw [withKind, children_modifyNode] at hmem
  rw [withKind, size_modifyNode]
  exact hc p c hmem

end Tree

/-- The line of a head that is a line. -/
theorem linesOf_head {s : String} (h : IsLine s) (indent : Indent) (depth : Nat) :
    Text.linesOf (LineBuffer.marginAt indent depth ++ s ++ "\n") = [LineBuffer.marginAt indent depth ++ s] := by
  have hmargin : Text.IsMargin (LineBuffer.marginAt indent depth).toList := LineBuffer.isMargin_margin _
  have hline : ∀ c ∈ (LineBuffer.marginAt indent depth ++ s).toList, c ≠ '\n' ∧ c ≠ '\r' := by
    rw [String.toList_append]
    refine List.forall_mem_append.2 ⟨fun c hc => ?_, h⟩
    rcases hmargin c hc with rfl | rfl <;> exact ⟨by decide, by decide⟩
  rw [Text.linesOf, String.toList_append]
  change (Text.lines (_ ++ '\n' :: [])).map _ = _
  rw [Text.lines_append (fun hmem => (hline _ hmem).1 rfl)
    (fun hlast => (hline _ (List.mem_of_getLast? hlast)).2 rfl)]
  simp [Text.lines, Text.rows]

/-- What a run leaves of a tree that was read. -/
structure IsRun (name? : Option String) (t t' : Tree) : Prop where
  /-- The tree grows, and its statements may be put into a namespace. -/
  grown : GrowsWrapped name? t t'
  /-- The tree is closed. -/
  closed : t.Closed
  /-- It still is. -/
  closed_after : t'.Closed
  /-- The nodes below the root were read. -/
  read : ∀ id, 0 < id → id < t.cells.size → (t.node id).kind.IsRead
  /-- The other nodes were made by passes. -/
  made : ∀ id, t.cells.size ≤ id → id < t'.cells.size → (t'.node id).kind.IsMade

namespace IsRun

variable {name? : Option String} {t t' b : Tree} {id : Nat}

/-- The outline of the tree has lines. -/
theorem hasLines (h : IsRun name? t t') : ∀ o ∈ t.outline.children, o.HasLines :=
  Tree.hasLines_outline h.closed fun id hpos hlt => (h.read id hpos hlt).hasLine

/-- The outline of the tree after the run has lines. -/
theorem hasLines_after (h : IsRun name? t t') : ∀ o ∈ t'.outline.children, o.HasLines := by
  refine Tree.hasLines_outline h.closed_after fun id hpos hlt => ?_
  rcases Nat.lt_or_ge id t.cells.size with hold | hnew
  · rcases h.grown.node hold with he | ⟨-, kind, hgrows, he⟩
    · rw [he]
      exact (h.read id hpos hold).hasLine
    · rw [he]
      exact hgrows.isMade.hasLine
  · exact (h.made id hnew hlt).hasLine

/-- The outline with the head of another class or interface of the same form has lines. -/
theorem hasLines_withKind (h : IsRun name? t t') {kind : NodeKind}
    (hlike : (t.node id).kind.category.isClassLike = true) (hform : (t.node id).kind.SameForm kind) :
    ∀ o ∈ (t.withKind id kind).outline.children, o.HasLines := by
  refine Tree.hasLines_outline (Tree.closed_withKind h.closed id kind) fun other hpos hlt => ?_
  rw [Tree.withKind, Tree.size_modifyNode] at hlt
  rw [Tree.withKind, Tree.node_modifyNode]
  split
  · rw [hform.1] at hlike
    cases kind <;> trivial
  · exact (h.read other hpos hlt).hasLine

/-- What is reached from the root is kept, with the head that the declaration has after the run. -/
theorem kept (h : IsRun name? t t') (hsize : b.cells.size = t.cells.size)
    (hchildren : ∀ id, b.children id = t.children id)
    (hnode : ∀ id, id < t.cells.size → t'.node id = b.node id) :
    Kept b.outline.children t'.outline.children := by
  have hinside : b.Inside t' := by
    refine ⟨fun p c hc => ?_, fun id _ hlt => hnode id (hsize ▸ hlt), fun id hpos hlt => ?_⟩
    · rw [hsize]
      exact h.closed p c (hchildren p ▸ hc)
    · rw [hchildren]
      exact h.grown.children (hsize ▸ hlt) (Nat.ne_of_gt hpos)
  rcases h.grown.root_cases with hstays | ⟨ids, ids', w, name, hids, hahead, hinner, hle, hlt, hkind⟩
  · exact hinside.kept (hsize ▸ h.grown.size_le) (hchildren _ ▸ hstays)
  · have hnamed : name ≠ "" := fun he => (h.made w hle hlt).named (he ▸ hkind)
    exact hinside.kept_wrapped (by omega) ((hchildren _).trans hids) hahead hinner hkind hnamed

/-- Where there is no declaration of the name, all lines are kept. -/
theorem lines_sublist (h : IsRun name? t t') (hnone : t.findClassLike? name? = none) (indent : Indent) :
    (Text.linesOf (t.outline.print indent)).Sublist (Text.linesOf (t'.outline.print indent)) := by
  have hnode (id : Nat) (hlt : id < t.cells.size) : t'.node id = t.node id :=
    (h.grown.node hlt).resolve_right fun ⟨hfind, _⟩ =>
      Nat.not_le.2 hlt (h.grown.le_of_find hnone hfind)
  exact (h.kept rfl (fun _ => rfl) hnode).linesOf_print_sublist h.hasLines h.hasLines_after indent

/-- Where there is one, its head is of the same form after the run, and all lines are kept of the outline
with that head. -/
theorem exists_kind (h : IsRun name? t t') (hfind : t.findClassLike? name? = some id) (indent : Indent) :
    ∃ kind, (t.node id).kind.SameForm kind ∧
      (Text.linesOf ((t.withKind id kind).outline.print indent)).Sublist
        (Text.linesOf (t'.outline.print indent)) := by
  have hlt := lt_of_find hfind
  have hlike := isClassLike_category (isClassLike_of_find hfind)
  have hfind' := h.grown.find hfind
  obtain ⟨kind, hform, hsame⟩ : ∃ kind, (t.node id).kind.SameForm kind ∧
      t'.node id = { t.node id with kind } := by
    rcases h.grown.node hlt with he | ⟨-, kind, hgrows, he⟩
    · exact ⟨(t.node id).kind, ⟨rfl, rfl⟩, he⟩
    · exact ⟨kind, hgrows.sameForm, he⟩
  refine ⟨kind, hform, ?_⟩
  have hnode (other : Nat) (hother : other < t.cells.size) :
      t'.node other = (t.withKind id kind).node other := by
    rw [Tree.withKind, Tree.node_modifyNode]
    split
    · next he => rw [he.1, hsame]
    · next hne =>
      refine (h.grown.node hother).resolve_right fun hhead => hne ?_
      exact ⟨Option.some.inj (hhead.1.symm.trans hfind'), hlt⟩
  have hkept := h.kept (b := t.withKind id kind) (by rw [Tree.withKind, Tree.size_modifyNode])
    (fun _ => by rw [Tree.withKind, Tree.children_modifyNode]) hnode
  exact hkept.linesOf_print_sublist (h.hasLines_withKind hlike hform) h.hasLines_after indent

end IsRun

/-- Realizing a declaration in a file that was read is such a run. -/
theorem isRun_realize {source : String} {file : Outline} (hparse : Outline.parse source = .ok file)
    {d : Declaration} (hscope : d.ScopeNamed) :
    IsRun d.name? (Tree.ofOutline file) (d.realize.on (Tree.ofOutline file)).2 := by
  obtain ⟨statements, rfl, hread⟩ := Outline.isRead_of_parse hparse
  have hclosed := Tree.closed_ofOutline (.file statements)
  have hrun := Pipeline.isMade_run (Declaration.concerns_passes d)
    (fun name h => hscope name (Declaration.scope?_of_mem_passes h)) hclosed
  exact ⟨d.growsWrapped_realize _, hclosed, hrun.1,
    fun _ hpos hlt => Tree.node_ofOutline (o := .file statements) hread hpos hlt, hrun.2⟩

/-- A declaration is realized in a file that was read. Unless the file has a class or interface of the
name, all lines that it is printed with are printed afterwards, too, in their order. If it has one, its
head is one line of the file, the one that is another when the head is, and all other lines are printed
afterwards in their order. This holds wherever the run ends. -/
theorem realize_keeps_lines {source : String} {file : Outline} (hparse : Outline.parse source = .ok file)
    {d : Declaration} (hscope : d.ScopeNamed) (indent : Indent) :
    ((Tree.ofOutline file).findClassLike? d.name? = none →
      (Text.linesOf (file.print indent)).Sublist
        (Text.linesOf ((d.realize.on (Tree.ofOutline file)).2.outline.print indent))) ∧
    ∀ id, (Tree.ofOutline file).findClassLike? d.name? = some id →
      ∃ (depth : Nat) (before after : List String),
        Text.linesOf (file.print indent) = before ++
          (LineBuffer.marginAt indent depth ++ ((Tree.ofOutline file).node id).kind.headLine) :: after ∧
        (∀ kind, HeadGrows ((Tree.ofOutline file).node id).kind kind →
          Text.linesOf (((Tree.ofOutline file).withKind id kind).outline.print indent) = before ++
            (Text.linesOf (LineBuffer.marginAt indent depth ++ kind.headLine ++ "\n") ++ after)) ∧
        (before ++ after).Sublist
          (Text.linesOf ((d.realize.on (Tree.ofOutline file)).2.outline.print indent)) := by
  have hrun := isRun_realize hparse hscope
  refine ⟨fun hnone => ?_, fun id hfind => ?_⟩
  · have hlines := hrun.lines_sublist hnone indent
    rwa [Tree.outline_ofOutline] at hlines
  · have hlike := isClassLike_category (isClassLike_of_find hfind)
    have hpos : 0 < id := (hrun.closed _ _ (mem_of_find hfind)).1
    have hhead := (hrun.read id hpos (lt_of_find hfind)).head
    obtain ⟨items, hitems, hself, houtline⟩ := Tree.exists_headAt hfind
    have hat : HeadAt ((Tree.ofOutline file).node id).kind
        fun kind => ((Tree.ofOutline file).withKind id kind).outline.children := by
      simp only [houtline]
      exact hitems
    obtain ⟨depth, before, after, hlines⟩ :=
      hat.exists_linesOf_print hlike (fun _ hform => hrun.hasLines_withKind hlike hform) indent
    obtain ⟨kind, hform, hkept⟩ := hrun.exists_kind hfind indent
    refine ⟨depth, before, after, ?_, fun kind hgrows => hlines kind hgrows.sameForm, ?_⟩
    · have hown := hlines _ ⟨rfl, rfl⟩
      rwa [Tree.withKind_self, Tree.outline_ofOutline, linesOf_head hhead] at hown
    · rw [hlines kind hform] at hkept
      exact ((List.sublist_append_right _ after).append_left before).trans hkept

/-- A file with a comment and a class without members. -/
def pointByHand : String := "<?php\n// written by hand\n\nclass Point {}\n"

/-- The class with a parent, in a namespace. -/
def shapedPoint : Declaration :=
  .mapParts (fun p => p.setScope "\\App") (.ofClass { ClassSpec.new "Point" with parent? := some "Shape" })

/-- The comment is kept when the class is given a parent and a namespace. -/
theorem realize_keeps_lines_point : ∃ file id, Outline.parse pointByHand = .ok file ∧
    (Tree.ofOutline file).findClassLike? shapedPoint.name? = some id ∧
    ∃ depth before after, Text.linesOf (file.print (.spaces 4)) = before ++
        (LineBuffer.marginAt (.spaces 4) depth ++ ((Tree.ofOutline file).node id).kind.headLine) :: after ∧
      (before ++ after).Sublist
        (Text.linesOf ((shapedPoint.realize.on (Tree.ofOutline file)).2.outline.print (.spaces 4))) := by
  have hcheck : (match Outline.parse pointByHand with
      | .ok file => ((Tree.ofOutline file).findClassLike? shapedPoint.name?).isSome
      | .error _ => false) = true := by decide +kernel
  cases hparse : Outline.parse pointByHand with
  | error e =>
    rw [hparse] at hcheck
    cases hcheck
  | ok file =>
    rw [hparse] at hcheck
    obtain ⟨id, hfind⟩ := Option.isSome_iff_exists.1 hcheck
    have hscope : shapedPoint.ScopeNamed := Declaration.scopeNamed_setScope _ _
    obtain ⟨depth, before, after, hlines, -, hsub⟩ :=
      (realize_keeps_lines hparse hscope (.spaces 4)).2 id hfind
    exact ⟨file, id, rfl, hfind, depth, before, after, hlines, hsub⟩

end PhpGraft

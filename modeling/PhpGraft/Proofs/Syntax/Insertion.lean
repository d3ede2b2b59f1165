import Mathlib.Data.List.Flatten
import PhpGraft.Proofs.Syntax.Entries

/-!
# Lines that stay

A printed file keeps its lines, in their order, when nodes are put between the ones that it has and when
its statements are put under a namespace (`Kept.linesOf_print_sublist`). That nothing else becomes of them
is because of the blank lines: between two items of a scope there is one unless both are of the same
form, so that there is still one when others stand between them. Another head of a class or interface
changes the line that the head is on, and no other (`HeadAt.exists_linesOf_print`).
-/

namespace PhpGraft

open LineBuffer

/-- Items that are not separated are of one form. -/
theorem Category.eq_of_separated {c c' : Category} (h : c.separated c' = false) : c = c' := by
  unfold separated at h
  rw [Bool.not_eq_false', Bool.and_eq_true] at h
  exact eq_of_beq h.2

namespace Outline

/-- Items of a scope with more between them and below them, and perhaps under a namespace that has a
name. -/
inductive Kept : List Outline → List Outline → Prop
  /-- No items. -/
  | nil : Kept [] []
  /-- One item more. -/
  | skip (o' : Outline) {os os' : List Outline} (h : Kept os os') : Kept os (o' :: os')
  /-- An item with more below it. -/
  | keep (n : Node) {cs cs' os os' : List Outline} (below : Kept cs cs') (behind : Kept os os') :
    Kept (mk n cs :: os) (mk n cs' :: os')
  /-- All items under a namespace. -/
  | wrap {n : Node} {name : String} (kind : n.kind = .namespaceDecl name) (named : name ≠ "")
    {os os' : List Outline} (h : Kept os os') (rest : List Outline) : Kept os (mk n os' :: rest)

/-- Items in one of which, or below, the head of a class or interface can be another one. -/
inductive HeadAt (head : NodeKind) : (NodeKind → List Outline) → Prop
  /-- The first item is the class or interface. -/
  | here {n : Node} (kind : n.kind = head) (cs rest : List Outline) :
    HeadAt head fun kind => mk { n with kind } cs :: rest
  /-- The class or interface is behind the first item. -/
  | behind (o : Outline) {items : NodeKind → List Outline} (h : HeadAt head items) :
    HeadAt head fun kind => o :: items kind
  /-- The class or interface is below the first item. -/
  | inside {n : Node} (nests : n.kind.nesting ≠ .none) {items : NodeKind → List Outline}
    (h : HeadAt head items) (rest : List Outline) : HeadAt head fun kind => mk n (items kind) :: rest

variable {os os' : List Outline} {before? after? : Option Category}

/-- Ahead of an item there is at most one blank line. -/
theorem separation_sublist (before? : Option Category) (c : Category) :
    (separation before? c).Sublist [""] := by
  unfold separation
  split
  · exact List.Sublist.refl _
  · exact List.nil_sublist _

/-- Whatever stands before some items, there is at most a blank line more ahead of them. -/
theorem entriesAll_sublist (before? : Option Category) (h : ∀ o ∈ os, o.HasLines) (i : Indent) (d : Nat) :
    (entriesAll before? os i d).Sublist ("" :: entriesAll none os i d) := by
  cases os with
  | nil => exact List.nil_sublist _
  | cons o os =>
    rw [entriesAll_cons before? h, entriesAll_cons none h]
    exact (separation_sublist before? _).append_right _

/-- Nothing is kept of items where there are none. -/
theorem Kept.eq_nil (h : Kept os []) : os = [] := by
  cases h
  rfl

/-- The children of a node are written with all their entries where more stands between them. -/
theorem Kept.nesting_sublist (h : Kept os os')
    (hsub : ∀ i d, (entriesAll none os i d).Sublist (entriesAll none os' i d)) (nesting : Nesting)
    (i : Indent) (d : Nat) : (nesting.entries os i d).Sublist (nesting.entries os' i d) := by
  cases nesting with
  | none => exact List.Sublist.refl _
  | deeper => exact hsub i (d + 1)
  | spaced =>
    cases os' with
    | nil => exact h.eq_nil ▸ List.Sublist.refl _
    | cons o' os' =>
      rw [Nesting.entries, Nesting.entries, List.isEmpty_cons, if_neg Bool.false_ne_true]
      split
      · exact List.nil_sublist _
      · exact (hsub i d).cons_cons ""

/-- Items are written with all their entries behind a new one if they are behind none and behind the same
one. -/
theorem entriesAll_sublist_new {o' : Outline} (hos : ∀ o ∈ os, o.HasLines)
    (hos' : ∀ o ∈ o' :: os', o.HasLines) (i : Indent) (d : Nat)
    (hsub : ∀ before? after?, before? = none ∨ before? = after? →
      (entriesAll before? os i d).Sublist (entriesAll after? os' i d))
    (hbefore : before? = none ∨ before? = after?) :
    (entriesAll before? os i d).Sublist (entriesAll after? (o' :: os') i d) := by
  have hbehind := hsub none (some o'.category) (.inl rfl)
  rw [entriesAll_cons after? hos']
  rcases hbefore with rfl | rfl
  · exact (hbehind.trans (List.sublist_append_right _ _)).trans (List.sublist_append_right _ _)
  · cases before? with
    | none => exact (hbehind.trans (List.sublist_append_right _ _)).trans (List.sublist_append_right _ _)
    | some c =>
      cases hsep : c.separated o'.category with
      | true =>
        -- there is a blank line ahead of the new item, so that there may be one behind it or not
        have hblank : separation (some c) o'.category = [""] := if_pos hsep
        rw [hblank]
        refine (entriesAll_sublist (some c) hos i d).trans (List.Sublist.cons_cons "" ?_)
        exact hbehind.trans (List.sublist_append_right _ _)
      | false =>
        -- the new item counts for the next one as the item before it does
        rw [← Category.eq_of_separated hsep]
        have hsame := hsub (some c) (some c) (.inr rfl)
        exact (hsame.trans (List.sublist_append_right _ _)).trans (List.sublist_append_right _ _)

/-- Items are written with all their entries where more stands between them, provided that the same item
stands before them, or none. -/
theorem Kept.entries_sublist (h : Kept os os') (hos : ∀ o ∈ os, o.HasLines)
    (hos' : ∀ o ∈ os', o.HasLines) (hbefore : before? = none ∨ before? = after?) (i : Indent) (d : Nat) :
    (entriesAll before? os i d).Sublist (entriesAll after? os' i d) := by
  induction h generalizing before? after? i d with
  | nil => exact List.nil_sublist _
  | @skip o' os os' h ih =>
    have hrest := (List.forall_mem_cons.1 hos').2
    exact entriesAll_sublist_new hos hos' i d (fun _ _ h => ih hos hrest h i d) hbefore
  | @keep n cs cs' os os' below behind ihbelow ihbehind =>
    obtain ⟨ho, hrest⟩ := List.forall_mem_cons.1 hos
    obtain ⟨ho', hrest'⟩ := List.forall_mem_cons.1 hos'
    have hn : n.kind.HasLine := ho.node
    obtain ⟨top, bottom, hentries⟩ := exists_entries hn i d
    have hbelow (i : Indent) (d : Nat) : (entriesAll none cs i d).Sublist (entriesAll none cs' i d) :=
      ihbelow ho.children ho'.children (.inl rfl) i d
    rw [entriesAll_cons before? hos, entriesAll_cons after? hos', hentries cs ho.children,
      hentries cs' ho'.children]
    refine List.Sublist.append ?_ (List.Sublist.append ?_ (ihbehind hrest hrest' (.inr rfl) i d))
    · rcases hbefore with rfl | rfl
      · exact List.nil_sublist _
      · exact List.Sublist.refl _
    · exact ((below.nesting_sublist hbelow _ i d).append_left top).append_right bottom
  | @wrap n name kind named os os' h rest ih =>
    obtain ⟨ho', -⟩ := List.forall_mem_cons.1 hos'
    have hn : n.kind.HasLine := ho'.node
    obtain ⟨top, bottom, hentries⟩ := exists_entries hn i d
    have hkept : (entriesAll none os i d).Sublist (entriesAll none os' i d) :=
      ih hos ho'.children (.inl rfl) i d
    have hnesting : n.kind.nesting = .spaced := by
      rw [kind]
      exact if_neg (by simpa using named)
    have hall : (entriesAll before? os i d).Sublist (Nesting.spaced.entries os' i d) := by
      cases os' with
      | nil =>
        rw [h.eq_nil]
        exact List.nil_sublist _
      | cons o' os' => exact (entriesAll_sublist before? hos i d).trans (hkept.cons_cons "")
    rw [entriesAll_cons after? hos', hentries os' ho'.children, hnesting]
    refine hall.trans (List.Sublist.trans ?_ (List.sublist_append_right _ _))
    exact ((List.sublist_append_right top _).trans (List.sublist_append_left _ bottom)).trans
      (List.sublist_append_left _ _)

/-- There are items where there is a head. -/
theorem HeadAt.ne_nil {head kind : NodeKind} {items : NodeKind → List Outline} (h : HeadAt head items) :
    items kind ≠ [] := by
  cases h <;> exact List.cons_ne_nil _ _

/-- Among the entries of items, another head is another entry in the same place. -/
theorem HeadAt.exists_entries {head : NodeKind} {items : NodeKind → List Outline} (h : HeadAt head items)
    (hlike : head.category.isClassLike = true)
    (hitems : ∀ kind, head.SameForm kind → ∀ o ∈ items kind, o.HasLines) (before? : Option Category)
    (i : Indent) (d : Nat) : ∃ (depth : Nat) (before after : List String), ∀ kind, head.SameForm kind →
      entriesAll before? (items kind) i d = before ++ (marginAt i depth ++ kind.headLine) :: after := by
  induction h generalizing before? i d with
  | @here n hkind cs rest =>
    subst hkind
    have hcs : ∀ c ∈ cs, c.HasLines := (List.forall_mem_cons.1 (hitems n.kind ⟨rfl, rfl⟩)).1.children
    obtain ⟨before, after, hentries⟩ := exists_entries_head n hlike hcs i d
    refine ⟨d, separation before? n.kind.category ++ before,
      after ++ entriesAll (some n.kind.category) rest i d, fun kind hform => ?_⟩
    have hcategory : (mk { n with kind } cs).category = n.kind.category := hform.1.symm
    rw [entriesAll_cons before? (hitems kind hform), hentries kind hform, hcategory]
    simp
  | @behind o items _ ih =>
    obtain ⟨depth, before, after, hentries⟩ :=
      ih (fun kind hform => (List.forall_mem_cons.1 (hitems kind hform)).2) (some o.category) i d
    refine ⟨depth, separation before? o.category ++ (o.entries i d ++ before), after,
      fun kind hform => ?_⟩
    rw [entriesAll_cons before? (hitems kind hform), hentries kind hform]
    simp
  | @inside n nests items h rest ih =>
    have hchildren (kind : NodeKind) (hform : head.SameForm kind) : ∀ c ∈ items kind, c.HasLines :=
      (List.forall_mem_cons.1 (hitems kind hform)).1.children
    have hn : n.kind.HasLine := (List.forall_mem_cons.1 (hitems head ⟨rfl, rfl⟩)).1.node
    obtain ⟨top, bottom, hnode⟩ := Outline.exists_entries hn i d
    obtain ⟨depth, before, after, hentries⟩ : ∃ (depth : Nat) (before after : List String), ∀ kind,
        head.SameForm kind →
          n.kind.nesting.entries (items kind) i d =
            before ++ (marginAt i depth ++ kind.headLine) :: after := by
      cases hnesting : n.kind.nesting with
      | none => exact absurd hnesting nests
      | deeper => exact ih hchildren none i (d + 1)
      | spaced =>
        obtain ⟨depth, before, after, hentries⟩ := ih hchildren none i d
        refine ⟨depth, "" :: before, after, fun kind hform => ?_⟩
        rw [Nesting.entries, if_neg (by simpa using h.ne_nil), hentries kind hform]
        rfl
    refine ⟨depth, separation before? n.category ++ (top ++ before),
      after ++ (bottom ++ entriesAll (some n.category) rest i d), fun kind hform => ?_⟩
    rw [entriesAll_cons before? (hitems kind hform), hnode _ (hchildren kind hform), hentries kind hform]
    simp [Outline.category, Outline.node]

/-! ## Printed files -/

/-- A file is printed as its entries with a newline behind each of them. -/
theorem print_eq {file : Outline} (h : ∀ o ∈ file.children, o.HasLines) (indent : Indent) :
    file.print indent =
      String.join (("<?php" :: Nesting.spaced.entries file.children indent 0).map (· ++ "\n")) := by
  have htext (es : List String) :
      ((LineBuffer.empty indent).put es).text = String.join (es.map (· ++ "\n")) := by
    simp [put, LineBuffer.text, LineBuffer.empty]
  have hopen := Puts.line "<?php" (LineBuffer.empty indent)
  have hall := ((Puts.line "<?php").comp .blank).comp (puts_writeAll none h) (LineBuffer.empty indent)
  dsimp only at hopen hall
  unfold print
  dsimp only
  rw [Nesting.entries]
  split
  · rw [hopen, htext]
    rfl
  · rw [hall, htext]
    rfl

/-- The lines of a printed file are those of its entries. -/
theorem linesOf_print {file : Outline} (h : ∀ o ∈ file.children, o.HasLines) (indent : Indent) :
    Text.linesOf (file.print indent) =
      ("<?php" :: Nesting.spaced.entries file.children indent 0).flatMap fun e =>
        Text.linesOf (e ++ "\n") := by
  rw [print_eq h, Text.linesOf_join]

/-- A printed file has all lines of one that has less in it. -/
theorem Kept.linesOf_print_sublist {file file' : Outline} (h : Kept file.children file'.children)
    (hfile : ∀ o ∈ file.children, o.HasLines) (hfile' : ∀ o ∈ file'.children, o.HasLines)
    (indent : Indent) :
    (Text.linesOf (file.print indent)).Sublist (Text.linesOf (file'.print indent)) := by
  rw [linesOf_print hfile, linesOf_print hfile']
  have hnesting := h.nesting_sublist (h.entries_sublist hfile hfile' (.inl rfl)) .spaced indent 0
  exact (hnesting.cons_cons "<?php").flatMap _

/-- Among the lines of printed files that differ in the head of a class or interface, the line of that
head stands between lines that are the same. -/
theorem HeadAt.exists_linesOf_print {head : NodeKind} {file : NodeKind → Outline}
    (h : HeadAt head fun kind => (file kind).children) (hlike : head.category.isClassLike = true)
    (hfile : ∀ kind, head.SameForm kind → ∀ o ∈ (file kind).children, o.HasLines) (indent : Indent) :
    ∃ (depth : Nat) (before after : List String), ∀ kind, head.SameForm kind →
      Text.linesOf ((file kind).print indent) =
        before ++ (Text.linesOf (marginAt indent depth ++ kind.headLine ++ "\n") ++ after) := by
  obtain ⟨depth, before, after, hentries⟩ := h.exists_entries hlike hfile none indent 0
  refine ⟨depth, ("<?php" :: "" :: before).flatMap fun e => Text.linesOf (e ++ "\n"),
    after.flatMap fun e => Text.linesOf (e ++ "\n"), fun kind hform => ?_⟩
  rw [linesOf_print (hfile kind hform), Nesting.entries, if_neg (by simpa using h.ne_nil),
    hentries kind hform]
  simp only [← List.cons_append, List.flatMap_append, List.flatMap_cons]

end Outline

end PhpGraft

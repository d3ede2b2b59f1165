import PhpGraft.Proofs.Declaration.Lookup
import PhpGraft.Proofs.Model.NameMap
import PhpGraft.Proofs.Syntax.Shape

/-!
# Realizing what was read back

A declaration is read back by a scan that goes through all namespaces of a file. Its passes look at
the first namespace only, and at the statements of the file itself for the directive for strict types.
So they leave the file as it is exactly when what the scan found is in their sight
(`readBack_unchanged_iff`). In a file with one scope the only thing that can be out of sight is the
declaration, behind another one of its name (`inSight_iff_of_hasOneScope`).
-/

namespace PhpGraft

open Edit

namespace Slot

/-- The slots of a declaration of a form that are read back. -/
def ofForm : Category → List Slot
  | .classDecl => [parent, heritage, traits, constants, properties, methods]
  | .interfaceDecl => [heritage, constants, methods]
  | _ => []

/-- The names of a slot in the head of a declaration. -/
theorem namesOf_of_category? {s : Slot} {o : Outline} (hs : s.category? = none) :
    s.namesOf o = s.inHead o.node.kind := by
  have hchildren : (o.children.flatMap fun c => s.inChild c.node) = [] := by
    refine List.flatMap_eq_nil_iff.2 fun c _ => inChild_eq_nil ?_
    rw [hs]
    exact nofun
  rw [namesOf, hchildren, List.append_nil]

/-- Imports are not read back from a declaration. -/
theorem ne_imports {s : Slot} {c : Category} (h : s ∈ ofForm c) : s ≠ imports := by
  rintro rfl
  cases c <;> exact absurd h (by decide)

/-- Names of one key are the same as the same names. -/
theorem same_congr (s : Slot) {a b : String} (h : s.keyOf a = s.keyOf b) (n : String) :
    s.same n a = s.same n b := by
  rw [s.same_eq, s.same_eq, h]

end Slot

namespace Outline

/-- Whether a declaration has all names of another one, in a declaration of the same form where the
form counts. -/
def Covers (found o : Outline) : Prop :=
  ∀ s ∈ Slot.ofForm o.category, ∀ w ∈ s.namesOf o,
    (s.bindsForm = true → found.category = o.category) ∧ ∃ n ∈ s.namesOf found, s.same n w = true

instance (found o : Outline) : Decidable (found.Covers o) :=
  inferInstanceAs (Decidable (∀ s ∈ Slot.ofForm o.category, ∀ w ∈ s.namesOf o,
    (s.bindsForm = true → found.category = o.category) ∧
      ∃ n ∈ s.namesOf found, s.same n w = true))

end Outline

namespace FileScan

/-- Whether the passes see what a scan found: the directive among the statements of the file, the
imports in its scope, and the declaration, or one that has all of its names, as the first one of its
name there. -/
structure InSight (s : FileScan) (file : Outline) : Prop where
  /-- The directive for strict types. -/
  strict : s.strict = true → ∃ c ∈ file.children, isStrictDirective c.node = true
  /-- The imports. -/
  imports : ∀ i ∈ s.imports, ∃ n ∈ Slot.imports.namesOf file.scope, Name.same n i.name = true
  /-- The declaration. -/
  declaration : ∀ o, s.declaration? = some o →
    ∃ found, file.findClassLike? o.node.name? = some found ∧ found.Covers o

instance (s : FileScan) (file : Outline) : Decidable (s.InSight file) :=
  decidable_of_iff ((s.strict = true → ∃ c ∈ file.children, isStrictDirective c.node = true) ∧
      (∀ i ∈ s.imports, ∃ n ∈ Slot.imports.namesOf file.scope, Name.same n i.name = true) ∧
        ∀ o ∈ s.declaration?, ∃ found ∈ file.findClassLike? o.node.name?, found.Covers o)
    ⟨fun ⟨hstrict, himports, ho⟩ => ⟨hstrict, himports, ho⟩,
      fun h => ⟨h.strict, h.imports, h.declaration⟩⟩

/-- A declaration that is made from what a scan found. -/
inductive Yields (s : FileScan) : Declaration → Prop
  /-- A class. -/
  | ofClass {c : ClassSpec} (h : ClassSpec.ofScan? s = some c) : s.Yields (.ofClass c)
  /-- An interface. -/
  | ofInterface {i : InterfaceSpec} (h : InterfaceSpec.ofScan? s = some i) :
    s.Yields (.ofInterface i)

end FileScan

/-! ## What is read back -/

section Recovery

/-- The names of the members that are read back are the names in their slot. -/
theorem map_filterMap_recover {α : Type} {f : Node → Option α} {nameOf : α → String} {slot : Slot}
    (h : ∀ n, ((f n).map nameOf).toList = slot.inChild n) (os : List Outline) :
    ((os.map Outline.node).filterMap f).map nameOf = os.flatMap fun o => slot.inChild o.node := by
  induction os with
  | nil => rfl
  | cons o os ih =>
    rw [List.map_cons, List.flatMap_cons, ← ih, ← h, List.filterMap_cons]
    cases f o.node <;> rfl

variable {P : String → Prop}

/-- What depends on keys only holds of the names in a map of what was read back exactly when it holds of
the names that were read. -/
theorem forall_names_iff {α : Type} [Keyed α] {l : List α} {names : List String}
    (hl : l.map Keyed.name = names)
    (hP : ∀ a b, Keyed.keyOf α a = Keyed.keyOf α b → (P a ↔ P b)) :
    (∀ w ∈ (NameMap.ofList l).names, P w) ↔ ∀ w ∈ names, P w := by
  rw [NameMap.forall_names_ofList hP, ← hl, List.forall_mem_map]

/-- The interfaces that are read back are those in the head of the declaration. -/
theorem forall_interfaces {l : List String} {o : Outline} (hl : l = Slot.heritage.namesOf o)
    (hP : ∀ a b, Slot.heritage.keyOf a = Slot.heritage.keyOf b → (P a ↔ P b)) :
    (∀ w ∈ (NameMap.ofList l).names, P w) ↔ ∀ w ∈ Slot.heritage.namesOf o, P w :=
  forall_names_iff (l.map_id.trans hl) hP

variable (o : Outline)

/-- The traits that are read back are those of the children. -/
theorem forall_traits (hP : ∀ a b, Slot.traits.keyOf a = Slot.traits.keyOf b → (P a ↔ P b)) :
    (∀ w ∈ (NameMap.ofList (Members.ofOutline o).traits).names, P w) ↔
      ∀ w ∈ Slot.traits.namesOf o, P w :=
  have htraits : (Members.ofOutline o).traits = Slot.traits.namesOf o := List.flatMap_map ..
  forall_names_iff ((List.map_id _).trans htraits) hP

/-- The constants that are read back have the names of those among the children. -/
theorem forall_constants
    (hP : ∀ a b, Slot.constants.keyOf a = Slot.constants.keyOf b → (P a ↔ P b)) :
    (∀ w ∈ (NameMap.ofList (Members.ofOutline o).constants).names, P w) ↔
      ∀ w ∈ Slot.constants.namesOf o, P w := by
  refine forall_names_iff (map_filterMap_recover (fun n => ?_) o.children) hP
  obtain ⟨kind, doc?, attributes, comment?, trailing?⟩ := n
  cases kind <;> rfl

/-- The properties that are read back have the names of those among the children. -/
theorem forall_properties
    (hP : ∀ a b, Slot.properties.keyOf a = Slot.properties.keyOf b → (P a ↔ P b)) :
    (∀ w ∈ (NameMap.ofList (Members.ofOutline o).properties).names, P w) ↔
      ∀ w ∈ Slot.properties.namesOf o, P w := by
  refine forall_names_iff (map_filterMap_recover (fun n => ?_) o.children) hP
  obtain ⟨kind, doc?, attributes, comment?, trailing?⟩ := n
  cases kind <;> rfl

/-- The methods that are read back have the names of those among the children. -/
theorem forall_methods (hP : ∀ a b, Slot.methods.keyOf a = Slot.methods.keyOf b → (P a ↔ P b)) :
    (∀ w ∈ (NameMap.ofList (Members.ofOutline o).methods).names, P w) ↔
      ∀ w ∈ Slot.methods.namesOf o, P w := by
  refine forall_names_iff (map_filterMap_recover (fun n => ?_) o.children) hP
  obtain ⟨kind, doc?, attributes, comment?, trailing?⟩ := n
  cases kind <;> rfl

end Recovery

namespace FileScan.Yields

variable {s : FileScan} {d : Declaration}

/-- What stands around a declaration is what the scan found around it. -/
theorem parts_eq (h : s.Yields d) : d.parts.scope? = s.scope? ∧ d.parts.strict = s.strict ∧
    d.parts.imports = .ofList s.imports := by
  cases h with
  | ofClass h =>
    obtain ⟨o, -, h⟩ := Option.bind_eq_some_iff.1 h
    split at h
    · obtain rfl := Option.some.inj h
      exact ⟨rfl, rfl, rfl⟩
    · cases h
  | ofInterface h =>
    obtain ⟨o, -, h⟩ := Option.bind_eq_some_iff.1 h
    split at h
    · obtain rfl := Option.some.inj h
      exact ⟨rfl, rfl, rfl⟩
    · cases h

/-- What depends on the keys of names only holds of all names that a declaration looks for in a slot
exactly when it holds of the names in the slot that are read back. -/
theorem exists_declaration (h : s.Yields d) : ∃ o, s.declaration? = some o ∧
    d.name? = o.node.name? ∧ d.form = o.category ∧
      ∀ slot ≠ Slot.imports, ∀ P : String → Prop,
        (∀ a b, slot.keyOf a = slot.keyOf b → (P a ↔ P b)) →
          ((∀ w ∈ d.wants slot, P w) ↔
            (slot ∈ Slot.ofForm o.category → ∀ w ∈ slot.namesOf o, P w)) := by
  cases h with
  | @ofClass c h =>
    obtain ⟨o, ho, h⟩ := Option.bind_eq_some_iff.1 h
    split at h
    · next decl hkind =>
      obtain rfl := Option.some.inj h
      have hcategory : o.category = .classDecl := congrArg NodeKind.category hkind
      refine ⟨o, ho, (congrArg NodeKind.name? hkind).symm, hcategory.symm, fun slot hs P hP => ?_⟩
      rw [Declaration.wants, Declaration.flatMap_wants_passes, hcategory,
        forall_prop_of_true (by cases slot <;> first | exact absurd rfl hs | decide)]
      cases slot with
      | imports => exact absurd rfl hs
      | parent =>
        rw [Slot.namesOf_of_category? rfl, hkind]
        rfl
      | heritage =>
        refine forall_interfaces (l := decl.interfaces) ?_ hP
        rw [Slot.namesOf_of_category? rfl, hkind]
        rfl
      | traits => exact forall_traits o hP
      | constants => exact forall_constants o hP
      | properties => exact forall_properties o hP
      | methods => exact forall_methods o hP
    · cases h
  | @ofInterface i h =>
    obtain ⟨o, ho, h⟩ := Option.bind_eq_some_iff.1 h
    split at h
    · next decl hkind =>
      obtain rfl := Option.some.inj h
      have hcategory : o.category = .interfaceDecl := congrArg NodeKind.category hkind
      refine ⟨o, ho, (congrArg NodeKind.name? hkind).symm, hcategory.symm, fun slot hs P hP => ?_⟩
      rw [Declaration.wants, Declaration.flatMap_wants_passes, hcategory]
      cases slot with
      | imports => exact absurd rfl hs
      | parent | traits | properties => exact iff_of_true (List.forall_mem_nil _) (absurd · (by decide))
      | heritage =>
        rw [forall_prop_of_true (by decide)]
        refine forall_interfaces (l := decl.parents) ?_ hP
        rw [Slot.namesOf_of_category? rfl, hkind]
        rfl
      | constants =>
        rw [forall_prop_of_true (by decide)]
        exact forall_constants o hP
      | methods =>
        rw [forall_prop_of_true (by decide)]
        exact forall_methods o hP
    · cases h

/-- What depends on keys only holds of all names of imports that a declaration looks for exactly when it
holds of the imports that the scan found. -/
theorem forall_imports (h : s.Yields d) {P : String → Prop}
    (hP : ∀ a b, Slot.imports.keyOf a = Slot.imports.keyOf b → (P a ↔ P b)) :
    (∀ w ∈ d.wants .imports, P w) ↔ ∀ i ∈ s.imports, P i.name := by
  have hwants : d.wants .imports = (NameMap.ofList s.imports).names := by
    rw [← h.parts_eq.2.2, Declaration.wants, Declaration.flatMap_wants_passes]
  rw [hwants]
  exact NameMap.forall_names_ofList hP

/-- The passes of a declaration find what they look for exactly when the imports of its scan are in
the scope and the first declaration of its name covers it. -/
theorem found_iff {t : Tree} {file : Outline} (h : s.Yields d) (ht : t.Holds Tree.root file) :
    ((t.findClassLike? d.name?).isSome = true ∧
        ∀ slot, ∀ w ∈ d.wants slot, slot.Offers d.form d.name? t w) ↔
      (∀ i ∈ s.imports, ∃ n ∈ Slot.imports.namesOf file.scope, Name.same n i.name = true) ∧
        ∀ o, s.declaration? = some o →
          ∃ found, file.findClassLike? o.node.name? = some found ∧ found.Covers o := by
  obtain ⟨o, ho, hname, hform, hwants⟩ := h.exists_declaration
  have hkey : ∀ (slot : Slot) (a b : String), slot.keyOf a = slot.keyOf b →
      (slot.Offers d.form d.name? t a ↔ slot.Offers d.form d.name? t b) := by
    intro slot a b hab
    simp only [Slot.Offers, slot.same_congr hab]
  have himports := h.forall_imports (hkey .imports)
  simp only [ht.offers_imports_iff] at himports
  have hslots : (∀ slot, ∀ w ∈ d.wants slot, slot.Offers d.form d.name? t w) ↔
      (∀ i ∈ s.imports, ∃ n ∈ Slot.imports.namesOf file.scope, Name.same n i.name = true) ∧
        ∀ slot ∈ Slot.ofForm o.category, ∀ w ∈ slot.namesOf o,
          slot.Offers d.form d.name? t w := by
    rw [← himports]
    constructor
    · intro hall
      refine ⟨fun w hw => ht.offers_imports_iff.1 (hall .imports w hw), fun slot hslot => ?_⟩
      exact (hwants slot (Slot.ne_imports hslot) _ (hkey slot)).1 (hall slot) hslot
    · rintro ⟨hfirst, hall⟩ slot
      by_cases hslot : slot = .imports
      · subst hslot
        exact fun w hw => ht.offers_imports_iff.2 (hfirst w hw)
      · exact (hwants slot hslot _ (hkey slot)).2 (hall slot)
  rw [hslots, hname, hform, ho]
  simp only [Option.some.injEq, forall_eq']
  rcases ht.findClassLike? o.node.name? with ⟨htree, hfile⟩ | ⟨id, found, htree, hfile, hheld⟩
  · simp [htree, hfile]
  · have hcovers : found.Covers o ↔ ∀ slot ∈ Slot.ofForm o.category, ∀ w ∈ slot.namesOf o,
        slot.Offers o.category o.node.name? t w :=
      forall₂_congr fun slot hslot => forall₂_congr fun w _ =>
        (Tree.Holds.offers_iff (Slot.ne_imports hslot) htree hheld).symm
    rw [← hcovers]
    simp only [htree, hfile, Option.isSome_some, Option.some.injEq, exists_eq_left', true_and]

end FileScan.Yields

/-! ## The scan of a file -/

/-- Whether some outlines hold no statements themselves. -/
def AreFlat (os : List Outline) : Prop :=
  ∀ o ∈ os, o.category ≠ .file ∧ o.category ≠ .namespaceDecl

namespace FileScan

variable {wanted : Node → Bool} {s s' : FileScan} {o : Outline} {os : List Outline}

/-- Whether a scan takes nothing but directives and imports of some outlines into account, apart from
the declaration. -/
structure Takes (s : FileScan) (os : List Outline) (s' : FileScan) : Prop where
  /-- The namespace stays. -/
  scope?_eq : s'.scope? = s.scope?
  /-- Types are strict if they were, or there is the directive for it. -/
  strict : s'.strict = true → s.strict = true ∨ ∃ o ∈ os, isStrictDirective o.node = true
  /-- The imports are the old ones and those among the outlines. -/
  imports : ∀ i ∈ s'.imports, i ∈ s.imports ∨ i.name ∈ os.flatMap fun o => Slot.imports.inChild o.node
  /-- The declaration stays, unless there is a class or interface. -/
  declaration : (∀ o ∈ os, o.category.isClassLike = false) → s'.declaration? = s.declaration?

/-- Nothing is taken into account. -/
theorem takes_self : s.Takes os s := ⟨rfl, .inl, fun _ => .inl, fun _ => rfl⟩

/-- A node that holds no statements itself is taken into account. -/
theorem takes_visit (hfile : o.category ≠ .file) (hnamespace : o.category ≠ .namespaceDecl) :
    s.Takes [o] (visit wanted s o) := by
  obtain ⟨⟨kind, doc?, attributes, comment?, trailing?⟩, children⟩ := o
  cases kind with
  | file => exact absurd rfl hfile
  | namespaceDecl name => exact absurd rfl hnamespace
  | directive key value =>
    unfold visit
    dsimp only
    split
    · next hkey =>
      exact ⟨rfl, fun _ => .inr ⟨_, List.mem_singleton_self _, hkey⟩, fun _ => .inl, fun _ => rfl⟩
    · exact takes_self
  | useDecl name alias? =>
    unfold visit
    refine ⟨rfl, .inl, fun i hi => ?_, fun _ => rfl⟩
    rcases List.mem_append.1 hi with hi | hi
    · exact .inl hi
    · obtain rfl := List.mem_singleton.1 hi
      exact .inr (List.mem_flatMap.2 ⟨_, List.mem_singleton_self _, List.mem_singleton_self _⟩)
  | classDecl decl | interfaceDecl decl =>
    unfold visit
    dsimp only
    split
    · exact ⟨rfl, .inl, fun _ => .inl, fun h => by cases h _ (List.mem_singleton_self _)⟩
    · exact takes_self
  | _ =>
    unfold visit
    exact takes_self

/-- Nodes that hold no statements themselves are taken into account. -/
theorem takes_visitAll (h : AreFlat os) : s.Takes os (visitAll wanted s os) := by
  induction os generalizing s with
  | nil => exact takes_self
  | cons o os ih =>
    obtain ⟨⟨hfile, hnamespace⟩, h⟩ := List.forall_mem_cons.1 h
    unfold visitAll
    split
    · exact takes_self
    · have hfirst := @takes_visit wanted s o hfile hnamespace
      have hrest := @ih (visit wanted s o) h
      refine ⟨hrest.scope?_eq.trans hfirst.scope?_eq, fun hs => ?_, fun i hi => ?_, fun hnone => ?_⟩
      · rcases hrest.strict hs with hs | ⟨c, hc, hs⟩
        · rcases hfirst.strict hs with hs | ⟨c, hc, hs⟩
          · exact .inl hs
          · exact .inr ⟨c, List.mem_cons.2 (.inl (List.mem_singleton.1 hc)), hs⟩
        · exact .inr ⟨c, List.mem_cons_of_mem _ hc, hs⟩
      · rw [List.flatMap_cons, List.mem_append]
        rcases hrest.imports i hi with hi | hi
        · rcases hfirst.imports i hi with hi | hi
          · exact .inl hi
          · rw [List.flatMap_singleton] at hi
            exact .inr (.inl hi)
        · exact .inr (.inr hi)
      · obtain ⟨ho, hos⟩ := List.forall_mem_cons.1 hnone
        rw [hrest.declaration hos, hfirst.declaration (List.forall_mem_singleton.2 ho)]

/-- The scan goes on behind nodes that hold no statements themselves. -/
theorem visitAll_append (h : AreFlat os) (more : List Outline) :
    visitAll wanted s (os ++ more) = visitAll wanted (visitAll wanted s os) more := by
  induction os generalizing s with
  | nil => rfl
  | cons o os ih =>
    obtain ⟨⟨-, hnamespace⟩, h⟩ := List.forall_mem_cons.1 h
    have hgo : ¬(s.declaration?.isSome && o.category == .namespaceDecl) = true := by
      rw [beq_eq_false_iff_ne.2 hnamespace, Bool.and_false]
      exact Bool.false_ne_true
    rw [List.cons_append, visitAll, if_neg hgo, ih h, visitAll, if_neg hgo]

/-- The scan of a file goes through its statements. -/
theorem ofOutlines_file : ofOutlines wanted [.file os] = visitAll wanted {} os := by
  have hvisit : visit wanted {} (.file os) = visitAll wanted {} os := by
    rw [Outline.file, visit]
  rw [ofOutlines, visitAll, if_neg (by simp), visitAll, hvisit]

/-- A scan that found a namespace went through one. -/
theorem exists_namespace (hos : AreStatements os)
    (h : (ofOutlines wanted [.file os]).scope?.isSome = true) :
    ∃ o ∈ os, o.category = .namespaceDecl := by
  by_contra hnone
  rw [not_exists] at hnone
  have hflat : AreFlat os := fun o ho =>
    ⟨fun hfile => by simpa [hfile, Category.isStatement] using hos o ho, fun hc => hnone o ⟨ho, hc⟩⟩
  rw [ofOutlines_file, (takes_visitAll hflat).scope?_eq] at h
  cases h

end FileScan

/-! ## The passes of what was read back -/

/-- A declaration that was read back from a file, and what its scan was looking for: a class, an
interface or either. -/
inductive Declaration.ReadBack (file : Outline) : (Node → Bool) → Declaration → Prop
  /-- The first class. -/
  | ofClass {c : ClassSpec} (h : ClassSpec.ofFile file = .ok c) :
    ReadBack file (fun n => n.category == .classDecl) (.ofClass c)
  /-- The first interface. -/
  | ofInterface {i : InterfaceSpec} (h : InterfaceSpec.ofFile file = .ok i) :
    ReadBack file (fun n => n.category == .interfaceDecl) (.ofInterface i)
  /-- The first class or interface. -/
  | either {d : Declaration} (h : Declaration.ofFile file = .ok d) :
    ReadBack file (fun _ => true) d

/-- What is read back is made from what the scan found. -/
theorem Declaration.ReadBack.yields {file : Outline} {wanted : Node → Bool} {d : Declaration}
    (h : d.ReadBack file wanted) : (FileScan.ofOutlines wanted [file]).Yields d := by
  cases h with
  | ofClass h =>
    unfold ClassSpec.ofFile at h
    split at h
    · next c hc =>
      obtain rfl := Except.ok.inj h
      exact .ofClass hc
    · cases h
  | ofInterface h =>
    unfold InterfaceSpec.ofFile at h
    split at h
    · next i hi =>
      obtain rfl := Except.ok.inj h
      exact .ofInterface hi
    · cases h
  | either h =>
    unfold Declaration.ofFile at h
    split at h
    · next d' hd =>
      obtain rfl := Except.ok.inj h
      unfold Declaration.recover? at hd
      dsimp only at hd
      split at hd
      · obtain ⟨i, hi, rfl⟩ := Option.map_eq_some_iff.1 hd
        exact .ofInterface hi
      · obtain ⟨c, hc, rfl⟩ := Option.map_eq_some_iff.1 hd
        exact .ofClass hc
      · cases hd
    · cases h

/-- A file with a class in a namespace, behind the directive for strict types. -/
def pointSource : String :=
  "<?php\ndeclare(strict_types=1);\n\nnamespace App;\n\nuse App\\Shape;\n\nclass Point\n" ++
    "\x7b\n    public function x()\n    \x7b\n    \x7d\n\x7d\n"

/-- A file with an interface in one namespace and a class in another one. -/
def twoNamespaces : String :=
  "<?php\nnamespace A;\n\ninterface I\n\x7b\n\x7d\n\nnamespace B;\n\nclass C\n\x7b\n\x7d\n"

/-- Running the passes of a declaration that was read back from a parsed file changes nothing, and
says so, exactly when they see what the scan found. -/
theorem readBack_unchanged_iff {source : String} {file : Outline} {wanted : Node → Bool}
    {d : Declaration} (hparse : Outline.parse source = .ok file) (hd : d.ReadBack file wanted) :
    d.passes.Unchanged (.ofOutline file) ↔ (FileScan.ofOutlines wanted [file]).InSight file := by
  obtain ⟨statements, rfl, hstatements⟩ := Outline.exists_of_parse hparse
  have hheld := Tree.holds_ofOutline (.file statements)
  obtain ⟨hscope, hstrict, -⟩ := hd.yields.parts_eq
  have hnamespace : (FileScan.ofOutlines wanted [.file statements]).scope?.isSome = true →
      (Tree.ofOutline (.file statements)).namespace?.isSome = true := by
    intro h
    obtain ⟨c, hc, hcategory⟩ := FileScan.exists_namespace hstatements h
    rw [hheld.isSome_namespace?, List.any_eq_true]
    exact ⟨c, hc, beq_iff_eq.2 hcategory⟩
  rw [Declaration.unchanged_iff, hstrict, hscope, hheld.hasChild_iff, hd.yields.found_iff hheld]
  exact ⟨fun ⟨hstrict, _, himports, ho⟩ => ⟨hstrict, himports, ho⟩,
    fun h => ⟨h.strict, hnamespace, h.imports, h.declaration⟩⟩

/-- A class with an import and a method, in a namespace behind the directive for strict types, is in
sight of its passes. -/
theorem readBack_unchanged_point :
    ∃ file c, Outline.parse pointSource = .ok file ∧ ClassSpec.ofFile file = .ok c ∧
      (Declaration.ofClass c).passes.Unchanged (.ofOutline file) := by
  have hcheck : (match Outline.parse pointSource with
      | .ok file => (ClassSpec.ofFile file).isOk && decide
          ((FileScan.ofOutlines (fun n => n.category == .classDecl) [file]).InSight file)
      | .error _ => false) = true := by decide +kernel
  cases hparse : Outline.parse pointSource with
  | error e =>
    rw [hparse] at hcheck
    cases hcheck
  | ok file =>
    rw [hparse] at hcheck
    obtain ⟨hok, hsight⟩ := Bool.and_eq_true_iff.1 hcheck
    cases hc : ClassSpec.ofFile file with
    | error e =>
      rw [hc] at hok
      cases hok
    | ok c =>
      exact ⟨file, c, rfl, hc, (readBack_unchanged_iff hparse (.ofClass hc)).2 (of_decide_eq_true hsight)⟩

/-- A class in the second of two namespaces is read back, but it is out of sight of its passes: they put
a class of its name into the first namespace. -/
theorem readBack_changed_of_two_namespaces :
    ∃ file c, Outline.parse twoNamespaces = .ok file ∧ ClassSpec.ofFile file = .ok c ∧
      ¬(Declaration.ofClass c).passes.Unchanged (.ofOutline file) := by
  have hcheck : (match Outline.parse twoNamespaces with
      | .ok file =>
        match ClassSpec.ofFile file with
        | .ok c => ((Tree.ofOutline file).findClassLike? c.name?).isNone
        | .error _ => false
      | .error _ => false) = true := by decide +kernel
  cases hparse : Outline.parse twoNamespaces with
  | error e =>
    rw [hparse] at hcheck
    cases hcheck
  | ok file =>
    rw [hparse] at hcheck
    dsimp only at hcheck
    cases hc : ClassSpec.ofFile file with
    | error e =>
      rw [hc] at hcheck
      cases hcheck
    | ok c =>
      rw [hc] at hcheck
      refine ⟨file, c, rfl, hc, fun hsame => ?_⟩
      obtain ⟨-, -, hfound, -⟩ := (Declaration.unchanged_iff (.ofClass c) _).1 hsame
      exact Option.isSome_iff_ne_none.1 hfound (Option.isNone_iff_eq_none.1 hcheck)

/-! ## Files with one scope -/

/-- Whether the statements of a file stand in one scope: there is no namespace among them, or nothing
but directives and source text stands ahead of the only one, which holds no directive for strict
types. -/
def Outline.HasOneScope (file : Outline) : Prop :=
  AreFlat file.children ∨
    ∃ front inner, file.children = front ++ [inner] ∧
      (∀ o ∈ front, o.category = .directive ∨ o.category = .verbatim) ∧
        inner.category = .namespaceDecl ∧ AreFlat inner.children ∧
          ∀ o ∈ inner.children, isStrictDirective o.node = false

/-- A file without namespaces is its own scope. -/
theorem Outline.scope_of_areFlat {os : List Outline} (h : AreFlat os) :
    (Outline.file os).scope = .file os := by
  have hnone : os.find? (fun o => o.category == .namespaceDecl) = none :=
    List.find?_eq_none.2 fun o ho => by simpa using (h o ho).2
  rw [Outline.scope, Outline.file, Outline.children, hnone]
  rfl

/-- A namespace behind statements that are none is the scope. -/
theorem Outline.scope_of_append {front more : List Outline} {inner : Outline} (h : AreFlat front)
    (hinner : inner.category = .namespaceDecl) :
    (Outline.file (front ++ inner :: more)).scope = inner := by
  have hskip : front.find? (fun o => o.category == .namespaceDecl) = none :=
    List.find?_eq_none.2 fun o ho => by simpa using (h o ho).2
  have hfind : (front ++ inner :: more).find? (fun o => o.category == .namespaceDecl) =
      some inner := by
    rw [List.find?_append, hskip, List.find?_cons, hinner]
    rfl
  rw [Outline.scope, Outline.file, Outline.children, hfind]
  rfl

namespace FileScan

variable {wanted : Node → Bool} {statements : List Outline} {s : FileScan}

/-- The scan of a namespace goes through its statements, with imports of its own. -/
theorem exists_visit_namespace {o : Outline} (h : o.category = .namespaceDecl) : ∃ scope?,
    visit wanted s o = visitAll wanted { s with scope?, imports := [] } o.children := by
  obtain ⟨⟨kind, doc?, attributes, comment?, trailing?⟩, children⟩ := o
  cases kind with
  | namespaceDecl name =>
    refine ⟨if name.isEmpty then none else some name, ?_⟩
    rw [visit]
    rfl
  | _ => cases h

/-- In a file with one scope the directive that a scan found is at the top, and its imports are in the
scope. -/
theorem inSight_of_hasOneScope (hfile : (Outline.file statements).HasOneScope)
    (hs : ofOutlines wanted [.file statements] = s) :
    (s.strict = true → ∃ c ∈ statements, isStrictDirective c.node = true) ∧
      ∀ i ∈ s.imports, i.name ∈ Slot.imports.namesOf (Outline.file statements).scope := by
  rw [ofOutlines_file] at hs
  rcases hfile with hflat | ⟨front, inner, hsplit, hfront, hinner, hflat, hnone⟩
  · have htakes : FileScan.Takes {} statements s := hs ▸ takes_visitAll hflat
    refine ⟨fun h => (htakes.strict h).resolve_left Bool.false_ne_true, fun i hi => ?_⟩
    rw [@Outline.scope_of_areFlat statements hflat]
    exact (htakes.imports i hi).resolve_left List.not_mem_nil
  · have hsplit' : statements = front ++ [inner] := hsplit
    have hflatFront : AreFlat front := by
      intro o ho
      rcases hfront o ho with h | h <;> exact ⟨by rw [h]; decide, by rw [h]; decide⟩
    have htakes := @takes_visitAll wanted {} _ hflatFront
    have hdeclaration : (visitAll wanted {} front).declaration? = none := by
      refine htakes.declaration fun o ho => ?_
      rcases hfront o ho with h | h <;> rw [h] <;> rfl
    obtain ⟨scope?, hvisit⟩ := @exists_visit_namespace wanted (visitAll wanted {} front) _ hinner
    rw [hsplit', visitAll_append hflatFront, visitAll, hdeclaration, if_neg (by simp), visitAll,
      hvisit] at hs
    have hinside : FileScan.Takes _ inner.children s := hs ▸ takes_visitAll hflat
    refine ⟨fun h => ?_, fun i hi => ?_⟩
    · rcases hinside.strict h with h | ⟨c, hc, h⟩
      · obtain ⟨c, hc, h⟩ := (htakes.strict h).resolve_left Bool.false_ne_true
        exact ⟨c, hsplit' ▸ List.mem_append_left _ hc, h⟩
      · rw [hnone c hc] at h
        cases h
    · rw [hsplit', Outline.scope_of_append hflatFront hinner]
      exact (hinside.imports i hi).resolve_left List.not_mem_nil

/-- In a file with one scope the only thing that can be out of sight is the declaration, behind another
one of its name. -/
theorem inSight_iff_of_hasOneScope (hfile : (Outline.file statements).HasOneScope)
    (hs : ofOutlines wanted [.file statements] = s) :
    s.InSight (.file statements) ↔
      ∀ o, s.declaration? = some o →
        ∃ found, (Outline.file statements).findClassLike? o.node.name? = some found ∧
          found.Covers o := by
  obtain ⟨hstrict, himports⟩ := inSight_of_hasOneScope hfile hs
  exact ⟨InSight.declaration, fun h =>
    ⟨hstrict, fun i hi => ⟨_, himports i hi, beq_self_eq_true _⟩, h⟩⟩

end FileScan

end PhpGraft

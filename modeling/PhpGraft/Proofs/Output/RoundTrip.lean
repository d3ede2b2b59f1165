import PhpGraft.Output.Generator
import PhpGraft.Proofs.Declaration.Recovered
import PhpGraft.Proofs.Graft.Fresh
import PhpGraft.Proofs.Model.PrintedMembers
import PhpGraft.Proofs.Output.PrefixGrammar

/-!
# Classes printed and read back

A class that is added to an empty file is the whole of the file, the file is printed, and the text is read as a
file with the class, the values in it up to what their text is read as. What the scan of that file finds is the
class again (`ClassSpec.read_back_of_printed`): it is equal to the class that was printed exactly when no value
of it has the least integer for the key of a field, and it is then the very same one.
-/

namespace PhpGraft

open Edit Lexer Text

/-- The nodes of the items of a map as they are printed. -/
def NameMap.printed {α : Type} [Keyed α] (m : NameMap α) (member : α → DocMember) : List Node :=
  m.items.map fun a => (member a).outline.node

namespace ClassSpec

/-- A class that is read back from its print, up to what becomes of its values. It has a name, which is its label,
its types are declared, and it has no attributes. -/
structure IsPrintable (c : ClassSpec) : Prop where
  named : c.name? = some c.label
  label : Name.isIdentifier c.label = true
  modifiers : ∀ m, c.modifiers.has m = true → m ∈ [Modifier.isAbstract, .isFinal, .isReadonly]
  scope : ∀ name ∈ c.scope?, Name.isQualified name.toList = true
  parent : ∀ name ∈ c.parent?, ValueSpec.isClassName name.toList = true
  interfaces : ∀ name ∈ c.interfaces.names, ValueSpec.isClassName name.toList = true
  traits : ∀ name ∈ c.traits.names, ValueSpec.isClassName name.toList = true
  imports : ∀ i ∈ c.imports.items, Name.isQualified i.name.toList = true ∧
    (eqIgnoreCase i.name "function" = false ∧ eqIgnoreCase i.name "const" = false) ∧
      ∀ other ∈ i.alias?, Name.isIdentifier other = true
  typed : c.typed = true
  doc : DocBlock.IsPrintable c.doc?
  attributes : c.attributes = []
  constants : ∀ k ∈ c.constants.items, k.IsPrintable
  properties : ∀ p ∈ c.properties.items, p.IsPrintable
  methods : ∀ m ∈ c.methods.items, m.IsPrintable

/-- The members of a class as they are printed. -/
def docMembers (c : ClassSpec) : List DocMember :=
  c.traits.names.map (fun name => ⟨none, .traitUse [name] none⟩) ++ c.constants.items.map ConstSpec.member ++
    c.properties.items.map PropertySpec.member ++ c.methods.items.map MethodSpec.member

/-- The class as it is printed. -/
def plainClass (c : ClassSpec) : PlainClass :=
  ⟨renderSummary? c.doc?, c.label, c.modifiers, c.parent?, c.interfaces.names, c.docMembers⟩

/-- The directives of the file of a class. -/
def directives (c : ClassSpec) : List PlainStatement := if c.strict then [.directive strictKey (.int 1)] else []

/-- The other statements of the file of a class. -/
def statements (c : ClassSpec) : List PlainStatement :=
  c.imports.items.map (fun i => .useDecl i.name i.alias?) ++ [.classDecl c.plainClass]

/-- The file of a class as it is printed. -/
def file (c : ClassSpec) : PlainFile :=
  match c.scope? with
  | none => ⟨c.directives ++ c.statements, none⟩
  | some name => ⟨c.directives, some (name, c.statements)⟩

/-- What the class is read back as. -/
def reread (c : ClassSpec) : ClassSpec :=
  { c with
    constants := c.constants.map ConstSpec.reread ConstSpec.key_reread
    properties := c.properties.map PropertySpec.reread PropertySpec.key_reread
    methods := c.methods.map MethodSpec.reread MethodSpec.key_reread }

/-- Whether the least integer is the key of a field in a value of the class. -/
def hasLeastKey (c : ClassSpec) : Bool :=
  c.constants.items.any ConstSpec.hasLeastKey || c.methods.items.any MethodSpec.hasLeastKey ||
    c.properties.items.any PropertySpec.hasLeastKey

variable {c : ClassSpec}

/-! ## The file of a class -/

/-- A class that is read back can be written. -/
theorem IsPrintable.isWritten (h : c.IsPrintable) : c.file.IsWritten := by
  have hmembers : ∀ m ∈ c.docMembers, m.kind.IsWritten ∧ ∀ d ∈ m.doc?, IsStored d := by
    simp only [docMembers, List.forall_mem_append, List.forall_mem_map]
    refine ⟨⟨⟨fun name hname => ?_, fun k hk => ?_⟩, fun p hp => ?_⟩, fun m hm => ?_⟩
    · have htext := isNameText_of_isClassName (h.traits name hname)
      exact ⟨⟨List.cons_ne_nil _ _, rfl, List.forall_mem_singleton.2 htext⟩, fun d hd => by cases hd⟩
    · exact (h.constants k hk).isWritten.2
    · exact (h.properties p hp).isWritten.2
    · exact (h.methods m hm).isWritten.2
  have hclass : c.plainClass.IsWritten :=
    ⟨h.doc.rendered.1, h.label, h.modifiers, fun p hp => isNameText_of_isClassName (h.parent p hp),
      fun n hn => isNameText_of_isClassName (h.interfaces n hn), hmembers⟩
  have hdirectives : ∀ s ∈ c.directives, s.IsWritten := by
    unfold directives
    split
    · exact List.forall_mem_singleton.2 ⟨by decide, by decide⟩
    · exact List.forall_mem_nil _
  have hstatements : ∀ s ∈ c.statements, s.IsWritten := by
    refine List.forall_mem_append.2 ⟨List.forall_mem_map.2 fun i hi => ?_, List.forall_mem_singleton.2 hclass⟩
    obtain ⟨hname, hkeywords, halias⟩ := h.imports i hi
    exact ⟨hkeywords, isNameText_of_isQualified hname,
      fun other hother => isNameText_of_isQualified (isQualified_of_ident (halias other hother))⟩
  unfold file
  split
  · exact ⟨List.forall_mem_append.2 ⟨hdirectives, hstatements⟩, nofun⟩
  · next name hname =>
    refine ⟨hdirectives, ?_⟩
    rintro scope ⟨⟩
    exact ⟨isNameText_of_isQualified (h.scope name hname), hstatements⟩

/-- The members of a class that is read back become nodes. -/
theorem IsPrintable.realized (h : c.IsPrintable) :
    c.Realized (c.constants.printed ConstSpec.member) (c.properties.printed PropertySpec.member)
      (c.methods.printed MethodSpec.member) := by
  constructor <;> rw [NameMap.printed, List.forall₂_map_right_iff, List.forall₂_same]
  · exact fun k hk => (h.constants k hk).isWritten.1
  · intro p hp
    rw [h.typed]
    exact (h.properties p hp).isWritten.1
  · intro m hm
    rw [h.typed]
    exact (h.methods m hm).isWritten.1

/-- The file of a class is the one that is printed. -/
theorem IsPrintable.alone_eq (h : c.IsPrintable) :
    c.alone [] (c.members (c.constants.printed ConstSpec.member) (c.properties.printed PropertySpec.member)
      (c.methods.printed MethodSpec.member)) = .file c.file.outlines := by
  have hdirectives : (strictDirectives c.strict).map Outline.leaf = c.directives.map PlainStatement.outline := by
    rw [strictDirectives, directives]
    split <;> rfl
  have hmembers : (c.members (c.constants.printed ConstSpec.member) (c.properties.printed PropertySpec.member)
      (c.methods.printed MethodSpec.member)).map Outline.leaf = c.docMembers.map DocMember.outline := by
    simp only [members, traitNodes, NameMap.printed, docMembers, List.map_append, List.map_map]
    rfl
  have hstatements : (c.imports.items.map Import.node).map Outline.leaf ++
      [.mk (c.nodeWith c.head []) (c.docMembers.map DocMember.outline)] =
        c.statements.map PlainStatement.outline := by
    have hhead : c.head = c.plainClass.decl := by rw [head, bareHead, h.named]; rfl
    rw [statements, List.map_append, List.map_map, List.map_map, nodeWith, hhead]
    rfl
  rw [alone, hmembers, hstatements, Outline.fileAround, hdirectives, file]
  cases hscope : c.scope? with
  | none => simp [PlainFile.outlines]
  | some name =>
    obtain ⟨hne, hbare⟩ := isBare_of_isQualified (h.scope name hscope)
    rw [Option.elim_some, Name.bare_eq_self hbare hne]
    rfl

/-- A class that is read back is added to an empty file and printed as its file. -/
theorem IsPrintable.realize_eq (h : c.IsPrintable) (g : Generator) :
    g.realize (.ofClass c) .empty = .ok ((Outline.file c.file.outlines).print g.indent) := by
  have hattributes : realizeAttributes c.attributes = .ok [] := by rw [h.attributes]; rfl
  obtain ⟨t, ⟨records, hrun⟩, houtline⟩ := exists_leads_empty hattributes h.realized
  rw [h.alone_eq] at houtline
  have hrun : (Declaration.ofClass c).realize.on .empty = (.ok records, t) := hrun
  rw [Generator.realize, hrun, ← houtline]

/-! ## What is read back -/

/-- The directives of the file tell whether types are strict. -/
theorem visitAll_directives (wanted : Node → Bool) :
    FileScan.visitAll wanted {} ((c.directives.map PlainStatement.reread).map PlainStatement.outline) =
      { strict := c.strict } := by
  rw [directives]
  cases c.strict <;> rfl

/-- The directives hold no statements themselves. -/
theorem areFlat_directives : AreFlat ((c.directives.map PlainStatement.reread).map PlainStatement.outline) := by
  rw [directives]
  split
  · exact List.forall_mem_singleton.2 (by decide)
  · exact List.forall_mem_nil _

/-- Imports are kept in order. -/
theorem visitAll_imports {wanted : Node → Bool} {s : FileScan} (is : List Import) :
    FileScan.visitAll wanted s (is.map fun i => Outline.leaf i.node) = { s with imports := s.imports ++ is } := by
  induction is generalizing s with
  | nil =>
    rw [List.append_nil]
    rfl
  | cons i is ih =>
    have hgo : ¬(s.declaration?.isSome && (Outline.leaf i.node).category == .namespaceDecl) = true := by
      rw [Bool.and_eq_true]
      exact fun h => by cases h.2
    rw [List.map_cons, FileScan.visitAll, if_neg hgo, ih, Outline.leaf, FileScan.visit]
    simp [Import.node]

/-- The other statements of the file are the imports and the class. -/
theorem visitAll_statements {s : FileScan} (hnone : s.declaration? = none) (himports : s.imports = []) :
    FileScan.visitAll (fun n => n.category == .classDecl) s
      ((c.statements.map PlainStatement.reread).map PlainStatement.outline) =
      { s with imports := c.imports.items, declaration? := some c.plainClass.reread.outline } := by
  have hlist : (c.statements.map PlainStatement.reread).map PlainStatement.outline =
      (c.imports.items.map fun i => Outline.leaf i.node) ++ [c.plainClass.reread.outline] := by
    rw [statements, List.map_append, List.map_append, List.map_map, List.map_map]
    rfl
  have hflat : AreFlat (c.imports.items.map fun i => Outline.leaf i.node) := by
    refine List.forall_mem_map.2 fun i _ => ⟨fun h => ?_, fun h => ?_⟩ <;> cases h
  have hclass (s : FileScan) (hnone : s.declaration? = none) :
      FileScan.visitAll (fun n => n.category == .classDecl) s [c.plainClass.reread.outline] =
        { s with declaration? := some c.plainClass.reread.outline } := by
    rw [FileScan.visitAll, FileScan.visitAll, hnone, PlainClass.outline, FileScan.visit]
    simp [hnone, Node.category, NodeKind.category]
  rw [hlist, FileScan.visitAll_append hflat, visitAll_imports, himports]
  exact hclass _ hnone

/-- A scan of the file finds what stands around the class, and the class with its values read back. -/
theorem IsPrintable.scan_eq (h : c.IsPrintable) :
    FileScan.ofOutlines (fun n => n.category == .classDecl) [.file c.file.reread.outlines] =
      ⟨c.strict, c.scope?, c.imports.items, some c.plainClass.reread.outline⟩ := by
  rw [FileScan.ofOutlines_file, file]
  cases hscope : c.scope? with
  | none =>
    have houtlines : (PlainFile.reread ⟨c.directives ++ c.statements, none⟩).outlines =
        (c.directives.map PlainStatement.reread).map PlainStatement.outline ++
          (c.statements.map PlainStatement.reread).map PlainStatement.outline := by
      simp [PlainFile.reread, PlainFile.outlines]
    dsimp only
    rw [houtlines, FileScan.visitAll_append areFlat_directives, visitAll_directives, visitAll_statements rfl rfl]
  | some name =>
    have houtlines : (PlainFile.reread ⟨c.directives, some (name, c.statements)⟩).outlines =
        (c.directives.map PlainStatement.reread).map PlainStatement.outline ++
          [.mk { kind := .namespaceDecl name }
            ((c.statements.map PlainStatement.reread).map PlainStatement.outline)] :=
      rfl
    have hname : name.isEmpty = false := by
      refine Bool.eq_false_iff.2 fun hempty => ?_
      have hqualified := h.scope name hscope
      rw [String.isEmpty_iff.1 hempty] at hqualified
      exact absurd hqualified (by decide)
    dsimp only
    rw [houtlines, FileScan.visitAll_append areFlat_directives, visitAll_directives, FileScan.visitAll,
      FileScan.visitAll, FileScan.visit]
    dsimp only
    rw [hname, visitAll_statements rfl rfl]
    rfl

/-- The members of the class are found again, by kind. -/
theorem IsPrintable.members_eq (h : c.IsPrintable) : Members.ofOutline c.plainClass.reread.outline =
    ⟨c.traits.names, c.constants.items.map ConstSpec.reread, c.properties.items.map PropertySpec.reread,
      c.methods.items.map MethodSpec.reread⟩ := by
  have hnodes : c.plainClass.reread.outline.children.map Outline.node =
      traitNodes c.traits.names ++ c.constants.items.map (fun k => k.member.reread.outline.node) ++
        c.properties.items.map (fun p => p.member.reread.outline.node) ++
        c.methods.items.map (fun m => m.member.reread.outline.node) := by
    show ((c.docMembers.map DocMember.reread).map DocMember.outline).map Outline.node = _
    simp only [traitNodes, docMembers, List.map_append, List.map_map]
    rfl
  -- members of one kind are not of another one
  have htrait (name : String) : ConstSpec.recover? { kind := .traitUse [name] none } = none ∧
      PropertySpec.recover? { kind := .traitUse [name] none } = none ∧
        MethodSpec.recover? { kind := .traitUse [name] none } = none := ⟨rfl, rfl, rfl⟩
  have hconstant (k : ConstSpec) : PropertySpec.recover? k.member.reread.outline.node = none ∧
      MethodSpec.recover? k.member.reread.outline.node = none := ⟨rfl, rfl⟩
  have hproperty (p : PropertySpec) : ConstSpec.recover? p.member.reread.outline.node = none ∧
      MethodSpec.recover? p.member.reread.outline.node = none := ⟨rfl, rfl⟩
  have hmethod (m : MethodSpec) : ConstSpec.recover? m.member.reread.outline.node = none ∧
      PropertySpec.recover? m.member.reread.outline.node = none := ⟨rfl, rfl⟩
  have hsome {α : Type} {g : α → Option α} {r : α → α} {l : List α} (hg : ∀ a ∈ l, g a = some (r a)) :
      l.filterMap g = l.map r := (List.filterMap_congr hg).trans (congrFun List.filterMap_eq_map' l)
  rw [Members.ofOutline, hnodes, traitNodes]
  congr 1
  · rw [List.flatMap_append, List.flatMap_append, List.flatMap_append, List.flatMap_map, List.flatMap_map,
      List.flatMap_map, List.flatMap_map]
    show c.traits.names.flatMap (fun name => [name]) ++ c.constants.items.flatMap (fun _ => []) ++
      c.properties.items.flatMap (fun _ => []) ++ c.methods.items.flatMap (fun _ => []) = c.traits.names
    simp
  · simp [List.filterMap_append, List.filterMap_map, htrait, hproperty, hmethod,
      hsome fun k hk => (h.constants k hk).recover?_eq]
  · simp [List.filterMap_append, List.filterMap_map, htrait, hconstant, hmethod,
      hsome fun p hp => (h.properties p hp).recover?_eq]
  · simp [List.filterMap_append, List.filterMap_map, htrait, hproperty, hconstant,
      hsome fun m hm => (h.methods m hm).recover?_eq]

/-- From the file that its print is read as, the class is read back. -/
theorem IsPrintable.ofFile_eq (h : c.IsPrintable) : ofFile (.file c.file.reread.outlines) = .ok c.reread := by
  have hnode : c.plainClass.reread.outline.node =
      { kind := .classDecl ⟨some c.label, c.modifiers, c.parent?, c.interfaces.names⟩
        doc? := renderSummary? c.doc? } := rfl
  have hnames (m : NameMap String) : .ofList m.names = m := by
    have hitems : m.names = m.items := List.map_id m.items
    rw [hitems, NameMap.ofList_items]
  have htyped : (Members.mk c.traits.names (c.constants.items.map ConstSpec.reread)
      (c.properties.items.map PropertySpec.reread) (c.methods.items.map MethodSpec.reread)).typed = true := by
    rw [Members.typed, Bool.and_eq_true, List.all_eq_true, List.all_eq_true]
    exact ⟨List.forall_mem_map.2 fun p hp => (h.properties p hp).typed,
      List.forall_mem_map.2 fun m hm => (h.methods m hm).typed⟩
  have hmap {α : Type} [Keyed α] (m : NameMap α) {f : α → α} (hf : ∀ a, Keyed.key (f a) = Keyed.key a) :
      .ofList (m.items.map f) = m.map f hf := (m.map f hf).ofList_items
  have hrecover : recover? [.file c.file.reread.outlines] = some c.reread := by
    rw [recover?, h.scan_eq, ofScan?, Option.bind_some, hnode]
    dsimp only
    rw [h.members_eq, DeclarationParts.ofScan, h.doc.summaryOf?_eq, htyped, hnames, hnames, NameMap.ofList_items,
      hmap c.constants ConstSpec.key_reread, hmap c.properties PropertySpec.key_reread,
      hmap c.methods MethodSpec.key_reread, Option.getD_some, reread, h.named, h.typed, h.attributes]
    rfl
  rw [ofFile, hrecover]

/-- A class is read back equal exactly when no least integer is the key of a field in it. -/
theorem IsPrintable.reread_eq (h : c.IsPrintable) :
    c.reread.same c = !c.hasLeastKey ∧ (c.hasLeastKey = false → c.reread = c) := by
  have hconstants : c.reread.constants.same (· == ·) c.constants = _ ∧ _ :=
    NameMap.same_map ConstSpec.key_reread fun k hk => (h.constants k hk).reread_eq
  have hproperties : c.reread.properties.same (· == ·) c.properties = _ ∧ _ :=
    NameMap.same_map PropertySpec.key_reread fun p hp => (h.properties p hp).reread_eq
  have hmethods : c.reread.methods.same (· == ·) c.methods = _ ∧ _ :=
    NameMap.same_map MethodSpec.key_reread fun m hm => (h.methods m hm).reread_eq
  refine ⟨?_, fun hkey => ?_⟩
  · rw [same, DeclarationParts.same, hconstants.1, hproperties.1, hmethods.1, hasLeastKey]
    simp [reread, NameMap.same_self, h.attributes, Bool.and_assoc]
  · obtain ⟨hkeys, hkeyP⟩ := Bool.or_eq_false_iff.1 hkey
    obtain ⟨hkeyC, hkeyM⟩ := Bool.or_eq_false_iff.1 hkeys
    rw [reread, hconstants.2 hkeyC, hproperties.2 hkeyP, hmethods.2 hkeyM]

/-! ## Printed and read back -/

/-- A class that is added to an empty file is printed, the text is read, and a class is read back from the file:
it is equal to the one that was printed exactly when no value in that one has the least integer for the key of a
field, and then it is the very same one. -/
theorem read_back_of_printed (h : c.IsPrintable) (g : Generator) :
    ∃ text file found, g.realize (.ofClass c) .empty = .ok text ∧ Outline.parse text = .ok file ∧
      ofFile file = .ok found ∧ found.same c = !c.hasLeastKey ∧ (c.hasLeastKey = false → found = c) :=
  ⟨_, _, _, h.realize_eq g, Outline.parse_print h.isWritten g.indent, h.ofFile_eq, h.reread_eq⟩

end ClassSpec

/-- A final class with something of everything that is printed and read back. -/
def ledgerClass : ClassSpec :=
  { ClassSpec.new "Ledger" with
    scope? := some "App\\Books"
    imports := .ofList [⟨"App\\Clock", some "Time"⟩]
    modifiers := .only .isFinal
    parent? := some "Base"
    interfaces := .ofList ["\\Countable"]
    traits := .ofList ["Audited"]
    doc? := some "A ledger.\n\nKept by hand."
    constants := .ofList [{ name := "RATES", value := .ofLiteral (.object [.mk "7" (.list [.int (-1), .null])]) }]
    properties := .ofList
      [{ name := "total", type? := some ⟨true, "int", true, false⟩, default? := some (.ofLiteral .null) }]
    methods := .ofList
      [{ name := "add", params := .ofList [{ name := "amount", type? := some ⟨false, "int", true, false⟩ }],
         returns? := some ⟨false, "int", true, false⟩, body? := some "return $amount;" }] }

/-- The body of its method is read back. -/
theorem isPrintable_ledgerBody : Body.IsPrintable "return $amount;" := by
  have htokens : fragment "return $amount;" =
      .ok [⟨.name, [], "return".toList, 0⟩, ⟨.var, [' '], "$amount".toList, 7⟩,
        ⟨.punct ';', [], [';'], 14⟩, ⟨.eof, [], [], 15⟩] := by decide +kernel
  have hplain : "return $amount;".toList.all (fun c => decide (c.toNat < 128 ∧ c ≠ '\r')) = true := by decide
  refine ⟨by decide, fun c hc => of_decide_eq_true (List.all_eq_true.1 hplain c hc), ?_, ?_, ?_⟩
  · exact ⟨⟨[⟨"return $amount;", false⟩]⟩, by decide +kernel, by decide⟩
  · rintro ⟨ts, hts, hattribute⟩
    obtain rfl := Except.ok.inj (htokens.symm.trans hts)
    simp at hattribute
  · intro ts hts
    obtain rfl := Except.ok.inj (htokens.symm.trans hts)
    simp only [List.forall_mem_cons, List.not_mem_nil, false_imp_iff, implies_true, and_true]
    refine ⟨?_, ?_, ?_, ?_⟩ <;> exact fun label hlabel => absurd hlabel (by simp [Token.label?])

/-- The class is one of those that are read back. -/
theorem isPrintable_ledgerClass : ledgerClass.IsPrintable where
  named := rfl
  label := by decide
  modifiers := by
    intro m
    cases m <;> decide
  scope := by
    rintro name ⟨⟩
    decide
  parent := by
    rintro name ⟨⟩
    decide
  interfaces := by decide
  traits := by decide
  imports := by
    refine List.forall_mem_singleton.2 ⟨by decide, by decide, ?_⟩
    rintro other ⟨⟩
    decide
  typed := rfl
  doc := by
    rintro doc ⟨⟩
    refine ⟨["A ledger.", "", "Kept by hand."], by decide, by decide, ⟨?_, by decide, by decide, nofun⟩, ?_⟩
    · simp only [List.forall_mem_cons, List.not_mem_nil, false_imp_iff, implies_true, and_true]
      refine ⟨?_, ?_, ?_⟩ <;> exact ⟨by decide, by decide, by decide, by decide⟩
    · unfold Clear
      decide
  attributes := rfl
  constants := List.forall_mem_singleton.2 ⟨by decide, ⟨_, by decide +kernel, rfl⟩, nofun, rfl⟩
  properties := by
    refine List.forall_mem_singleton.2 ⟨by decide, ?_, ?_, rfl, nofun, rfl, rfl⟩
    · rintro t ⟨⟩
      exact ⟨⟨"?int", rfl⟩, .inl rfl⟩
    · rintro v ⟨⟩
      exact ⟨_, by decide, rfl⟩
  methods := by
    refine List.forall_mem_singleton.2 ⟨by decide, ?_, ?_, ?_, nofun, rfl, nofun, rfl, rfl, rfl⟩
    · refine List.forall_mem_singleton.2 ⟨by decide, ?_, nofun, rfl, rfl⟩
      rintro t ⟨⟩
      exact ⟨⟨"int", rfl⟩, .inr (by decide)⟩
    · rintro t ⟨⟩
      exact ⟨"int", rfl⟩
    · rintro source ⟨⟩
      exact isPrintable_ledgerBody

/-- The class is printed and read back. -/
theorem read_back_of_printed_ledger : ledgerClass.IsPrintable ∧ ∃ text file,
    (Generator.ofSettings {}).realize (.ofClass ledgerClass) .empty = .ok text ∧
      Outline.parse text = .ok file ∧ ClassSpec.ofFile file = .ok ledgerClass := by
  obtain ⟨text, file, found, htext, hfile, hfound, -, hself⟩ :=
    ClassSpec.read_back_of_printed isPrintable_ledgerClass (Generator.ofSettings {})
  have hkey : ledgerClass.hasLeastKey = false := by decide +kernel
  rw [hself hkey] at hfound
  exact ⟨isPrintable_ledgerClass, text, file, htext, hfile, hfound⟩

/-- A class with a constant in which the least integer is the key of a field. -/
def leastKeyedClass : ClassSpec :=
  { ClassSpec.new "A" with
    constants := .ofList [{ name := "X", value := .ofLiteral (.object [.mk "-9223372036854775808" (.int 1)]) }] }

/-- The class is one of those that are read back, up to its value. -/
theorem isPrintable_leastKeyedClass : leastKeyedClass.IsPrintable where
  named := rfl
  label := by decide
  modifiers := by
    intro m
    cases m <;> decide
  scope := nofun
  parent := nofun
  interfaces := List.forall_mem_nil _
  traits := List.forall_mem_nil _
  imports := List.forall_mem_nil _
  typed := rfl
  doc := nofun
  attributes := rfl
  constants := List.forall_mem_singleton.2 ⟨by decide, ⟨_, by decide +kernel, rfl⟩, nofun, rfl⟩
  properties := List.forall_mem_nil _
  methods := List.forall_mem_nil _

/-- The class is printed, and another one is read back. -/
theorem not_read_back_of_printed : leastKeyedClass.IsPrintable ∧ ∃ text file found,
    (Generator.ofSettings {}).realize (.ofClass leastKeyedClass) .empty = .ok text ∧
      Outline.parse text = .ok file ∧ ClassSpec.ofFile file = .ok found ∧
        found.same leastKeyedClass = false := by
  have h := isPrintable_leastKeyedClass
  have hkey : leastKeyedClass.hasLeastKey = true := by decide +kernel
  have hother : leastKeyedClass.reread.same leastKeyedClass = false := by rw [h.reread_eq.1, hkey]; rfl
  exact ⟨h, _, _, _, h.realize_eq _, Outline.parse_print h.isWritten _, h.ofFile_eq, hother⟩

end PhpGraft

import PhpGraft.Model.ConstSpec
import PhpGraft.Proofs.Model.Members
import PhpGraft.Proofs.Model.PrintedValue
import PhpGraft.Proofs.Syntax.Captures
import PhpGraft.Proofs.Syntax.Printing

/-!
# Members printed and read back

Constants, properties and methods without attributes, whose types are declared and not documented, become nodes
that can be written and read back (`IsPrintable.isWritten`). The members that such nodes are read back as are the
ones that they were made from, but for values in which the least integer is the key of a field
(`IsPrintable.recover?_eq`): a member is read back equal exactly when none of its values has such a key, and it
is then the very same one (`IsPrintable.reread_eq`).
-/

namespace PhpGraft

open Lexer Text

/-! ## Names and types -/

/-- A class name is a name, with or without a backslash at the front. -/
theorem isNameText_of_isClassName {cs : List Char} (h : ValueSpec.isClassName cs = true) :
    isNameText cs = true := by
  rw [ValueSpec.isClassName] at h
  split at h
  · next hfront =>
    obtain ⟨rest, rfl⟩ := List.head?_eq_some_iff.1 (beq_iff_eq.1 hfront)
    obtain ⟨c, rest, hrest, hc, hlength⟩ := exists_of_isQualified h
    obtain rfl : _ = c :: rest := hrest
    have hstart := (isIdentStart_of_ascii hc).1
    have hblank : isBlank '\\' = false := rfl
    have hlength : nameLength (c :: rest) = (c :: rest).length := hlength
    simp [isNameText, startsName, hstart, hblank, hlength]
  · exact isNameText_of_isQualified h

namespace TypeSpec

/-- The name of a type that was parsed is a class name. -/
theorem IsSpelled.isClassName {t : TypeSpec} (h : t.IsSpelled) :
    ValueSpec.isClassName t.qualified.toList = true := by
  have hbase := h.head?_base (c := '\\') rfl
  rw [toList_qualified, ValueSpec.isClassName]
  cases t.rooted with
  | true => exact h.qualified
  | false =>
    have hfront : (t.base.toList.head? == some '\\') = false := beq_false_of_ne hbase
    simpa [hfront] using h.qualified

/-- A type that was parsed is written as a single name. -/
theorem IsParsed.isSingle {t : TypeSpec} (h : t.IsParsed) : t.hint.IsSingle :=
  isNameText_of_isClassName h.isSpelled.isClassName

/-- What holds of a type as it is written holds of what is written where there is a type. -/
theorem forall_hint {t? : Option TypeSpec} {P : TypeHint → Prop} (h : ∀ t ∈ t?, P t.hint) :
    ∀ hint ∈ t?.map TypeSpec.hint, P hint := by
  intro hint hhint
  obtain ⟨t, ht, rfl⟩ := Option.map_eq_some_iff.1 hhint
  exact h t ht

end TypeSpec

/-! ## Doc comments -/

/-- A doc comment whose free text is read back, or none. -/
def DocBlock.IsPrintable (doc? : Option String) : Prop := ∀ doc ∈ doc?, ∃ ls, IsFreeText doc ls

/-- The comment of free text is stored as it is written, and the block of the free text is read from it. -/
theorem DocBlock.IsPrintable.rendered {doc? : Option String} (h : IsPrintable doc?) :
    (∀ d ∈ renderSummary? doc?, IsStored d) ∧ renderSummary? doc? = (ofDoc? doc?).render? ∧
      ∃ ls, ((renderSummary? doc?).map parse).getD {} = ⟨ls, []⟩ ∧ summaryText? ⟨ls, []⟩ = doc? := by
  cases doc? with
  | none => exact ⟨nofun, rfl, [], rfl, rfl⟩
  | some doc =>
    obtain ⟨ls, hfree⟩ := h doc rfl
    obtain ⟨a, ks, hstored, hrender, hparse⟩ := hfree.exists_written
    have hblock : addSummary {} doc = ⟨ls, []⟩ := by
      rw [hfree.text]
      exact addSummary_intercalate hfree.readable
    have hcomment : renderSummary? (some doc) = some (String.ofList (docText a ks)) := by
      rw [← hrender, ← hblock]
      rfl
    refine ⟨?_, rfl, ls, ?_, ?_⟩
    · rw [hcomment]
      rintro d ⟨⟩
      exact ⟨a, ks, hstored, String.toList_ofList⟩
    · rw [hcomment, Option.map_some, Option.getD_some, hparse]
    · rw [summaryText?, if_neg (by simpa using hfree.nonempty), hfree.text]

/-- The free text is read back from the comment. -/
theorem DocBlock.IsPrintable.summaryOf?_eq {doc? : Option String} (h : IsPrintable doc?) :
    summaryOf? (renderSummary? doc?) = doc? := by
  obtain ⟨-, -, ls, hblock, htext⟩ := h.rendered
  have hsummary (d? : Option String) : summaryOf? d? = ((d?.map parse).getD {}).summaryText? := by
    cases d? with
    | none => rfl
    | some d => rw [summaryOf?, Option.bind_some, Option.map_some, Option.getD_some]
  rw [hsummary, hblock, htext]

/-! ## Values -/

/-- A default that is exact becomes an expression, which is plain. -/
theorem ValueSpec.mapM_materialize {v? : Option ValueSpec} (h : ∀ v ∈ v?, v.IsExact) :
    v?.mapM materialize = .ok (v?.map expr) ∧ (∀ e ∈ v?.map expr, e.isPlain = true) ∧
      ((v?.map expr).map Expr.reread).map recover = v?.map reread := by
  cases v? with
  | none => exact ⟨rfl, nofun, rfl⟩
  | some v =>
    obtain ⟨hvalue, hplain⟩ := (h v rfl).materialize_eq
    refine ⟨?_, ?_, rfl⟩
    · rw [Option.mapM_some, hvalue]
      rfl
    · rintro e ⟨⟩
      exact hplain

/-- A default is read back equal exactly when no least integer is the key of a field in it. -/
theorem ValueSpec.map_reread_eq {v? : Option ValueSpec} (h : ∀ v ∈ v?, v.IsExact) :
    (v?.map reread == v?) = !v?.any hasLeastKey ∧ (v?.any hasLeastKey = false → v?.map reread = v?) := by
  cases v? with
  | none => exact ⟨rfl, fun _ => rfl⟩
  | some v => exact ⟨(h v rfl).reread_eq.1, fun hkey => congrArg some ((h v rfl).reread_eq.2 hkey)⟩

/-! ## Constants -/

namespace ConstSpec

/-- A constant that is read back from its print, up to what becomes of its value. -/
structure IsPrintable (c : ConstSpec) : Prop where
  name : Name.isIdentifier c.name = true
  value : c.value.IsExact
  doc : DocBlock.IsPrintable c.doc?
  attributes : c.attributes = []

/-- The constant as it is printed. -/
def member (c : ConstSpec) : DocMember :=
  ⟨renderSummary? c.doc?, .constDecl ⟨c.name, c.modifiers, c.value.expr⟩⟩

/-- What the constant is read back as. -/
def reread (c : ConstSpec) : ConstSpec := { c with value := c.value.reread }

/-- Whether the least integer is the key of a field in the value of the constant. -/
def hasLeastKey (c : ConstSpec) : Bool := c.value.hasLeastKey

/-- The name of the constant is read back. -/
theorem key_reread (c : ConstSpec) : Keyed.key c.reread = Keyed.key c := rfl

variable {c : ConstSpec}

/-- A printable constant becomes its node, which can be written. -/
theorem IsPrintable.isWritten (h : c.IsPrintable) : c.realize = .ok c.member.outline.node ∧
    c.member.kind.IsWritten ∧ ∀ d ∈ c.member.doc?, IsStored d := by
  obtain ⟨hvalue, hplain⟩ := h.value.materialize_eq
  refine ⟨?_, ⟨h.name, hplain⟩, h.doc.rendered.1⟩
  rw [realize, hvalue, h.attributes]
  rfl

/-- A printable constant is read back from what its node is read back as. -/
theorem IsPrintable.recover?_eq (h : c.IsPrintable) : recover? c.member.reread.outline.node = some c.reread := by
  show some (ConstSpec.mk c.name c.value.reread c.modifiers (summaryOf? (renderSummary? c.doc?)) []) = _
  rw [h.doc.summaryOf?_eq, ← h.attributes]
  rfl

/-- A printable constant is read back equal exactly when no least integer is the key of a field in it. -/
theorem IsPrintable.reread_eq (h : c.IsPrintable) :
    c.reread.same c = !c.hasLeastKey ∧ (c.hasLeastKey = false → c.reread = c) := by
  obtain ⟨hsame, hself⟩ := h.value.reread_eq
  refine ⟨?_, fun hkey => ?_⟩
  · rw [hasLeastKey, ← hsame]
    simp [same, reread, h.attributes]
  · rw [reread, hself hkey]

end ConstSpec

/-! ## Properties -/

namespace PropertySpec

/-- A property that is read back from its print, up to what becomes of its default. -/
structure IsPrintable (p : PropertySpec) : Prop where
  name : Name.isIdentifier p.name = true
  type : ∀ t ∈ p.type?, t.IsParsed ∧ t.hint.IsQuiet
  default : ∀ v ∈ p.default?, v.IsExact
  typed : p.typed = true
  doc : DocBlock.IsPrintable p.doc?
  docType : p.docType? = none
  attributes : p.attributes = []

/-- The property as it is printed. -/
def member (p : PropertySpec) : DocMember :=
  ⟨renderSummary? p.doc?,
    .propertyDecl ⟨p.name, p.modifiers, p.type?.map TypeSpec.hint, p.default?.map ValueSpec.expr⟩⟩

/-- What the property is read back as. -/
def reread (p : PropertySpec) : PropertySpec := { p with default? := p.default?.map ValueSpec.reread }

/-- Whether the least integer is the key of a field in the default of the property. -/
def hasLeastKey (p : PropertySpec) : Bool := p.default?.any ValueSpec.hasLeastKey

/-- The name of the property is read back. -/
theorem key_reread (p : PropertySpec) : Keyed.key p.reread = Keyed.key p := rfl

variable {p : PropertySpec}

/-- The doc comment of a printable property is its free text. -/
theorem IsPrintable.docBlock_eq (h : p.IsPrintable) : p.docBlock = DocBlock.ofDoc? p.doc? := by
  have hshown : p.shownType? = none := by
    rw [shownType?, h.docType, h.typed]
    cases p.type? <;> rfl
  rw [docBlock, hshown]
  cases p.doc? <;> rfl

/-- A printable property becomes its node, which can be written. -/
theorem IsPrintable.isWritten (h : p.IsPrintable) : p.realize = .ok p.member.outline.node ∧
    p.member.kind.IsWritten ∧ ∀ d ∈ p.member.doc?, IsStored d := by
  obtain ⟨hdefault, hplain, -⟩ := ValueSpec.mapM_materialize h.default
  obtain ⟨hstored, hrender, -⟩ := h.doc.rendered
  have htype : ∀ hint ∈ p.type?.map TypeSpec.hint, hint.IsSingle ∧ hint.IsQuiet :=
    TypeSpec.forall_hint fun t ht => ⟨(h.type t ht).1.isSingle, (h.type t ht).2⟩
  refine ⟨?_, ⟨h.name, htype, hplain⟩, hstored⟩
  rw [realize, hdefault, h.attributes, h.typed, h.docBlock_eq, ← hrender]
  rfl

/-- A printable property is read back from what its node is read back as. -/
theorem IsPrintable.recover?_eq (h : p.IsPrintable) : recover? p.member.reread.outline.node = some p.reread := by
  obtain ⟨-, -, hdefault⟩ := ValueSpec.mapM_materialize h.default
  obtain ⟨-, -, ls, hblock, htext⟩ := h.doc.rendered
  have htype : recoverType (p.type?.map TypeSpec.hint) none = (p.type?, none) ∧
      ((p.type?.map TypeSpec.hint).isSome || p.type?.isNone) = true := by
    have hback := ParameterSpec.map_ofHint fun t ht => (h.type t ht).1
    cases htype : p.type? with
    | none => exact ⟨rfl, rfl⟩
    | some t =>
      rw [htype] at hback
      exact ⟨congrArg (fun t? => (t?, none)) hback, rfl⟩
  have hnode : p.member.reread.outline.node =
      { kind := .propertyDecl
          ⟨p.name, p.modifiers, p.type?.map TypeSpec.hint, (p.default?.map ValueSpec.expr).map Expr.reread⟩
        doc? := renderSummary? p.doc? } := rfl
  rw [hnode, recover?]
  dsimp only
  rw [hblock, htext, hdefault, DocBlock.findTag?, List.lookup_nil, htype.1]
  dsimp only
  rw [htype.2, reread, ← h.typed, ← h.docType, List.map_nil, ← h.attributes]

/-- A printable property is read back equal exactly when no least integer is the key of a field in it. -/
theorem IsPrintable.reread_eq (h : p.IsPrintable) :
    p.reread.same p = !p.hasLeastKey ∧ (p.hasLeastKey = false → p.reread = p) := by
  obtain ⟨hsame, hself⟩ := ValueSpec.map_reread_eq h.default
  refine ⟨?_, fun hkey => ?_⟩
  · rw [hasLeastKey, ← hsame]
    simp [same, reread, h.attributes]
  · rw [reread, hself hkey]

end PropertySpec

/-! ## Parameters -/

namespace ParameterSpec

/-- A parameter that is read back from its print, up to what becomes of its default. -/
structure IsPrintable (p : ParameterSpec) : Prop where
  name : Name.isIdentifier p.name = true
  type : ∀ t ∈ p.type?, t.IsParsed ∧ t.hint.IsQuiet
  default : ∀ v ∈ p.default?, v.IsExact
  docHint : p.docHint? = none
  attributes : p.attributes = []

/-- The parameter as it is printed. -/
def param (p : ParameterSpec) : Param :=
  { name := p.name
    type? := p.type?.map TypeSpec.hint
    default? := p.default?.map ValueSpec.expr
    byRef := p.byRef
    variadic := p.variadic
    modifiers := p.modifiers }

/-- What the parameter is read back as. -/
def reread (p : ParameterSpec) : ParameterSpec := { p with default? := p.default?.map ValueSpec.reread }

/-- Whether the least integer is the key of a field in the default of the parameter. -/
def hasLeastKey (p : ParameterSpec) : Bool := p.default?.any ValueSpec.hasLeastKey

/-- The name of the parameter is read back. -/
theorem key_reread (p : ParameterSpec) : Keyed.key p.reread = Keyed.key p := rfl

variable {p : ParameterSpec}

/-- A printable parameter becomes one that can be written. -/
theorem IsPrintable.isWritten (h : p.IsPrintable) : p.realize true = .ok p.param ∧ p.param.IsPlain := by
  obtain ⟨hdefault, hplain, -⟩ := ValueSpec.mapM_materialize h.default
  have hquiet : p.param.IsQuiet := ⟨rfl, TypeSpec.forall_hint fun t ht => (h.type t ht).2, hplain⟩
  refine ⟨?_, hquiet, h.name, TypeSpec.forall_hint fun t ht => (h.type t ht).1.isSingle⟩
  rw [realize, hdefault, h.attributes]
  rfl

/-- A printable parameter is read back from what it is read as. -/
theorem IsPrintable.recover_eq (h : p.IsPrintable) : recover p.param.reread = p.reread := by
  obtain ⟨-, -, hdefault⟩ := ValueSpec.mapM_materialize h.default
  have htype := map_ofHint fun t ht => (h.type t ht).1
  rw [recover, reread]
  dsimp only [param, Param.reread]
  rw [hdefault, htype, h.docHint, h.attributes]
  rfl

/-- A printable parameter is read back equal exactly when no least integer is the key of a field in it. -/
theorem IsPrintable.reread_eq (h : p.IsPrintable) :
    p.reread.same p = !p.hasLeastKey ∧ (p.hasLeastKey = false → p.reread = p) := by
  obtain ⟨hsame, hself⟩ := ValueSpec.map_reread_eq h.default
  refine ⟨?_, fun hkey => ?_⟩
  · rw [hasLeastKey, ← hsame]
    simp [same, reread, h.attributes]
  · rw [reread, hself hkey]

end ParameterSpec

/-! ## Bodies -/

namespace Body

/-- Statements that are read back from their print: ASCII text without carriage returns and attribute lists, no
heredoc of which has a label that ends in white space, and which is kept as it is. -/
structure IsPrintable (source : String) : Prop where
  nonempty : source ≠ ""
  plain : IsPlainText source.toList
  parsed : ∃ b, parse source = .ok b ∧ b.text = source
  bare : ¬ HasAttributes source
  tidy : ∀ ts, fragment source = .ok ts → ∀ t ∈ ts, t.IsTidy

/-- No statements can stand between braces. -/
theorem enclosable_empty : Enclosable ⟨[]⟩ := by
  refine ⟨[], ⟨List.forall_mem_nil _, [], ⟨.eof, [], [], 0⟩, ?_, rfl, rfl, List.forall_mem_nil _⟩, ?_⟩ <;>
    decide +kernel

/-- Statements that are read back are kept as they are and can stand between braces. -/
theorem IsPrintable.enclosable {source : String} (h : IsPrintable source) :
    parse source = .ok (ofSource source.toList) ∧ (ofSource source.toList).text = source ∧
      (ofSource source.toList).Enclosable := by
  obtain ⟨b, hparse, htext⟩ := h.parsed
  obtain ⟨⟨ts, hts, hbalanced⟩, rfl⟩ := parse_eq_ok_iff.1 hparse
  obtain ⟨us, e, rfl, he, -, heof⟩ := tokens_last hts
  have hattribute : ∀ t ∈ us, t.kind ≠ .attributeOpen := fun t ht hkind =>
    h.bare ⟨_, hts, t, List.mem_append_left _ ht, hkind⟩
  have htidy : ∀ t ∈ us, t.IsTidy := fun t ht => h.tidy _ hts t (List.mem_append_left _ ht)
  have hdepth := Reader.depthBehind?_of_balanced he heof hattribute hbalanced
  exact ⟨hparse, htext, source.toList, ⟨h.plain, us, e, hts, he, hdepth, htidy⟩, rfl⟩

end Body

/-! ## Methods -/

namespace MethodSpec

/-- A method of a class that is read back from its print, up to what becomes of the defaults of its parameters. -/
structure IsPrintable (m : MethodSpec) : Prop where
  name : Name.isIdentifier m.name = true
  params : ∀ p ∈ m.params.items, p.IsPrintable
  returns : ∀ t ∈ m.returns?, t.IsParsed
  body : ∀ source ∈ m.body?, Body.IsPrintable source
  bodiless : m.modifiers.isAbstract = true → m.body? = none
  typed : m.typed = true
  doc : DocBlock.IsPrintable m.doc?
  docReturn : m.docReturn? = none
  composed : m.docBlock? = none
  attributes : m.attributes = []

/-- The statements of the method as they are printed. -/
def block? (m : MethodSpec) : Option Body :=
  if m.modifiers.isAbstract then none else some (Body.ofSource (m.body?.getD "").toList)

/-- The method as it is printed. -/
def member (m : MethodSpec) : DocMember :=
  ⟨renderSummary? m.doc?, .methodDecl ⟨m.name, m.modifiers, m.byRef, m.params.items.map ParameterSpec.param,
    m.returns?.map TypeSpec.hint, m.block?⟩⟩

/-- What the method is read back as. -/
def reread (m : MethodSpec) : MethodSpec :=
  { m with params := m.params.map ParameterSpec.reread ParameterSpec.key_reread }

/-- Whether the least integer is the key of a field in the default of a parameter of the method. -/
def hasLeastKey (m : MethodSpec) : Bool := m.params.items.any ParameterSpec.hasLeastKey

/-- The name of the method is read back. -/
theorem key_reread (m : MethodSpec) : Keyed.key m.reread = Keyed.key m := rfl

variable {m : MethodSpec}

/-- A printable method has no tags in its doc comment. -/
theorem IsPrintable.renderDoc?_eq (h : m.IsPrintable) : m.renderDoc? = renderSummary? m.doc? := by
  obtain ⟨-, hrender, -⟩ := h.doc.rendered
  have hhints : m.hasHints = false := by
    rw [hasHints, h.docReturn, Option.isSome_none, Bool.or_false, List.any_eq_false]
    intro p hp
    rw [(h.params p hp).docHint]
    exact Bool.false_ne_true
  have hdoc : m.composedDoc = DocBlock.ofDoc? m.doc? := by
    obtain ⟨ls, hls⟩ : ∃ ls, DocBlock.ofDoc? m.doc? = ⟨ls, []⟩ := by
      cases m.doc? with
      | none => exact ⟨[], rfl⟩
      | some doc => exact ⟨_, rfl⟩
    rw [composedDoc_eq hls, shownTags_eq_nil h.typed hhints, hls]
  rw [renderDoc?, h.composed, Option.getD_none, hdoc, hrender]

/-- The statements of a printable method are read back from those of its node. -/
theorem IsPrintable.block?_eq (h : m.IsPrintable) : m.realizeBody? false = .ok m.block? ∧
    (∀ b ∈ m.block?, b.Enclosable) ∧
      (m.block?.map Body.text).filter (fun source => !source.isEmpty) = m.body? := by
  unfold realizeBody? block?
  rw [Bool.false_or]
  split
  · next habstract => exact ⟨rfl, nofun, (h.bodiless habstract).symm⟩
  · cases hbody : m.body? with
    | none =>
      have hempty : Body.parse "" = .ok ⟨[]⟩ := by decide +kernel
      have hblock : Body.ofSource "".toList = ⟨[]⟩ := (Body.parse_eq_ok_iff.1 hempty).2.symm
      rw [Option.getD_none, hempty, hblock]
      refine ⟨rfl, ?_, rfl⟩
      rintro b ⟨⟩
      exact Body.enclosable_empty
    | some source =>
      obtain ⟨hparse, htext, henclosable⟩ := (h.body source hbody).enclosable
      rw [Option.getD_some, hparse]
      refine ⟨rfl, ?_, ?_⟩
      · rintro b ⟨⟩
        exact henclosable
      · rw [Option.map_some, htext, Option.filter_some, if_pos (by simpa using (h.body source hbody).nonempty)]

/-- A printable method becomes its node, which can be written. -/
theorem IsPrintable.isWritten (h : m.IsPrintable) : m.realize false = .ok m.member.outline.node ∧
    m.member.kind.IsWritten ∧ ∀ d ∈ m.member.doc?, IsStored d := by
  obtain ⟨hbody, henclosable, -⟩ := h.block?_eq
  obtain ⟨hstored, -⟩ := h.doc.rendered
  have hparams : m.params.items.mapM (ParameterSpec.realize true) =
      .ok (m.params.items.map ParameterSpec.param) := by
    obtain ⟨ps, hps, hsame⟩ := exists_mapM (g := id) fun p hp => ⟨_, (h.params p hp).isWritten.1, rfl⟩
    rw [List.map_id] at hsame
    rw [hps, hsame]
    rfl
  have hplain := List.forall_mem_map.2 fun p hp => (h.params p hp).isWritten.2
  have hreturns : ∀ hint ∈ m.returns?.map TypeSpec.hint, hint.IsSingle :=
    TypeSpec.forall_hint fun t ht => (h.returns t ht).isSingle
  refine ⟨?_, ⟨h.name, hplain, hreturns, henclosable⟩, hstored⟩
  rw [realize, hbody, h.typed, hparams, h.attributes, h.renderDoc?_eq]
  rfl

/-- The parameters of a printable method are read back from what they are read as. -/
theorem IsPrintable.params_eq (h : m.IsPrintable) :
    (.ofList (((m.params.items.map ParameterSpec.param).map Param.reread).map ParameterSpec.recover) :
      NameMap ParameterSpec) = m.params.map ParameterSpec.reread ParameterSpec.key_reread := by
  have hitems : ((m.params.items.map ParameterSpec.param).map Param.reread).map ParameterSpec.recover =
      (m.params.map ParameterSpec.reread ParameterSpec.key_reread).items := by
    rw [List.map_map, List.map_map]
    exact List.map_congr_left fun p hp => (h.params p hp).recover_eq
  rw [hitems]
  exact NameMap.ofList_items _

/-- A printable method is read back from what its node is read back as. -/
theorem IsPrintable.recover?_eq (h : m.IsPrintable) : recover? m.member.reread.outline.node = some m.reread := by
  obtain ⟨-, -, hbody⟩ := h.block?_eq
  obtain ⟨-, -, ls, hblock, htext⟩ := h.doc.rendered
  have hreturns := ParameterSpec.map_ofHint h.returns
  have hnode : m.member.reread.outline.node =
      { kind := .methodDecl ⟨m.name, m.modifiers, m.byRef,
          (m.params.items.map ParameterSpec.param).map Param.reread, m.returns?.map TypeSpec.hint, m.block?⟩
        doc? := renderSummary? m.doc? } := rfl
  rw [hnode, recover?]
  dsimp only
  rw [hblock, htext, hbody, h.params_eq, hreturns, List.any_nil, Bool.not_false, Bool.or_true, List.foldl_nil,
    if_neg Bool.false_ne_true, reread, h.typed, h.docReturn, h.composed, h.attributes]
  rfl

/-- A printable method is read back equal exactly when no least integer is the key of a field in it. -/
theorem IsPrintable.reread_eq (h : m.IsPrintable) :
    m.reread.same m = !m.hasLeastKey ∧ (m.hasLeastKey = false → m.reread = m) := by
  obtain ⟨hsame, hself⟩ := NameMap.same_map ParameterSpec.key_reread fun p hp => (h.params p hp).reread_eq
  refine ⟨?_, fun hkey => ?_⟩
  · rw [hasLeastKey, ← hsame]
    simp [same, reread, h.attributes]
  · rw [reread, hself hkey]

end MethodSpec

end PhpGraft

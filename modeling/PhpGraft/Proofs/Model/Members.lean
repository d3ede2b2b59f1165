import PhpGraft.Model.PropertySpec
import PhpGraft.Proofs.Model.NameMap
import PhpGraft.Proofs.Model.ParameterSpec

/-!
# Members read back

A property or a method becomes a node, and the node is read back as the property or method that it was made
from (`members_read_back`). Types that are declared are read from the declaration and the others from the
tags of the doc comment, which are gone through one after another: each tag of a parameter gives the
parameter the type that it shows (`foldl_paramTags`).
-/

namespace PhpGraft

open Lexer Text

/-- The value of a tag that is read back: a trimmed line. -/
structure DocBlock.IsValue (value : String) : Prop where
  trimmed : trim value.toList = value.toList
  noNewline : '\n' ∉ value.toList

/-- A tag whose name and value are read back is. -/
theorem DocBlock.IsValue.isTag {name value : String} (h : IsValue value)
    (hname : name.toList ≠ [] ∧ ∀ c ∈ name.toList, isBlank c = false) : IsTag (name, value) :=
  ⟨hname.1, hname.2, h.trimmed, h.noNewline⟩

/-- The type as it is documented is the value of a tag. -/
theorem TypeSpec.IsSpelled.isValue {t : TypeSpec} (h : t.IsSpelled) : DocBlock.IsValue t.docType where
  trimmed := trim_eq_self (fun c hc => h.blank_docType c (List.mem_of_mem_head? hc))
    fun c hc => h.blank_docType c (List.mem_of_getLast? hc)
  noNewline hn := absurd (h.blank_docType _ hn) (by decide)

/-! ## Properties -/

namespace PropertySpec

/-- A property whose parts are read back. Its doc comment shows no type other than the one that it has,
unless that one is declared. -/
structure IsPlain (p : PropertySpec) : Prop where
  type : ∀ t ∈ p.type?, t.IsParsed
  default : ∀ v ∈ p.default?, v.IsPlain
  attributes : ∀ a ∈ p.attributes, a.IsSource
  doc : ∀ doc ∈ p.doc?, DocBlock.IsDoc doc
  shown : (p.typed = true ∧ p.type?.isSome = true ∧ ∀ value ∈ p.docType?, DocBlock.IsValue value) ∨
    (p.typed = true ∧ p.type? = none ∧ p.docType? = none) ∨
    (p.typed = false ∧ p.type?.isSome = true ∧ p.docType? = none)

variable {p : PropertySpec}

/-- The tag that shows the type of a property is read as a tag. -/
theorem IsPlain.isTag (h : p.IsPlain) : ∀ tag ∈ p.shownType?.toList.map ("var", ·), DocBlock.IsTag tag := by
  have hvar : "var".toList ≠ [] ∧ ∀ c ∈ "var".toList, isBlank c = false :=
    ⟨by decide, noBlank_of_any (by decide)⟩
  intro tag htag
  obtain ⟨value, hvalue, rfl⟩ := List.mem_map.1 htag
  refine DocBlock.IsValue.isTag ?_ hvar
  obtain ⟨name, type?, default?, modifiers, typed, doc?, docType?, attributes⟩ := p
  obtain ⟨htype, -, -, -, hshown⟩ := h
  dsimp only at htype hshown
  rcases hshown with ⟨rfl, hsome, hvalues⟩ | ⟨rfl, rfl, rfl⟩ | ⟨rfl, hsome, rfl⟩
  · cases docType? with
    | some shown =>
      obtain rfl := Option.some.inj (Option.mem_toList.1 hvalue)
      exact hvalues shown rfl
    | none => cases type? <;> cases hvalue
  · cases hvalue
  · obtain ⟨t, rfl⟩ := Option.isSome_iff_exists.1 hsome
    obtain rfl := Option.some.inj (Option.mem_toList.1 hvalue)
    exact (htype t rfl).isSpelled.isValue

/-- The types of a property are read back from its declaration and the tag of its doc comment. -/
theorem IsPlain.recoverType_eq (h : p.IsPlain) :
    recoverType (if p.typed then p.type?.map TypeSpec.hint else none) p.shownType? = (p.type?, p.docType?) ∧
      ((if p.typed then p.type?.map TypeSpec.hint else none).isSome || p.type?.isNone) = p.typed := by
  obtain ⟨name, type?, default?, modifiers, typed, doc?, docType?, attributes⟩ := p
  obtain ⟨htype, -, -, -, hshown⟩ := h
  dsimp only at htype hshown
  rcases hshown with ⟨rfl, hsome, hvalues⟩ | ⟨rfl, rfl, rfl⟩ | ⟨rfl, hsome, rfl⟩
  · obtain ⟨t, rfl⟩ := Option.isSome_iff_exists.1 hsome
    have hback := (htype t rfl).isSpelled.ofHint_hint
    refine ⟨?_, rfl⟩
    cases docType? with
    | none => exact congrArg (fun t => (some t, none)) hback
    | some shown => exact congrArg (fun t => (some t, some shown)) hback
  · exact ⟨rfl, rfl⟩
  · obtain ⟨t, rfl⟩ := Option.isSome_iff_exists.1 hsome
    have hback := (htype t rfl).isSpelled.ofDocType?_docType
    refine ⟨?_, rfl⟩
    rw [if_neg Bool.false_ne_true]
    unfold recoverType shownType?
    simp only [if_neg Bool.false_ne_true, hback]

/-- A property becomes a node and is read back from it. -/
theorem IsPlain.exists_node (h : p.IsPlain) : ∃ n, p.realize = .ok n ∧ recover? n = some p := by
  obtain ⟨e?, he, hdefault⟩ := ValueSpec.exists_default h.default
  obtain ⟨bs, hbs, hattributes⟩ := AttributeSpec.exists_attributes h.attributes
  obtain ⟨ls, hsummary, hblock⟩ := DocBlock.exists_summary h.doc
  obtain ⟨hreadable, htext⟩ := hblock _ h.isTag
  obtain ⟨htypes, htyped⟩ := h.recoverType_eq
  -- the doc comment is the free text with the tag
  have hdoc : p.docBlock = ⟨ls, p.shownType?.toList.map ("var", ·)⟩ := by
    have hcomposed : p.docBlock =
        p.shownType?.elim (DocBlock.ofDoc? p.doc?) ((DocBlock.ofDoc? p.doc?).addTag "var") := by
      rw [docBlock]
      cases p.shownType? <;> rfl
    rw [hcomposed, hsummary]
    cases p.shownType? <;> rfl
  have hread : (p.docBlock.render?.map DocBlock.parse).getD {} = ⟨ls, p.shownType?.toList.map ("var", ·)⟩ := by
    rw [hdoc]
    exact DocBlock.getD_parse_render hreadable
  have hfound : DocBlock.findTag? ⟨ls, p.shownType?.toList.map ("var", ·)⟩ "var" = p.shownType? := by
    cases p.shownType? <;> rfl
  refine ⟨{ kind := .propertyDecl
              ⟨p.name, p.modifiers, if p.typed then p.type?.map TypeSpec.hint else none, e?⟩
            doc? := p.docBlock.render?
            attributes := bs }, ?_, ?_⟩
  · rw [realize, he, hbs]
    rfl
  · rw [recover?]
    dsimp only
    rw [hread, hfound, htypes, htext, hdefault, hattributes]
    dsimp only
    rw [htyped]

end PropertySpec

/-! ## Methods -/

namespace MethodSpec

/-- Whether a parameter or the result of a method has a type. -/
def hasTypes (m : MethodSpec) : Bool := m.params.items.any (·.type?.isSome) || m.returns?.isSome

/-- Whether the doc comment shows a type of its own for a parameter or the result. -/
def hasHints (m : MethodSpec) : Bool := m.params.items.any (·.docHint?.isSome) || m.docReturn?.isSome

/-- The types that a method shows: they are declared, and if there are any, the doc comment can show others;
or there are some, and the doc comment shows just these. -/
def ShowsTypes (m : MethodSpec) : Prop :=
  if m.typed then
    (m.hasHints = true → m.hasTypes = true) ∧
      (∀ p ∈ m.params.items, ∀ hint ∈ p.docHint?, ParameterSpec.IsHint hint) ∧
      ∀ value ∈ m.docReturn?, DocBlock.IsValue value
  else m.hasTypes = true ∧ m.hasHints = false

/-- A method whose parts are read back. Its doc comment is made of its parts, and its statements, if it has
any, are as they are kept. -/
structure IsPlain (inInterface : Bool) (m : MethodSpec) : Prop where
  params : ∀ p ∈ m.params.items, p.IsPlain
  returns : ∀ t ∈ m.returns?, t.IsParsed
  attributes : ∀ a ∈ m.attributes, a.IsSource
  doc : ∀ doc ∈ m.doc?, DocBlock.IsDoc doc
  composed : m.docBlock? = none
  shown : m.ShowsTypes
  body : ∀ source ∈ m.body?, source ≠ "" ∧ ∃ b, Body.parse source = .ok b ∧ b.text = source
  bodiless : inInterface = true ∨ m.modifiers.isAbstract = true → m.body? = none

variable {m : MethodSpec} {inInterface typed : Bool}

/-! ### Tags -/

/-- The tags of parameters. -/
def paramTags (typed : Bool) (ps : List ParameterSpec) : List (String × String) :=
  (ps.filterMap (ParameterSpec.docLine? typed)).map ("param", ·)

/-- The tags that the doc comment of a method shows. -/
def shownTags (m : MethodSpec) : List (String × String) :=
  paramTags m.typed m.params.items ++ m.shownReturn?.toList.map ("return", ·)

/-- The doc comment of a method is its free text with its tags. -/
theorem composedDoc_eq {ls : List String} (h : DocBlock.ofDoc? m.doc? = ⟨ls, []⟩) :
    m.composedDoc = ⟨ls, m.shownTags⟩ := by
  have hfold (values : List String) (b : DocBlock) :
      values.foldl (fun b value => b.addTag "param" value) b = ⟨b.summary, b.tags ++ values.map ("param", ·)⟩ := by
    induction values generalizing b with
    | nil => rw [List.map_nil, List.append_nil]; rfl
    | cons value values ih =>
      rw [List.foldl_cons, ih, DocBlock.addTag]
      simp
  have hcomposed : m.composedDoc =
      let block := (m.params.items.filterMap (ParameterSpec.docLine? m.typed)).foldl
        (fun b value => b.addTag "param" value) (DocBlock.ofDoc? m.doc?)
      m.shownReturn?.elim block (block.addTag "return") := by
    rw [composedDoc]
    cases m.shownReturn? <;> rfl
  rw [hcomposed, hfold, h, shownTags, paramTags]
  cases m.shownReturn? with
  | none => rw [Option.toList_none, List.map_nil, List.append_nil]; rfl
  | some shown => rfl

/-- The parameters of a method show only types that they may show. -/
theorem ShowsTypes.showsHint (h : m.ShowsTypes) : ∀ p ∈ m.params.items, p.ShowsHint m.typed := by
  intro p hp
  unfold ShowsTypes at h
  unfold ParameterSpec.ShowsHint
  split at h
  · next htyped =>
    rw [if_pos htyped]
    exact h.2.1 p hp
  · next htyped =>
    rw [if_neg htyped]
    have hnone := (Bool.or_eq_false_iff.1 h.2).1
    rw [List.any_eq_false] at hnone
    simpa using hnone p hp

/-- The type that the doc comment shows for the result is the value of a tag. -/
theorem IsPlain.isValue (h : m.IsPlain inInterface) : ∀ value ∈ m.shownReturn?, DocBlock.IsValue value := by
  have hshown := h.shown
  unfold ShowsTypes at hshown
  intro value hvalue
  unfold shownReturn? at hvalue
  cases hreturn : m.docReturn? with
  | some shown =>
    rw [hreturn] at hvalue
    obtain rfl := Option.some.inj hvalue
    split at hshown
    · exact hshown.2.2 _ hreturn
    · have hnone := (Bool.or_eq_false_iff.1 hshown.2).2
      rw [hreturn] at hnone
      cases hnone
  | none =>
    rw [hreturn] at hvalue
    cases htype : m.returns? with
    | none =>
      rw [htype] at hvalue
      cases hvalue
    | some t =>
      rw [htype] at hvalue
      dsimp only at hvalue
      split at hvalue
      · cases hvalue
      · obtain rfl := Option.some.inj hvalue
        exact (h.returns t htype).isSpelled.isValue

/-- The tags of the doc comment are read as tags. -/
theorem IsPlain.isTag (h : m.IsPlain inInterface) : ∀ tag ∈ m.shownTags, DocBlock.IsTag tag := by
  have hreturn : "return".toList ≠ [] ∧ ∀ c ∈ "return".toList, isBlank c = false :=
    ⟨by decide, noBlank_of_any (by decide)⟩
  refine List.forall_mem_append.2 ⟨fun tag htag => ?_, fun tag htag => ?_⟩
  · obtain ⟨value, hvalue, rfl⟩ := List.mem_map.1 htag
    obtain ⟨p, hp, hline⟩ := List.mem_filterMap.1 hvalue
    obtain ⟨hnone, -⟩ | ⟨hint, hsome, hhint, -⟩ := (h.params p hp).docLine?_cases (h.shown.showsHint p hp)
    · rw [hnone] at hline
      cases hline
    · obtain rfl := Option.some.inj (hsome.symm.trans hline)
      exact (h.params p hp).isTag hhint
  · obtain ⟨value, hvalue, rfl⟩ := List.mem_map.1 htag
    exact (h.isValue value (Option.mem_toList.1 hvalue)).isTag hreturn

/-! ### Tags gone through -/

/-- The tag of a parameter gives the type that it shows to the parameter of its name, and to no other one. -/
theorem addTag_param {done todo : List ParameterSpec} {p : ParameterSpec} {hint : String} {r : Recovered}
    (hr : r.params.items = done ++ p.declared typed :: todo)
    (hdone : ∀ q ∈ done, q.name ≠ p.name) (htodo : ∀ q ∈ todo, q.name ≠ p.name)
    (hsplit : splitParamTag? (p.tagValue hint) = some (hint, p.name)) :
    ∃ params : NameMap ParameterSpec, params.items = done ++ (p.declared typed).withTag typed hint :: todo ∧
      r.addTag typed ("param", p.tagValue hint) = { r with params } := by
  have hcontains : r.params.contains p.name = true := by
    rw [NameMap.contains, hr, List.any_append, List.any_cons]
    have hkey : NameMap.hasKey p.name (p.declared typed) = true := beq_self_eq_true p.name
    rw [hkey, Bool.true_or, Bool.or_true]
  have hkept {qs : List ParameterSpec} (hqs : ∀ q ∈ qs, q.name ≠ p.name) :
      qs.map (fun q => if q.name = p.name then q.withTag typed hint else q) = qs :=
    (List.map_congr_left fun q hq => if_neg (hqs q hq)).trans (List.map_id' qs)
  refine ⟨tagParam typed hint p.name r.params, ?_, ?_⟩
  · show r.params.items.map (fun q => if q.name = p.name then q.withTag typed hint else q) = _
    rw [hr, List.map_append, List.map_cons, hkept hdone, hkept htodo]
    exact congrArg (done ++ · :: todo) (if_pos rfl)
  · rw [Recovered.addTag, if_pos rfl, hsplit]
    exact if_pos hcontains

/-- The tags of parameters give the parameters behind them the types that they show. -/
theorem foldl_paramTags {done todo : List ParameterSpec} {r : Recovered}
    (hr : r.params.items = done ++ todo.map (ParameterSpec.declared typed))
    (hnames : (done ++ todo).Pairwise fun a b => a.name ≠ b.name)
    (htodo : ∀ p ∈ todo, p.IsPlain ∧ p.ShowsHint typed) :
    ∃ params : NameMap ParameterSpec, params.items = done ++ todo ∧
      (paramTags typed todo).foldl (Recovered.addTag typed) r = { r with params } := by
  induction todo generalizing done r with
  | nil => exact ⟨r.params, hr, rfl⟩
  | cons p todo ih =>
    obtain ⟨⟨hplain, hshows⟩, htodo⟩ := List.forall_mem_cons.1 htodo
    have hnames' : (done ++ [p] ++ todo).Pairwise fun a b => a.name ≠ b.name := by
      rwa [List.append_assoc]
    obtain ⟨hnone, hself⟩ | ⟨hint, hsome, hhint, hback⟩ := hplain.docLine?_cases hshows
    · -- without a tag the parameter is what its declaration shows
      have htags : paramTags typed (p :: todo) = paramTags typed todo := by
        rw [paramTags, List.filterMap_cons_none hnone, paramTags]
      rw [List.map_cons, hself, List.append_cons] at hr
      obtain ⟨params, hparams, hfold⟩ := ih hr hnames' htodo
      refine ⟨params, by rw [hparams, List.append_assoc]; rfl, ?_⟩
      rw [htags, hfold]
    · have htags : paramTags typed (p :: todo) = ("param", p.tagValue hint) :: paramTags typed todo := by
        rw [paramTags, List.filterMap_cons_some hsome, List.map_cons, paramTags]
      obtain ⟨-, hafter, hcross⟩ := List.pairwise_append.1 hnames
      have hbehind : ∀ q ∈ todo.map (ParameterSpec.declared typed), q.name ≠ p.name := by
        intro q hq
        obtain ⟨other, hother, rfl⟩ := List.mem_map.1 hq
        exact ((List.pairwise_cons.1 hafter).1 other hother).symm
      have hahead : ∀ q ∈ done, q.name ≠ p.name := fun q hq => hcross q hq p List.mem_cons_self
      obtain ⟨params, hparams, htag⟩ :=
        addTag_param hr hahead hbehind (hplain.splitParamTag? hhint)
      rw [hback, List.append_cons] at hparams
      obtain ⟨params', hparams', hfold⟩ := ih (r := { r with params }) hparams hnames' htodo
      refine ⟨params', by rw [hparams', List.append_assoc]; rfl, ?_⟩
      rw [htags, List.foldl_cons, htag, hfold]

/-- The tag of the result gives the result the type that it shows. -/
theorem IsPlain.foldl_returnTag (h : m.IsPlain inInterface) (params : NameMap ParameterSpec) :
    (m.shownReturn?.toList.map ("return", ·)).foldl (Recovered.addTag m.typed)
        { params, returns? := (if m.typed then m.returns?.map TypeSpec.hint else none).map .ofHint } =
      { params, returns? := m.returns?, docReturn? := m.docReturn? } := by
  have hshown := h.shown
  unfold ShowsTypes at hshown
  have hdeclared := ParameterSpec.map_ofHint h.returns
  unfold shownReturn?
  cases htyped : m.typed with
  | true =>
    rw [if_pos rfl, hdeclared]
    cases hreturn : m.docReturn? with
    | some shown => rfl
    | none => cases m.returns? <;> rfl
  | false =>
    rw [htyped, if_neg Bool.false_ne_true] at hshown
    have hnone : m.docReturn? = none := by
      have := (Bool.or_eq_false_iff.1 hshown.2).2
      simpa using this
    rw [if_neg Bool.false_ne_true, hnone]
    cases hreturn : m.returns? with
    | none => rfl
    | some t =>
      have hback := (h.returns t hreturn).isSpelled.ofDocType?_docType
      simp [Recovered.addTag, hback]

/-! ### Nodes -/

/-- The statements of a method are read back from those of its node. -/
theorem IsPlain.exists_body (h : m.IsPlain inInterface) : ∃ body?, m.realizeBody? inInterface = .ok body? ∧
    (body?.map Body.text).filter (fun source => !source.isEmpty) = m.body? := by
  unfold realizeBody?
  split
  · next hnone => exact ⟨none, rfl, (h.bodiless (Bool.or_eq_true_iff.1 hnone)).symm⟩
  · cases hbody : m.body? with
    | none =>
      have hempty : Body.parse "" = .ok ⟨[]⟩ := by decide +kernel
      exact ⟨some ⟨[]⟩, by rw [Option.getD_none, hempty], rfl⟩
    | some source =>
      obtain ⟨hne, b, hparse, htext⟩ := h.body source hbody
      refine ⟨some b, by rw [Option.getD_some, hparse], ?_⟩
      rw [Option.map_some, htext, Option.filter_some, if_pos (by simpa using hne)]

/-- Without types of its own the doc comment of a method whose types are declared shows none. -/
theorem shownTags_eq_nil (htyped : m.typed = true) (h : m.hasHints = false) : m.shownTags = [] := by
  obtain ⟨hparams, hreturn⟩ := Bool.or_eq_false_iff.1 h
  rw [List.any_eq_false] at hparams
  have hlines : m.params.items.filterMap (ParameterSpec.docLine? m.typed) = [] := by
    rw [List.filterMap_eq_nil_iff, htyped]
    intro p hp
    have hnone : p.docHint? = none := by simpa using hparams p hp
    rw [ParameterSpec.docLine?, hnone]
    cases p.type? <;> rfl
  have hshown : m.shownReturn? = none := by
    have hnone : m.docReturn? = none := by simpa using hreturn
    rw [shownReturn?, hnone, htyped]
    cases m.returns? <;> rfl
  rw [shownTags, paramTags, hlines, hshown]
  rfl

/-- The doc comment of a method with types that are not declared shows one. -/
theorem any_shownTags (htyped : m.typed = false) (h : m.hasTypes = true) :
    m.shownTags.any isTypeTag = true := by
  rw [shownTags, List.any_append]
  rcases Bool.or_eq_true_iff.1 h with hparam | hreturn
  · obtain ⟨p, hp, hsome⟩ := List.any_eq_true.1 hparam
    have hline : ∃ value, p.docLine? m.typed = some value := by
      obtain ⟨t, ht⟩ := Option.isSome_iff_exists.1 hsome
      rw [ParameterSpec.docLine?, ht, htyped]
      cases p.docHint? <;> exact ⟨_, rfl⟩
    obtain ⟨value, hvalue⟩ := hline
    have hmem : ("param", value) ∈ paramTags m.typed m.params.items :=
      List.mem_map_of_mem (List.mem_filterMap.2 ⟨p, hp, hvalue⟩)
    rw [List.any_eq_true.2 ⟨_, hmem, rfl⟩, Bool.true_or]
  · have hshown : ∃ value, m.shownReturn? = some value := by
      obtain ⟨t, ht⟩ := Option.isSome_iff_exists.1 hreturn
      rw [shownReturn?, ht, htyped]
      cases m.docReturn? <;> exact ⟨_, rfl⟩
    obtain ⟨value, hvalue⟩ := hshown
    rw [hvalue]
    exact Bool.or_true _

/-- Types are declared if one is, or if no tag shows one. -/
theorem ShowsTypes.typed_eq (h : m.ShowsTypes) :
    ((m.typed && m.hasTypes) || !m.shownTags.any isTypeTag) = m.typed := by
  unfold ShowsTypes at h
  cases htyped : m.typed with
  | true =>
    rw [htyped, if_pos rfl] at h
    cases htypes : m.hasTypes with
    | true => rfl
    | false =>
      have hhints : m.hasHints = false := by
        rw [Bool.eq_false_iff]
        intro hhints
        rw [h.1 hhints] at htypes
        cases htypes
      rw [shownTags_eq_nil htyped hhints]
      rfl
  | false =>
    rw [htyped, if_neg Bool.false_ne_true] at h
    rw [any_shownTags htyped h.1]
    rfl

/-- What the declarations of a method show tells whether a type is declared. -/
theorem isSome_declared {qs : List Param}
    (h : qs.map ParameterSpec.recover = m.params.items.map (ParameterSpec.declared m.typed)) :
    ((if m.typed then m.returns?.map TypeSpec.hint else none).isSome || qs.any fun p => p.type?.isSome) =
      (m.typed && m.hasTypes) := by
  have hany : (qs.any fun p => p.type?.isSome) =
      (qs.map ParameterSpec.recover).any fun p => p.type?.isSome := by
    rw [List.any_map]
    exact congrArg qs.any (funext fun p => (Option.isSome_map ..).symm)
  rw [hany, h, List.any_map, hasTypes]
  cases m.typed with
  | true =>
    rw [if_pos rfl, Option.isSome_map, Bool.true_and, Bool.or_comm]
    rfl
  | false =>
    rw [if_neg Bool.false_ne_true, Bool.false_and, Option.isSome_none, Bool.false_or, List.any_eq_false]
    exact fun p _ => Bool.false_ne_true

/-- A method becomes a node and is read back from it. -/
theorem IsPlain.exists_node (h : m.IsPlain inInterface) :
    ∃ n, m.realize inInterface = .ok n ∧ recover? n = some m := by
  obtain ⟨body?, hbody, htext⟩ := h.exists_body
  obtain ⟨bs, hbs, hattributes⟩ := AttributeSpec.exists_attributes h.attributes
  obtain ⟨ls, hsummary, hblock⟩ := DocBlock.exists_summary h.doc
  obtain ⟨hreadable, hsummaryText⟩ := hblock _ h.isTag
  obtain ⟨qs, hqs, hparams⟩ := exists_mapM fun p hp => (h.params p hp).exists_param m.typed
  -- the doc comment is the free text with the tags
  have hdoc : (m.renderDoc?.map DocBlock.parse).getD {} = ⟨ls, m.shownTags⟩ := by
    rw [renderDoc?, h.composed, Option.getD_none, composedDoc_eq hsummary]
    exact DocBlock.getD_parse_render hreadable
  -- the tags add to the declarations what these do not show
  have hdistinct : (m.params.items.map (ParameterSpec.declared m.typed)).Pairwise
      fun a b => Keyed.key a ≠ Keyed.key b := List.pairwise_map.2 m.params.distinct
  have hdeclared : (.ofList (qs.map .recover) : NameMap ParameterSpec).items =
      [] ++ m.params.items.map (ParameterSpec.declared m.typed) := by
    rw [hparams]
    exact NameMap.items_ofList hdistinct
  obtain ⟨params, hitems, hfold⟩ := foldl_paramTags
    (r := { params := .ofList (qs.map .recover)
            returns? := (if m.typed then m.returns?.map TypeSpec.hint else none).map .ofHint })
    hdeclared m.params.distinct fun p hp => ⟨h.params p hp, h.shown.showsHint p hp⟩
  obtain rfl : params = m.params := NameMap.eq_of_items hitems
  have htags : m.shownTags.foldl (Recovered.addTag m.typed)
      { params := .ofList (qs.map .recover)
        returns? := (if m.typed then m.returns?.map TypeSpec.hint else none).map .ofHint } =
      { params := m.params, returns? := m.returns?, docReturn? := m.docReturn? } := by
    rw [shownTags, List.foldl_append, hfold]
    exact h.foldl_returnTag m.params
  refine ⟨{ kind := .methodDecl ⟨m.name, m.modifiers, m.byRef, qs,
              if m.typed then m.returns?.map TypeSpec.hint else none, body?⟩
            doc? := m.renderDoc?
            attributes := bs }, ?_, ?_⟩
  · rw [realize, hbody, hbs]
    simp only [bind, Except.bind, hqs]
    rfl
  · rw [recover?]
    dsimp only
    rw [hdoc, isSome_declared hparams, h.shown.typed_eq, htags, htext, hattributes, hsummaryText]
    obtain ⟨name, params, returns?, byRef, body?, modifiers, typed, doc?, docReturn?, docBlock?, attributes⟩ := m
    obtain rfl : docBlock? = none := h.composed
    rfl

end MethodSpec

/-! ## Both -/

/-- A property whose parts are read back, and a method of a class or an interface whose parts are, each
become a node and are read back from it. -/
theorem members_read_back {p : PropertySpec} {m : MethodSpec} {inInterface : Bool} (hp : p.IsPlain)
    (hm : m.IsPlain inInterface) :
    (∃ n, p.realize = .ok n ∧ PropertySpec.recover? n = some p) ∧
      ∃ n, m.realize inInterface = .ok n ∧ MethodSpec.recover? n = some m :=
  ⟨hp.exists_node, hm.exists_node⟩

/-- A property whose type is only documented. -/
def stockProperty : PropertySpec :=
  { name := "stock"
    type? := some ⟨true, "int", true, false⟩
    default? := some (.ofLiteral (.object [.mk "7" (.list [.int (-1), .null])]))
    typed := false
    doc? := some "The stock.\n\nBy shelf."
    attributes := [⟨"Column", [.source "'stock'"]⟩] }

/-- A method whose types are declared, and documented in more detail. -/
def sellMethod : MethodSpec :=
  { name := "sell"
    params := .ofList
      [{ name := "item", type? := some ⟨false, "Item", false, true⟩, byRef := true },
        { name := "options", docHint? := some "list<string>", variadic := true }]
    returns? := some ⟨false, "array", true, false⟩
    body? := some "return $options;"
    docReturn? := some "list<string> what was asked for" }

/-- The property and the method are read back. -/
theorem members_read_back_shop :
    (∃ n, stockProperty.realize = .ok n ∧ PropertySpec.recover? n = some stockProperty) ∧
      ∃ n, sellMethod.realize false = .ok n ∧ MethodSpec.recover? n = some sellMethod := by
  refine members_read_back ⟨?_, ?_, ?_, ?_, .inr (.inr ⟨rfl, rfl, rfl⟩)⟩ ?_
  · rintro t ⟨⟩
    exact ⟨"?int", rfl⟩
  · rintro v ⟨⟩
    exact ⟨_, by decide +kernel, rfl⟩
  · exact List.forall_mem_singleton.2 (List.forall_mem_singleton.2 ⟨_, rfl⟩)
  · rintro doc ⟨⟩
    refine ⟨["The stock.", "", "By shelf."], by decide, by decide, ?_, by decide, by decide, nofun⟩
    simp only [List.forall_mem_cons, List.not_mem_nil, false_imp_iff, implies_true, and_true]
    refine ⟨?_, ?_, ?_⟩ <;> exact ⟨by decide, by decide, by decide, by decide⟩
  have hitems : sellMethod.params.items =
      [{ name := "item", type? := some ⟨false, "Item", false, true⟩, byRef := true },
        { name := "options", docHint? := some "list<string>", variadic := true }] := rfl
  refine ⟨?_, ?_, List.forall_mem_nil _, nofun, rfl, ?_, ?_, ?_⟩
  · rw [hitems]
    simp only [List.forall_mem_cons, List.not_mem_nil, false_imp_iff, implies_true, and_true]
    refine ⟨⟨by decide, ?_, nofun, List.forall_mem_nil _⟩, ⟨by decide, nofun, nofun, List.forall_mem_nil _⟩⟩
    rintro t ⟨⟩
    exact ⟨"\\Item", rfl⟩
  · rintro t ⟨⟩
    exact ⟨"array", rfl⟩
  · refine ⟨fun _ => rfl, ?_, ?_⟩
    · rw [hitems]
      simp only [List.forall_mem_cons, List.not_mem_nil, false_imp_iff, implies_true, and_true]
      refine ⟨nofun, ?_⟩
      rintro hint ⟨⟩
      exact ⟨by decide, noBlank_of_any (by decide)⟩
    · rintro value ⟨⟩
      exact ⟨by decide, by decide⟩
  · rintro source ⟨⟩
    exact ⟨by decide, ⟨[⟨"return $options;", false⟩]⟩, by decide +kernel, by decide⟩
  · rintro (h | h) <;> cases h

end PhpGraft

import PhpGraft.Model.DocBlock
import PhpGraft.Model.ParameterSpec
import PhpGraft.Syntax.Reader.File

/-!
# Methods to be made

The types of a method are declared, or they are only documented with the tags `@param` and
`@return`. The body is given as source; it is read when the method is realized. A doc comment with a
tag that says nothing about the parameters or the result is kept as a whole.
-/

namespace PhpGraft

/-- A method of a class or interface. -/
structure MethodSpec where
  /-- The name of the method. -/
  name : String
  /-- The parameters by name. -/
  params : NameMap ParameterSpec := .empty
  /-- The type of the result. -/
  returns? : Option TypeSpec := none
  /-- Whether the result is a reference. -/
  byRef : Bool := false
  /-- The source of the statements. -/
  body? : Option String := none
  /-- The modifiers of the method. -/
  modifiers : Modifiers := .only .visiblePublic
  /-- Whether the types are declared. -/
  typed : Bool := true
  /-- The free text of the doc comment. -/
  doc? : Option String := none
  /-- The type of the result that the doc comment shows. -/
  docReturn? : Option String := none
  /-- The whole doc comment. -/
  docBlock? : Option DocBlock := none
  /-- The attributes of the method. -/
  attributes : List AttributeSpec := []
  deriving Inhabited

namespace MethodSpec

/-- Names of methods are told apart without regard to the case of ASCII letters. -/
instance : Keyed MethodSpec := ⟨MethodSpec.name, Text.lowerAscii⟩

/-- The method with another visibility. -/
def withVisibility (m : MethodSpec) (v : Modifier) : MethodSpec :=
  { m with modifiers := m.modifiers.withVisibility (.only v) }

/-- The method with a further parameter, in the place of one of its name. -/
def addParam (m : MethodSpec) (p : ParameterSpec) : MethodSpec :=
  { m with params := m.params.add p }

/-- The method without the parameter of a name. -/
def removeParam (m : MethodSpec) (name : String) : MethodSpec :=
  { m with params := m.params.remove name }

/-- The type of the result that the doc comment shows, if it shows one. -/
def shownReturn? (m : MethodSpec) : Option String :=
  match m.docReturn?, m.returns? with
  | some shown, _ => some shown
  | none, some t => if m.typed then none else some t.docType
  | none, none => none

/-- The doc comment from its parts. -/
def composedDoc (m : MethodSpec) : DocBlock :=
  let block := match m.doc? with
    | some comment => DocBlock.addSummary {} comment
    | none => {}
  let lines := m.params.items.filterMap (ParameterSpec.docLine? m.typed)
  let block := lines.foldl (fun b line => b.addTag "param" line) block
  match m.shownReturn? with
  | some shown => block.addTag "return" shown
  | none => block

/-- The doc comment as it is written. -/
def renderDoc? (m : MethodSpec) : Option String := (m.docBlock?.getD m.composedDoc).render?

/-- The statements of the method, or none for a method of an interface or an abstract one. -/
def realizeBody? (inInterface : Bool) (m : MethodSpec) : Except Error (Option Body) :=
  if inInterface || m.modifiers.isAbstract then .ok none
  else
    match Body.parse (m.body?.getD "") with
    | .ok b => .ok (some b)
    | .error e => .error (.parse e)

/-- The method as a node. -/
def realize (inInterface : Bool) (m : MethodSpec) : Except Error Node := do
  let body? ← m.realizeBody? inInterface
  let params ← m.params.items.mapM (ParameterSpec.realize m.typed)
  let attributes ← realizeAttributes m.attributes
  let returns? := if m.typed then m.returns?.map TypeSpec.hint else none
  return { kind := .methodDecl ⟨m.name, m.modifiers, m.byRef, params, returns?, body?⟩
           doc? := m.renderDoc?
           attributes }

/-- A text without the groups of three dots at its front. -/
def dropDots : List Char → List Char
  | '.' :: '.' :: '.' :: cs => dropDots cs
  | cs => cs

/-- The type and the name in the value of a tag `@param`. -/
def splitParamTag? (value : String) : Option (String × String) :=
  let cs := value.toList
  let hint := cs.takeWhile (!Text.isBlank ·)
  let var := (Text.trimStart (cs.drop hint.length)).takeWhile (!Text.isBlank ·)
  let var := dropDots (var.dropWhile (· == '&'))
  match var with
  | '$' :: name => some (String.ofList hint, String.ofList name)
  | _ => none

/-- The parts of a method that come from its declaration and from the tags of its doc comment. -/
structure Recovered where
  /-- The parameters. -/
  params : NameMap ParameterSpec
  /-- The type of the result. -/
  returns? : Option TypeSpec
  /-- The type of the result that the doc comment shows. -/
  docReturn? : Option String := none
  /-- Whether some tag says nothing about the parameters or the result. -/
  extraTags : Bool := false

/-- The parameters with the type that a tag shows for one of them. -/
def tagParam (typed : Bool) (hint name : String) (params : NameMap ParameterSpec) :
    NameMap ParameterSpec :=
  params.map (fun p => if p.name = name then p.withTag typed hint else p) fun p => by
    show (ite _ _ _ : ParameterSpec).name = p.name
    split
    · unfold ParameterSpec.withTag
      split <;> rfl
    · rfl

/-- Takes one tag of the doc comment into account. -/
def Recovered.addTag (typed : Bool) (r : Recovered) (tag : String × String) : Recovered :=
  if tag.1 = "param" then
    match splitParamTag? tag.2 with
    | some (hint, name) =>
      if r.params.contains name then { r with params := tagParam typed hint name r.params }
      else { r with extraTags := true }
    | none => { r with extraTags := true }
  else if tag.1 = "return" then
    match if typed then none else TypeSpec.ofDocType? tag.2 with
    | some t => { r with returns? := some t }
    | none => { r with docReturn? := some tag.2 }
  else { r with extraTags := true }

/-- Whether a tag documents a type of a method. -/
def isTypeTag (tag : String × String) : Bool := tag.1 == "param" || tag.1 == "return"

/-- The method that a node is. -/
def recover? (n : Node) : Option MethodSpec :=
  match n.kind with
  | .methodDecl d =>
    let doc := (n.doc?.map DocBlock.parse).getD {}
    let declared := d.returns?.isSome || d.params.any fun p => p.type?.isSome
    let typed := declared || !doc.tags.any isTypeTag
    let start : Recovered :=
      { params := .ofList (d.params.map .recover), returns? := d.returns?.map .ofHint }
    let r := doc.tags.foldl (Recovered.addTag typed) start
    let body? := (d.body?.map Body.text).filter fun source => !source.isEmpty
    some
      { name := d.name
        params := r.params
        returns? := r.returns?
        byRef := d.byRef
        body?
        modifiers := d.modifiers
        typed
        doc? := doc.summaryText?
        docReturn? := r.docReturn?
        docBlock? := if r.extraTags then some doc else none
        attributes := n.attributes.map .recover }
  | _ => none

/-- Equality of methods in all their parts. The order of the parameters is not compared. -/
def same (a b : MethodSpec) : Bool :=
  a.name == b.name && a.params.same ParameterSpec.same b.params && a.returns? == b.returns? &&
    a.byRef == b.byRef && a.body? == b.body? && a.modifiers == b.modifiers && a.typed == b.typed &&
    a.doc? == b.doc? && a.docReturn? == b.docReturn? && a.docBlock? == b.docBlock? &&
    a.attributes == b.attributes

instance : BEq MethodSpec := ⟨same⟩

end MethodSpec

end PhpGraft

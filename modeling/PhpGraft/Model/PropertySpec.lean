import PhpGraft.Model.AttributeSpec
import PhpGraft.Model.DocBlock
import PhpGraft.Model.NameMap
import PhpGraft.Model.TypeSpec

/-!
# Properties to be made

The type of a property is declared, or it is only documented with the tag `@var`. The tag can also
show another type than the declared one.
-/

namespace PhpGraft

/-- A property of a class. -/
structure PropertySpec where
  /-- The name without its dollar sign. -/
  name : String
  /-- The type of the property. -/
  type? : Option TypeSpec := none
  /-- The initial value. -/
  default? : Option ValueSpec := none
  /-- The modifiers of the property. -/
  modifiers : Modifiers := .only .visiblePublic
  /-- Whether the type is declared. -/
  typed : Bool := true
  /-- The free text of the doc comment. -/
  doc? : Option String := none
  /-- The type that the doc comment shows. -/
  docType? : Option String := none
  /-- The attributes of the property. -/
  attributes : List AttributeSpec := []
  deriving Inhabited

namespace PropertySpec

/-- Names of properties are told apart as they stand. -/
instance : Keyed PropertySpec := ⟨PropertySpec.name, id⟩

/-- The property with another visibility. -/
def withVisibility (p : PropertySpec) (v : Modifier) : PropertySpec :=
  { p with modifiers := p.modifiers.withVisibility (.only v) }

/-- The type that the doc comment shows, if it shows one. -/
def shownType? (p : PropertySpec) : Option String :=
  match p.docType?, p.type? with
  | some shown, _ => some shown
  | none, some t => if p.typed then none else some t.docType
  | none, none => none

/-- The doc comment. -/
def docBlock (p : PropertySpec) : DocBlock :=
  let block := match p.doc? with
    | some comment => DocBlock.addSummary {} comment
    | none => {}
  match p.shownType? with
  | some shown => block.addTag "var" shown
  | none => block

/-- The property as a node. -/
def realize (p : PropertySpec) : Except Error Node := do
  let default? ← p.default?.mapM ValueSpec.materialize
  let attributes ← realizeAttributes p.attributes
  let type? := if p.typed then p.type?.map TypeSpec.hint else none
  return { kind := .propertyDecl ⟨p.name, p.modifiers, type?, default?⟩
           doc? := p.docBlock.render?
           attributes }

/-- The type of a property and the type that its doc comment shows, from the declared type and the
tag of the doc comment. -/
def recoverType (declared? : Option TypeHint) (var? : Option String) :
    Option TypeSpec × Option String :=
  match declared?, var? with
  | some hint, var? => (some (.ofHint hint), var?)
  | none, some var =>
    match TypeSpec.ofDocType? var with
    | some t => (some t, none)
    | none => (none, some var)
  | none, none => (none, none)

/-- The property that a node is. -/
def recover? (n : Node) : Option PropertySpec :=
  match n.kind with
  | .propertyDecl d =>
    let doc := (n.doc?.map DocBlock.parse).getD {}
    let (type?, docType?) := recoverType d.type? (doc.findTag? "var")
    some
      { name := d.name
        type?
        default? := d.default?.map .recover
        modifiers := d.modifiers
        typed := d.type?.isSome || type?.isNone
        doc? := doc.summaryText?
        docType?
        attributes := n.attributes.map .recover }
  | _ => none

/-- Equality of properties in all their parts. -/
def same (a b : PropertySpec) : Bool :=
  a.name == b.name && a.type? == b.type? && a.default? == b.default? &&
    a.modifiers == b.modifiers && a.typed == b.typed && a.doc? == b.doc? &&
    a.docType? == b.docType? && a.attributes == b.attributes

instance : BEq PropertySpec := ⟨same⟩

end PropertySpec

end PhpGraft

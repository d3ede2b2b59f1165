import PhpGraft.Model.AttributeSpec
import PhpGraft.Model.DocBlock
import PhpGraft.Model.NameMap

/-!
# Constants to be made
-/

namespace PhpGraft

/-- A constant of a class or interface. -/
structure ConstSpec where
  /-- The name of the constant. -/
  name : String
  /-- The value of the constant. -/
  value : ValueSpec
  /-- The modifiers of the constant. -/
  modifiers : Modifiers := .only .visiblePublic
  /-- The free text of the doc comment. -/
  doc? : Option String := none
  /-- The attributes of the constant. -/
  attributes : List AttributeSpec := []
  deriving Inhabited

namespace ConstSpec

/-- Names of constants are told apart as they stand. -/
instance : Keyed ConstSpec := ⟨ConstSpec.name, id⟩

/-- The constant with another visibility. -/
def withVisibility (c : ConstSpec) (v : Modifier) : ConstSpec :=
  { c with modifiers := c.modifiers.withVisibility (.only v) }

/-- The constant as a node. -/
def realize (c : ConstSpec) : Except Error Node := do
  let value ← c.value.materialize
  let attributes ← realizeAttributes c.attributes
  return { kind := .constDecl ⟨c.name, c.modifiers, value⟩
           doc? := renderSummary? c.doc?
           attributes }

/-- The constant that a node is. -/
def recover? (n : Node) : Option ConstSpec :=
  match n.kind with
  | .constDecl d =>
    some
      { name := d.name
        value := .recover d.value
        modifiers := d.modifiers
        doc? := summaryOf? n.doc?
        attributes := n.attributes.map .recover }
  | _ => none

/-- Equality of constants in all their parts. -/
def same (a b : ConstSpec) : Bool :=
  a.name == b.name && a.value == b.value && a.modifiers == b.modifiers && a.doc? == b.doc? &&
    a.attributes == b.attributes

instance : BEq ConstSpec := ⟨same⟩

end ConstSpec

end PhpGraft

import PhpGraft.Model.ValueSpec
import PhpGraft.Syntax.Node

/-!
# Attributes of members

An argument of an attribute is source text or a value. Read back from a file, every argument is
source text.
-/

namespace PhpGraft

/-- An argument of an attribute. -/
inductive AttributeArg where
  /-- Source text. -/
  | source (text : String)
  /-- A value, written as an expression. -/
  | value (v : ValueSpec)
  deriving Inhabited

/-- An attribute of a declaration to be made. -/
structure AttributeSpec where
  /-- The name of the attribute. -/
  name : String
  /-- The arguments in order. -/
  args : List AttributeArg
  deriving Inhabited

namespace AttributeArg

/-- The source of an argument. -/
def realize : AttributeArg → Except Error String
  | source text => .ok text
  | value v => v.materialize.map Expr.text

/-- Equality of arguments, values as values. -/
def same : AttributeArg → AttributeArg → Bool
  | source a, source b => a == b
  | value a, value b => a.same b
  | _, _ => false

instance : BEq AttributeArg := ⟨same⟩

end AttributeArg

namespace AttributeSpec

/-- The attribute as it stands in a file. -/
def realize (a : AttributeSpec) : Except Error Attribute :=
  (a.args.mapM AttributeArg.realize).map fun args => ⟨a.name, args⟩

/-- The attribute that stands in a file. -/
def recover (a : Attribute) : AttributeSpec := ⟨a.name, a.args.map .source⟩

/-- Equality of attributes. -/
def same (a b : AttributeSpec) : Bool := a.name == b.name && a.args == b.args

instance : BEq AttributeSpec := ⟨same⟩

end AttributeSpec

/-- Several attributes as they stand in a file. -/
def realizeAttributes (as : List AttributeSpec) : Except Error (List Attribute) :=
  as.mapM AttributeSpec.realize

end PhpGraft

import PhpGraft.Model.AttributeSpec
import PhpGraft.Model.NameMap
import PhpGraft.Model.TypeSpec

/-!
# Parameters to be made

Whether the type of a parameter is declared is up to its method. The doc comment of the method can
show another type.
-/

namespace PhpGraft

/-- A parameter of a method. -/
structure ParameterSpec where
  /-- The name without its dollar sign. -/
  name : String
  /-- The type of the parameter. -/
  type? : Option TypeSpec := none
  /-- The value that stands in for a missing argument. -/
  default? : Option ValueSpec := none
  /-- Whether the argument is passed by reference. -/
  byRef : Bool := false
  /-- Whether the parameter takes all further arguments. -/
  variadic : Bool := false
  /-- The type that the doc comment of the method shows. -/
  docHint? : Option String := none
  /-- The modifiers that make the parameter a property. -/
  modifiers : Modifiers := .none
  /-- The attributes of the parameter. -/
  attributes : List AttributeSpec := []
  deriving Inhabited

namespace ParameterSpec

/-- Names of parameters are told apart as they stand. -/
instance : Keyed ParameterSpec := ⟨ParameterSpec.name, id⟩

/-- The parameter as it stands in a declaration. -/
def realize (typed : Bool) (p : ParameterSpec) : Except Error Param := do
  let default? ← p.default?.mapM ValueSpec.materialize
  let attributes ← realizeAttributes p.attributes
  return { name := p.name
           type? := if typed then p.type?.map TypeSpec.hint else none
           default?
           byRef := p.byRef
           variadic := p.variadic
           modifiers := p.modifiers
           attributes }

/-- The value of the tag that documents the parameter, if it needs one. -/
def docLine? (typed : Bool) (p : ParameterSpec) : Option String :=
  let hint? := match p.docHint?, p.type? with
    | some hint, _ => some hint
    | none, some t => if typed then none else some t.docType
    | none, none => none
  hint?.map fun hint => hint ++ " " ++ (if p.variadic then "..." else "") ++ "$" ++ p.name

/-- The parameter with the type that its tag shows: as its own type if no types are declared and it
is a single type, and else only as the type shown. -/
def withTag (p : ParameterSpec) (typed : Bool) (hint : String) : ParameterSpec :=
  match if typed then none else TypeSpec.ofDocType? hint with
  | some t => { p with type? := some t }
  | none => { p with docHint? := some hint }

/-- The parameter that stands in a declaration. -/
def recover (p : Param) : ParameterSpec :=
  { name := p.name
    type? := p.type?.map .ofHint
    default? := p.default?.map .recover
    byRef := p.byRef
    variadic := p.variadic
    modifiers := p.modifiers
    attributes := p.attributes.map .recover }

/-- Equality of parameters in all their parts. -/
def same (a b : ParameterSpec) : Bool :=
  a.name == b.name && a.type? == b.type? && a.default? == b.default? && a.byRef == b.byRef &&
    a.variadic == b.variadic && a.docHint? == b.docHint? && a.modifiers == b.modifiers &&
    a.attributes == b.attributes

instance : BEq ParameterSpec := ⟨same⟩

end ParameterSpec

end PhpGraft

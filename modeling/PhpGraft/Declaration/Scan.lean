import PhpGraft.Graft.Scaffold
import PhpGraft.Model.ConstSpec
import PhpGraft.Model.MethodSpec
import PhpGraft.Model.PropertySpec

/-!
# Reading declarations back

The first class or interface of a file is found together with what the file says around it: whether
types are strict, and the namespace and the imports of the block that the declaration stands in. The
search goes into namespaces; behind the declaration it goes on to the end of its block, for imports
that stand there.
-/

namespace PhpGraft

/-- What a file says around a declaration. -/
structure FileScan where
  /-- Whether types are strict. -/
  strict : Bool := false
  /-- The namespace, or none for the global one. -/
  scope? : Option String := none
  /-- The imports of the block, in order. -/
  imports : List Import := []
  /-- The declaration. -/
  declaration? : Option Outline := none
  deriving Inhabited

namespace FileScan

mutual

/-- Takes a node and what is below it into account. -/
def visit (wanted : Node → Bool) (s : FileScan) : Outline → FileScan
  | .mk n children =>
    match n.kind with
    | .file => visitAll wanted s children
    | .directive key value =>
      if Text.eqIgnoreCase key Edit.strictKey then
        { s with strict := match value with
          | .int n => n == 1
          | _ => false }
      else s
    | .namespaceDecl name =>
      visitAll wanted { s with scope? := if name.isEmpty then none else some name, imports := [] }
        children
    | .useDecl name alias? => { s with imports := s.imports ++ [⟨name, alias?⟩] }
    | .classDecl _ | .interfaceDecl _ =>
      if s.declaration?.isNone && wanted n then { s with declaration? := some (.mk n children) }
      else s
    | .traitUse _ _ | .constDecl _ | .propertyDecl _ | .methodDecl _ | .verbatim _ => s

/-- Takes several nodes into account, up to a namespace that follows the declaration. -/
def visitAll (wanted : Node → Bool) (s : FileScan) : List Outline → FileScan
  | [] => s
  | o :: os =>
    if s.declaration?.isSome && o.category == .namespaceDecl then s
    else visitAll wanted (visit wanted s o) os

end

/-- Scans the given parts of a file for the first declaration that is wanted. -/
def ofOutlines (wanted : Node → Bool) (parts : List Outline) : FileScan := visitAll wanted {} parts

end FileScan

/-- The members of a class or interface, by kind and in order. -/
structure Members where
  /-- The names of the traits. -/
  traits : List String
  /-- The constants. -/
  constants : List ConstSpec
  /-- The properties. -/
  properties : List PropertySpec
  /-- The methods. -/
  methods : List MethodSpec

namespace Members

/-- The members of a declaration. -/
def ofOutline (o : Outline) : Members :=
  let nodes := o.children.map Outline.node
  { traits := nodes.flatMap fun n =>
      match n.kind with
      | .traitUse traits _ => traits
      | _ => []
    constants := nodes.filterMap ConstSpec.recover?
    properties := nodes.filterMap PropertySpec.recover?
    methods := nodes.filterMap MethodSpec.recover? }

/-- Whether the types of all members are declared. -/
def typed (m : Members) : Bool := m.properties.all (·.typed) && m.methods.all (·.typed)

end Members

end PhpGraft

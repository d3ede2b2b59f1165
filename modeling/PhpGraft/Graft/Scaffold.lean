import PhpGraft.Graft.Edit
import PhpGraft.Model.AttributeSpec
import PhpGraft.Model.DocBlock
import PhpGraft.Model.NameMap

/-!
# What a file needs around its declaration

The directive for strict types, the namespace, the imports and the declaration itself are added to a
file that does not have them.
-/

namespace PhpGraft

/-- An import of a class. -/
structure Import where
  /-- The imported name. -/
  name : String
  /-- The name that it gets, if it is another one. -/
  alias? : Option String := none
  deriving DecidableEq, Repr, Inhabited

namespace Import

/-- An imported class stands for itself in every spelling. -/
instance : Keyed Import := ⟨Import.name, Name.key⟩

/-- The import of a name, without backslashes at the front. -/
def ofName (name : String) (alias? : Option String := none) : Import := ⟨Name.unrooted name, alias?⟩

/-- The import as a node. -/
def node (i : Import) : Node := { kind := .useDecl i.name i.alias? }

end Import

namespace Edit

/-- The key of the directive for strict types. -/
def strictKey : String := "strict_types"

/-- Whether a node is the directive for strict types, whatever its value. -/
def isStrictDirective (n : Node) : Bool :=
  match n.kind with
  | .directive key _ => Text.eqIgnoreCase key strictKey
  | _ => false

/-- Adds the directive for strict types as the first statement. -/
def addStrictTypes : Edit Outcome := do
  if ((← get).findChild? Tree.root isStrictDirective).isSome then return .unchanged
  insertNodes Tree.root 0 [{ kind := .directive strictKey (.int 1) }]

/-- The number of directives ahead of the other children of a node. -/
def leadingDirectives (t : Tree) (id : NodeId) : Nat :=
  ((t.children id).takeWhile fun c => t.category c == .directive).length

/-- Puts the statements of a file into a namespace, except for the directives ahead of them. A file
with a namespace keeps it, whatever its name. -/
def addNamespace (name : String) : Edit Outcome := do
  let t ← get
  if t.namespace?.isSome then return .unchanged
  let count := leadingDirectives t Tree.root
  let (statements, t) := t.takeChildren Tree.root
  let (id, t) := t.allocWith { kind := .namespaceDecl name } (statements.drop count)
  set (t.modifyChildren Tree.root fun cs => statements.take count ++ cs ++ [id])
  return .inserted

/-- The imported names of a scope. -/
def importedNames (t : Tree) (scope : NodeId) : List String :=
  (t.childrenOf scope .useDecl).filterMap fun id => (t.node id).name?

/-- Adds the imports that a file does not have, ahead of those that it has. -/
def addImports (imports : List Import) : Edit Outcome := do
  let t ← get
  let missing := Name.missing Import.name (importedNames t t.scope) imports
  if missing.isEmpty then return .unchanged
  insertNodes t.scope (leadingDirectives t t.scope) (missing.map Import.node)

/-- Adds a declaration without members behind the statements of the file, unless there is one of its
name. -/
def addDeclaration (name? : Option String) (kind : NodeKind) (doc? : Option String)
    (attributes : List AttributeSpec) : Edit Outcome := do
  if ((← get).findClassLike? name?).isSome then return .unchanged
  let attributes ← realizeAttributes attributes
  modify fun t =>
    let scope := t.scope
    let (id, t) := t.alloc { kind, doc? := renderSummary? doc?, attributes }
    t.pushChild scope id
  return .inserted

end Edit

end PhpGraft

import PhpGraft.Graft.Edit
import PhpGraft.Model.ConstSpec
import PhpGraft.Model.MethodSpec
import PhpGraft.Model.PropertySpec

/-!
# Members of a class or interface

A member is added unless there is one of its name. It goes behind the last member of its own kind;
if there is none, behind the last one of the nearest kind that comes before its own in the usual
layout; if there is none either, ahead of the first member of a later kind, or at the end. Traits go
ahead of all members.
-/

namespace PhpGraft.Edit

/-- The number of the last element of a list that satisfies a test. -/
def lastIndex? {α : Type} (p : α → Bool) (l : List α) : Option Nat :=
  (l.reverse.findIdx? p).map fun i => l.length - 1 - i

/-- Where a member of a rank goes among members of the given ranks. -/
def insertIndex (ranks : List (Option Nat)) (rank : Nat) : Nat :=
  match (List.range (rank + 1)).reverse.findSome? fun r => lastIndex? (· == some r) ranks with
  | some last => last + 1
  | none => (ranks.findIdx? fun r => r.any (rank < ·)).getD ranks.length

/-- Where a member of a form goes among the children of a node. -/
def memberIndex (t : Tree) (parent : NodeId) (c : Category) : Nat :=
  let ranks := (t.children parent).map fun id => (t.category id).memberRank?
  match c.memberRank? with
  | none => ranks.length
  | some rank => insertIndex ranks rank

/-- Adds a member at its place. -/
def insertMember (parent : NodeId) (node : Node) : Edit Outcome := do
  modify fun t =>
    let index := memberIndex t parent node.category
    let (id, t) := t.alloc node
    t.insertChild parent index id
  return .inserted

/-- Whether a node has a child of a form with a name that satisfies a test. -/
def hasMember (t : Tree) (parent : NodeId) (c : Category) (p : String → Bool) : Bool :=
  (t.childrenOf parent c).any fun id => (t.node id).name?.any p

/-- Adds a constant, unless there is one of its name. -/
def addConstant (class? : Option String) (spec : ConstSpec) : Edit Outcome := do
  let id ← findClassLike class?
  if hasMember (← get) id .constDecl (· == spec.name) then return .unchanged
  insertMember id (← spec.realize)

/-- Adds a property, unless there is one of its name. -/
def addProperty (class? : Option String) (spec : PropertySpec) : Edit Outcome := do
  let id ← findClassLike class?
  if hasMember (← get) id .propertyDecl (· == spec.name) then return .unchanged
  insertMember id (← spec.realize)

/-- Adds a method, unless there is one of its name in whatever case. A method of an interface has no
body. -/
def addMethod (class? : Option String) (spec : MethodSpec) : Edit Outcome := do
  let id ← findClassLike class?
  let t ← get
  if hasMember t id .methodDecl (Text.eqIgnoreCase · spec.name) then return .unchanged
  insertMember id (← spec.realize (t.category id == .interfaceDecl))

/-- The traits that a class uses. -/
def usedTraits (t : Tree) (id : NodeId) : List String :=
  (t.children id).flatMap fun c =>
    match (t.node c).kind with
    | .traitUse traits _ => traits
    | _ => []

/-- Adds the traits that a class does not use, each in a statement of its own. -/
def addTraits (class? : Option String) (names : List String) : Edit Outcome := do
  let id ← findClassLike class?
  let t ← get
  if t.category id != .classDecl then throw (.missingDeclaration (className class?))
  let missing := Name.missing (fun name => name) (usedTraits t id) names
  if missing.isEmpty then return .unchanged
  insertNodes id 0 (missing.map fun name => { kind := .traitUse [name] none })

end PhpGraft.Edit

import PhpGraft.Error
import PhpGraft.Syntax.Tree

/-!
# Edits of a tree

An edit changes a tree and says what it did, or fails. The tree that a failed edit leaves is part of
its result.
-/

namespace PhpGraft

/-- A change of a tree that can fail. -/
abbrev Edit (α : Type) := ExceptT Error (StateM Tree) α

/-- What an edit that looks for an element did. -/
inductive Outcome where
  /-- The element was there, and the tree is as it was. -/
  | unchanged
  /-- The element was added. -/
  | inserted
  deriving DecidableEq, Repr

/-- How an outcome is called. -/
def Outcome.text : Outcome → String
  | unchanged => "unchanged"
  | inserted => "inserted"

/-- The tree with new nodes ahead of the child with the given number, in order. -/
def Tree.insertNodes (t : Tree) (parent index : Nat) (nodes : List Node) : Tree :=
  nodes.foldr (fun node t => let (id, t) := t.alloc node; t.insertChild parent index id) t

namespace Edit

/-- Runs an edit on a tree. -/
def on {α : Type} (e : Edit α) (t : Tree) : Except Error α × Tree := e.run.run t

/-- How a class is called in messages. -/
def className (name? : Option String) : String := name?.getD "class@anonymous"

/-- The class or interface of a name, or the first anonymous class if no name is given. -/
def findClassLike (name? : Option String) : Edit NodeId := do
  match (← get).findClassLike? name? with
  | some id => return id
  | none => throw (.missingDeclaration (className name?))

/-- Changes the head of a class, where the change asks for one. An interface of the name is none. -/
def changeClass (name? : Option String) (f : ClassDecl → Except Error (Option ClassDecl)) :
    Edit Outcome := do
  let id ← findClassLike name?
  match ((← get).node id).kind with
  | .classDecl d =>
    match f d with
    | .error e => throw e
    | .ok none => return .unchanged
    | .ok (some d) =>
      modify fun t => t.modifyNode id fun n => { n with kind := .classDecl d }
      return .inserted
  | _ => throw (.missingDeclaration (className name?))

/-- Changes the head of an interface, where the change asks for one. A class of the name is none. -/
def changeInterface (name : String) (f : InterfaceDecl → Option InterfaceDecl) : Edit Outcome := do
  let id ← findClassLike (some name)
  match ((← get).node id).kind with
  | .interfaceDecl d =>
    match f d with
    | none => return .unchanged
    | some d =>
      modify fun t => t.modifyNode id fun n => { n with kind := .interfaceDecl d }
      return .inserted
  | _ => throw (.missingDeclaration name)

/-- Attaches new nodes ahead of the child with the given number, in order. -/
def insertNodes (parent index : Nat) (nodes : List Node) : Edit Outcome := do
  modify fun t => t.insertNodes parent index nodes
  return .inserted

end Edit

end PhpGraft

import PhpGraft.Declaration.Parts

/-!
# Interfaces to be made

An interface is described like a class, but it has neither properties nor traits, and it can extend
several others.
-/

namespace PhpGraft

/-- An interface in a file of its own. -/
structure InterfaceSpec extends DeclarationParts where
  /-- The name of the interface. -/
  name : String
  /-- The parents of the interface. -/
  parents : NameMap String := .empty
  deriving Inhabited

namespace InterfaceSpec

/-- An interface of a name, without members. -/
def new (name : String) : InterfaceSpec := { name }

/-- What tells the file of the interface apart. -/
def identity (i : InterfaceSpec) : Identity := .named i.scope? i.name

/-- The passes that add the interface to a file. -/
def passes (i : InterfaceSpec) : Pipeline :=
  i.scaffold ++ [.interfaceDecl i.name i.doc? i.attributes] ++
    (if i.parents.isEmpty then [] else [.interfaceParents i.name i.parents.names]) ++
    i.constantPasses (some i.name) ++ i.methodPasses (some i.name)

/-- The interface that a scan found. -/
def ofScan? (s : FileScan) : Option InterfaceSpec :=
  s.declaration?.bind fun o =>
    match o.node.kind with
    | .interfaceDecl d =>
      some
        { DeclarationParts.ofScan s o.node (Members.ofOutline o) with
          name := d.name
          parents := .ofList d.parents }
    | _ => none

/-- The first interface in the given parts of a file. -/
def recover? (parts : List Outline) : Option InterfaceSpec :=
  ofScan? (FileScan.ofOutlines (fun n => n.category == .interfaceDecl) parts)

/-- The first interface of a file. -/
def ofFile (file : Outline) : Except Error InterfaceSpec :=
  match recover? [file] with
  | some i => .ok i
  | none => .error (.noDeclaration .interfaceDecl)

/-- Equality of interfaces in all their parts; the order of members is not compared. -/
def same (a b : InterfaceSpec) : Bool :=
  a.toDeclarationParts.same b.toDeclarationParts && a.name == b.name &&
    a.parents.same (· == ·) b.parents

end InterfaceSpec

end PhpGraft

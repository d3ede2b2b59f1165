import PhpGraft.Declaration.Parts

/-!
# Classes to be made

A class is described by its name, what stands around it in its file, and its members. The
description gives the passes that add the class to a file, and it can be read back from one.
-/

namespace PhpGraft

/-- A class in a file of its own. -/
structure ClassSpec extends DeclarationParts where
  /-- The name, or none for an anonymous class. -/
  name? : Option String
  /-- What an anonymous class is called, and its file. -/
  label : String
  /-- The modifiers of the class. -/
  modifiers : Modifiers := .none
  /-- The parent of the class. -/
  parent? : Option String := none
  /-- The interfaces of the class. -/
  interfaces : NameMap String := .empty
  /-- The traits of the class. -/
  traits : NameMap String := .empty
  /-- The properties of the class. -/
  properties : NameMap PropertySpec := .empty

namespace ClassSpec

/-- A class of a name, without members. -/
def new (name : String) : ClassSpec := { name? := some name, label := name }

/-- An anonymous class with a label, without members. -/
def anonymous (label : String) : ClassSpec := { name? := none, label }

instance : Inhabited ClassSpec := ⟨anonymous ""⟩

/-- The label of an anonymous class that is read back from a file. -/
def recoveredLabel : String := "anonymous"

/-- What tells the file of the class apart. -/
def identity (c : ClassSpec) : Identity :=
  match c.name? with
  | some name => .named c.scope? name
  | none => .anonymous c.scope? c.label

/-- The passes for the properties of the class. -/
def propertyPasses (c : ClassSpec) : Pipeline :=
  c.properties.items.map fun p => .property c.name? { p with typed := c.typed && p.typed }

/-- The passes that add the class to a file. -/
def passes (c : ClassSpec) : Pipeline :=
  c.scaffold ++ [.classDecl c.name? c.modifiers c.doc? c.attributes] ++
    (c.parent?.map (.parent c.name?)).toList ++
    (if c.interfaces.isEmpty then [] else [.interfaces c.name? c.interfaces.names]) ++
    (if c.traits.isEmpty then [] else [.traits c.name? c.traits.names]) ++
    c.constantPasses c.name? ++ c.propertyPasses ++ c.methodPasses c.name?

/-- The class that a scan found. -/
def ofScan? (s : FileScan) : Option ClassSpec :=
  s.declaration?.bind fun o =>
    match o.node.kind with
    | .classDecl d =>
      let m := Members.ofOutline o
      some
        { DeclarationParts.ofScan s o.node m with
          name? := d.name?
          label := d.name?.getD recoveredLabel
          modifiers := d.modifiers
          parent? := d.parent?
          interfaces := .ofList d.interfaces
          traits := .ofList m.traits
          properties := .ofList m.properties }
    | _ => none

/-- The first class in the given parts of a file. -/
def recover? (parts : List Outline) : Option ClassSpec :=
  ofScan? (FileScan.ofOutlines (fun n => n.category == .classDecl) parts)

/-- The first class of a file. -/
def ofFile (file : Outline) : Except Error ClassSpec :=
  match recover? [file] with
  | some c => .ok c
  | none => .error (.noDeclaration .classDecl)

/-- Equality of classes in all their parts; the order of members is not compared. -/
def same (a b : ClassSpec) : Bool :=
  a.toDeclarationParts.same b.toDeclarationParts && a.name? == b.name? && a.label == b.label &&
    a.modifiers == b.modifiers && a.parent? == b.parent? &&
    a.interfaces.same (· == ·) b.interfaces && a.traits.same (· == ·) b.traits &&
    a.properties.same (· == ·) b.properties

end ClassSpec

end PhpGraft

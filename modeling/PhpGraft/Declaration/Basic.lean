import PhpGraft.Declaration.ClassSpec
import PhpGraft.Declaration.InterfaceSpec
import PhpGraft.Syntax.Printer

/-!
# Declarations to be made

A declaration is a class or an interface. Realizing it runs its passes over a tree.
-/

namespace PhpGraft

/-- A class or an interface in a file of its own. -/
inductive Declaration where
  /-- A class. -/
  | ofClass (c : ClassSpec)
  /-- An interface. -/
  | ofInterface (i : InterfaceSpec)
  deriving Inhabited

namespace Declaration

/-- What tells the file of the declaration apart. -/
def identity : Declaration → Identity
  | ofClass c => c.identity
  | ofInterface i => i.identity

/-- The passes that add the declaration to a file. -/
def passes : Declaration → Pipeline
  | ofClass c => c.passes
  | ofInterface i => i.passes

/-- The namespace of the declaration, or none for the global one. -/
def scope? (d : Declaration) : Option String := d.identity.scope?

/-- What the declaration has in common with all others. -/
def parts : Declaration → DeclarationParts
  | ofClass c => c.toDeclarationParts
  | ofInterface i => i.toDeclarationParts

/-- The declaration with a change of what it has in common with all others. -/
def mapParts (f : DeclarationParts → DeclarationParts) : Declaration → Declaration
  | ofClass c => ofClass { c with toDeclarationParts := f c.toDeclarationParts }
  | ofInterface i => ofInterface { i with toDeclarationParts := f i.toDeclarationParts }

/-- The declaration with what the settings say about new files. -/
def configure (d : Declaration) (s : GeneratorSettings) : Declaration :=
  d.mapParts fun p => p.configure s

/-- The first class or interface in the given parts of a file. -/
def recover? (parts : List Outline) : Option Declaration :=
  let scan := FileScan.ofOutlines (fun _ => true) parts
  match scan.declaration?.map Outline.category with
  | some .interfaceDecl => (InterfaceSpec.ofScan? scan).map ofInterface
  | some _ => (ClassSpec.ofScan? scan).map ofClass
  | none => none

/-- The first class or interface of a file. -/
def ofFile (file : Outline) : Except Error Declaration :=
  match recover? [file] with
  | some d => .ok d
  | none => .error (.noDeclaration .either)

/-- Equality of declarations in all their parts; the order of members is not compared. -/
def same : Declaration → Declaration → Bool
  | ofClass a, ofClass b => a.same b
  | ofInterface a, ofInterface b => a.same b
  | _, _ => false

/-- Adds what is missing of the declaration to a tree. -/
def realize (d : Declaration) : Edit (List PassRecord) := d.passes.run

end Declaration

end PhpGraft

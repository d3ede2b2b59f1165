import PhpGraft.Config.Settings
import PhpGraft.Declaration.Identity
import PhpGraft.Declaration.Scan
import PhpGraft.Graft.Pass

/-!
# Parts of classes and interfaces

Classes and interfaces have in common what stands around them in their files, constants, methods,
and a doc comment with attributes.
-/

namespace PhpGraft

/-- What classes and interfaces to be made have in common. -/
structure DeclarationParts where
  /-- The namespace, or none for the global one. -/
  scope? : Option String := none
  /-- Whether the file has the directive for strict types. -/
  strict : Bool := true
  /-- Whether types are declared; if not, none of the members declares its own. -/
  typed : Bool := true
  /-- The imports of the file. -/
  imports : NameMap Import := .empty
  /-- The constants. -/
  constants : NameMap ConstSpec := .empty
  /-- The methods. -/
  methods : NameMap MethodSpec := .empty
  /-- The free text of the doc comment. -/
  doc? : Option String := none
  /-- The attributes. -/
  attributes : List AttributeSpec := []
  deriving Inhabited

namespace DeclarationParts

/-- The parts in another namespace; backslashes at either end are dropped. -/
def setScope (d : DeclarationParts) (name : String) : DeclarationParts :=
  { d with scope? := normalizeScope? name }

/-- The parts with what the settings say about new files. -/
def configure (d : DeclarationParts) (s : GeneratorSettings) : DeclarationParts :=
  { d with strict := s.strictTypes, typed := s.typed }

/-- The passes for what stands ahead of the declaration in a file. -/
def scaffold (d : DeclarationParts) : Pipeline :=
  (if d.strict then [.strictTypes] else []) ++ (d.scope?.map Pass.namespaceDecl).toList ++
    (if d.imports.isEmpty then [] else [.imports d.imports.items])

/-- The passes for the constants of a class or interface. -/
def constantPasses (d : DeclarationParts) (name? : Option String) : Pipeline :=
  d.constants.items.map (.constant name?)

/-- The passes for the methods of a class or interface. -/
def methodPasses (d : DeclarationParts) (name? : Option String) : Pipeline :=
  d.methods.items.map fun m => .method name? { m with typed := d.typed && m.typed }

/-- The parts of a declaration and of the file that it was found in. -/
def ofScan (s : FileScan) (n : Node) (m : Members) : DeclarationParts :=
  { scope? := s.scope?
    strict := s.strict
    typed := m.typed
    imports := .ofList s.imports
    constants := .ofList m.constants
    methods := .ofList m.methods
    doc? := summaryOf? n.doc?
    attributes := n.attributes.map .recover }

/-- Equality of all parts; the order of members is not compared. -/
def same (a b : DeclarationParts) : Bool :=
  a.scope? == b.scope? && a.strict == b.strict && a.typed == b.typed &&
    a.imports.same (· == ·) b.imports && a.constants.same (· == ·) b.constants &&
    a.methods.same (· == ·) b.methods && a.doc? == b.doc? && a.attributes == b.attributes

end DeclarationParts

end PhpGraft

import PhpGraft.Graft.Heritage
import PhpGraft.Graft.Member
import PhpGraft.Graft.Scaffold

/-!
# Passes

A pass adds one element to a file that does not have it. What is in the file already is neither
replaced nor removed. A pipeline runs passes one after another; it stops at the first error and
keeps what was added up to there.
-/

namespace PhpGraft

/-- An element that is added to a file where it is missing. A class without a name is the first
anonymous one. -/
inductive Pass where
  /-- The directive for strict types. -/
  | strictTypes
  /-- The namespace of a file without one. -/
  | namespaceDecl (name : String)
  /-- Imports. -/
  | imports (imports : List Import)
  /-- A class without members. -/
  | classDecl (name? : Option String) (modifiers : Modifiers) (doc? : Option String)
      (attributes : List AttributeSpec)
  /-- An interface without members. -/
  | interfaceDecl (name : String) (doc? : Option String) (attributes : List AttributeSpec)
  /-- The parent of a class. -/
  | parent (class? : Option String) (name : String)
  /-- The interfaces of a class. -/
  | interfaces (class? : Option String) (names : List String)
  /-- The parents of an interface. -/
  | interfaceParents (name : String) (names : List String)
  /-- The traits of a class. -/
  | traits (class? : Option String) (names : List String)
  /-- A constant. -/
  | constant (class? : Option String) (spec : ConstSpec)
  /-- A property. -/
  | property (class? : Option String) (spec : PropertySpec)
  /-- A method. -/
  | method (class? : Option String) (spec : MethodSpec)

namespace Pass

/-- How the kind of element is called. -/
def name : Pass → String
  | strictTypes => "strict_types"
  | namespaceDecl _ => "namespace"
  | imports _ => "imports"
  | classDecl _ _ _ _ => "class"
  | interfaceDecl _ _ _ => "interface"
  | parent _ _ => "extends"
  | interfaces _ _ => "implements"
  | interfaceParents _ _ => "interface_extends"
  | traits _ _ => "trait_use"
  | constant _ _ => "constant"
  | property _ _ => "property"
  | method _ _ => "method"

/-- Names with commas between them. -/
def commas (names : List String) : String := ", ".intercalate names

/-- How the element is called in reports. -/
def target : Pass → String
  | strictTypes => "declare(strict_types=1)"
  | namespaceDecl name => Name.bare name
  | imports l => commas (l.map Import.name)
  | classDecl name? _ _ _ => Edit.className name?
  | interfaceDecl name _ _ => name
  | parent class? name => Edit.className class? ++ " extends " ++ name
  | interfaces class? names => Edit.className class? ++ " implements " ++ commas names
  | interfaceParents name names => name ++ " extends " ++ commas names
  | traits class? names => Edit.className class? ++ " uses " ++ commas names
  | constant class? spec => Edit.className class? ++ "::" ++ spec.name
  | property class? spec => Edit.className class? ++ "::$" ++ spec.name
  | method class? spec => Edit.className class? ++ "::" ++ spec.name ++ "()"

/-- Adds the element to a tree, if it is missing. -/
def apply : Pass → Edit Outcome
  | strictTypes => Edit.addStrictTypes
  | namespaceDecl name => Edit.addNamespace (Name.bare name)
  | imports l => Edit.addImports l
  | classDecl name? modifiers doc? attributes =>
    Edit.addDeclaration name? (.classDecl { name?, modifiers }) doc? attributes
  | interfaceDecl name doc? attributes =>
    Edit.addDeclaration (some name) (.interfaceDecl { name }) doc? attributes
  | parent class? name => Edit.setParent class? name
  | interfaces class? names => Edit.addInterfaces class? names
  | interfaceParents name names => Edit.addParents name names
  | traits class? names => Edit.addTraits class? names
  | constant class? spec => Edit.addConstant class? spec
  | property class? spec => Edit.addProperty class? spec
  | method class? spec => Edit.addMethod class? spec

end Pass

/-- What a pass did. -/
structure PassRecord where
  /-- The kind of element. -/
  pass : String
  /-- The element. -/
  target : String
  /-- Whether it was added. -/
  outcome : Outcome
  deriving DecidableEq, Repr

/-- Passes to be run one after another. -/
abbrev Pipeline := List Pass

namespace Pipeline

/-- Runs the passes up to the first error. -/
def run : Pipeline → Edit (List PassRecord)
  | [] => return []
  | p :: ps => do
    let outcome ← p.apply
    return ⟨p.name, p.target, outcome⟩ :: (← run ps)

end Pipeline

/-- The number of elements that were added. -/
def PassRecord.inserted (records : List PassRecord) : Nat :=
  records.countP fun r => r.outcome == .inserted

end PhpGraft

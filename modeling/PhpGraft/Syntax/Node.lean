import PhpGraft.Syntax.Body
import PhpGraft.Syntax.Expr
import PhpGraft.Syntax.Modifiers
import PhpGraft.Syntax.TypeHint

/-!
# Nodes of a file

A file is a tree of declarations. What is no declaration of a known form is kept as source text, and
so are the comments around a node. An outline is such a tree as a value: a node and the outlines of
its children.
-/

namespace PhpGraft

/-- An attribute of a declaration: a name and its arguments as source. -/
structure Attribute where
  /-- The name of the attribute. -/
  name : String
  /-- The source of each argument. -/
  args : List String
  deriving DecidableEq, Repr, Inhabited

/-- A parameter of a method. -/
structure Param where
  /-- The name without its dollar sign. -/
  name : String
  /-- The declared type. -/
  type? : Option TypeHint := none
  /-- The value that stands in for a missing argument. -/
  default? : Option Expr := none
  /-- Whether the argument is passed by reference. -/
  byRef : Bool := false
  /-- Whether the parameter takes all further arguments. -/
  variadic : Bool := false
  /-- The modifiers that make the parameter a property. -/
  modifiers : Modifiers := .none
  /-- The attributes of the parameter. -/
  attributes : List Attribute := []
  deriving Inhabited

/-- The head of a class. -/
structure ClassDecl where
  /-- The name, or none for an anonymous class. -/
  name? : Option String
  /-- The modifiers of the class. -/
  modifiers : Modifiers := .none
  /-- The class that is extended. -/
  parent? : Option String := none
  /-- The interfaces that are implemented. -/
  interfaces : List String := []
  deriving DecidableEq, Inhabited

/-- The head of an interface. -/
structure InterfaceDecl where
  /-- The name of the interface. -/
  name : String
  /-- The interfaces that are extended. -/
  parents : List String := []
  deriving DecidableEq, Inhabited

/-- A constant of a class or interface. -/
structure ConstDecl where
  /-- The name of the constant. -/
  name : String
  /-- The modifiers of the constant. -/
  modifiers : Modifiers := .none
  /-- The value of the constant. -/
  value : Expr
  deriving Inhabited

/-- A property of a class. -/
structure PropertyDecl where
  /-- The name without its dollar sign. -/
  name : String
  /-- The modifiers of the property. -/
  modifiers : Modifiers := .none
  /-- The declared type. -/
  type? : Option TypeHint := none
  /-- The initial value. -/
  default? : Option Expr := none
  deriving Inhabited

/-- A method of a class or interface. -/
structure MethodDecl where
  /-- The name of the method. -/
  name : String
  /-- The modifiers of the method. -/
  modifiers : Modifiers := .none
  /-- Whether the result is a reference. -/
  byRef : Bool := false
  /-- The parameters. -/
  params : List Param := []
  /-- The declared type of the result. -/
  returns? : Option TypeHint := none
  /-- The statements, or none for an abstract method. -/
  body? : Option Body := none
  deriving Inhabited

/-- What a node is. -/
inductive NodeKind where
  /-- The root of a file. -/
  | file
  /-- A directive: `declare(strict_types=1);`. -/
  | directive (key : String) (value : Expr)
  /-- A namespace; its children are the statements that it governs. -/
  | namespaceDecl (name : String)
  /-- An import of one name. -/
  | useDecl (name : String) (alias? : Option String)
  /-- A class; its children are its members. -/
  | classDecl (decl : ClassDecl)
  /-- An interface; its children are its members. -/
  | interfaceDecl (decl : InterfaceDecl)
  /-- The traits that a class uses, and the block that resolves their conflicts. -/
  | traitUse (traits : List String) (adaptations? : Option Body)
  /-- A constant of a class or interface. -/
  | constDecl (decl : ConstDecl)
  /-- A property of a class. -/
  | propertyDecl (decl : PropertyDecl)
  /-- A method of a class or interface. -/
  | methodDecl (decl : MethodDecl)
  /-- Source text of no known form. -/
  | verbatim (source : String)
  deriving Inhabited

/-- The form of a node without its contents. -/
inductive Category where
  | file | directive | namespaceDecl | useDecl | classDecl | interfaceDecl | traitUse | constDecl
  | propertyDecl | methodDecl | verbatim
  deriving DecidableEq, Repr, Inhabited

namespace Category

/-- The place of a kind of member in the usual layout of a class: traits, constants, properties,
methods. -/
def memberRank? : Category → Option Nat
  | traitUse => some 0
  | constDecl => some 1
  | propertyDecl => some 2
  | methodDecl => some 3
  | _ => none

/-- Whether nodes of this form are classes or interfaces. -/
def isClassLike (c : Category) : Bool := c == classDecl || c == interfaceDecl

end Category

namespace NodeKind

/-- The form of a node. -/
def category : NodeKind → Category
  | file => .file
  | directive _ _ => .directive
  | namespaceDecl _ => .namespaceDecl
  | useDecl _ _ => .useDecl
  | classDecl _ => .classDecl
  | interfaceDecl _ => .interfaceDecl
  | traitUse _ _ => .traitUse
  | constDecl _ => .constDecl
  | propertyDecl _ => .propertyDecl
  | methodDecl _ => .methodDecl
  | verbatim _ => .verbatim

/-- The name by which a node is found. -/
def name? : NodeKind → Option String
  | namespaceDecl name => some name
  | useDecl name _ => some name
  | classDecl d => d.name?
  | interfaceDecl d => some d.name
  | constDecl d => some d.name
  | propertyDecl d => some d.name
  | methodDecl d => some d.name
  | file | directive _ _ | traitUse _ _ | verbatim _ => none

end NodeKind

/-- A node with what stands around it, without its children. -/
structure Node where
  /-- What the node is. -/
  kind : NodeKind
  /-- The doc comment, each line trimmed. -/
  doc? : Option String := none
  /-- The attributes of the declaration. -/
  attributes : List Attribute := []
  /-- The comments directly above the node. -/
  comment? : Option String := none
  /-- The comments behind the last line of the node, with the white space ahead of them. -/
  trailing? : Option String := none
  deriving Inhabited

namespace Node

/-- The form of a node. -/
def category (n : Node) : Category := n.kind.category

/-- The name by which a node is found. -/
def name? (n : Node) : Option String := n.kind.name?

end Node

/-- A node together with everything below it. -/
inductive Outline where
  | mk (node : Node) (children : List Outline)

namespace Outline

instance : Inhabited Outline := ⟨.mk default []⟩

/-- The node at the top. -/
def node : Outline → Node
  | mk n _ => n

/-- The outlines below the node at the top. -/
def children : Outline → List Outline
  | mk _ cs => cs

/-- The form of the node at the top. -/
def category (o : Outline) : Category := o.node.category

/-- A node without children. -/
def leaf (n : Node) : Outline := mk n []

/-- A piece of source text. -/
def verbatim (source : List Char) : Outline := leaf { kind := .verbatim (String.ofList source) }

/-- The outline with another comment above it. -/
def withComment (comment? : Option String) : Outline → Outline
  | mk n cs => mk { n with comment? } cs

/-- The outline with comments behind it. -/
def withTrailing (trailing? : Option String) : Outline → Outline
  | mk n cs => mk { n with trailing? } cs

end Outline

end PhpGraft

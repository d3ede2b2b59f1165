import PhpGraft.Syntax.LineBuffer
import PhpGraft.Syntax.Node

/-!
# Writing files

An outline is written as a file in one fixed style. A blank line stands between two items of a
scope, except between imports, between uses of traits and between constants. The comments, the doc
comment and the attributes of an item go above it.
-/

namespace PhpGraft

/-- Whether a blank line stands between two items of these forms. -/
def Category.separated (before after : Category) : Bool :=
  !((before == .useDecl || before == .traitUse || before == .constDecl) && before == after)

/-- An attribute as it is written inside an attribute list. -/
def Attribute.text (a : Attribute) : String :=
  if a.args.isEmpty then a.name else a.name ++ "(" ++ ", ".intercalate a.args ++ ")"

/-- A parameter as it is written. -/
def Param.text (p : Param) : String :=
  String.join (p.attributes.map fun a => "#[" ++ a.text ++ "] ") ++
    p.modifiers.lead ++
    (p.type?.map fun t => t.text ++ " ").getD "" ++
    (if p.byRef then "&" else "") ++
    (if p.variadic then "..." else "") ++
    "$" ++ p.name ++
    (p.default?.map fun e => " = " ++ e.text).getD ""

/-- What follows the name of a class: the parent and the interfaces. -/
def ClassDecl.heritage (d : ClassDecl) : String :=
  (d.parent?.map fun p => " extends " ++ p).getD "" ++
    if d.interfaces.isEmpty then "" else " implements " ++ ", ".intercalate d.interfaces

/-- The first line of an interface. -/
def InterfaceDecl.header (d : InterfaceDecl) : String :=
  "interface " ++ d.name ++
    if d.parents.isEmpty then "" else " extends " ++ ", ".intercalate d.parents

/-- A constant as it is written. -/
def ConstDecl.text (d : ConstDecl) : String :=
  d.modifiers.lead ++ "const " ++ d.name ++ " = " ++ d.value.text ++ ";"

/-- A property as it is written. Without modifiers it is announced by `var`. -/
def PropertyDecl.text (d : PropertyDecl) : String :=
  (if d.modifiers.isEmpty then "var " else d.modifiers.lead) ++
    (d.type?.map fun t => t.text ++ " ").getD "" ++
    "$" ++ d.name ++
    (d.default?.map fun e => " = " ++ e.text).getD "" ++ ";"

/-- The first line of a method, without a semicolon. -/
def MethodDecl.header (d : MethodDecl) : String :=
  d.modifiers.lead ++ "function " ++ (if d.byRef then "&" else "") ++ d.name ++
    "(" ++ ", ".intercalate (d.params.map Param.text) ++ ")" ++
    (d.returns?.map fun t => ": " ++ t.text).getD ""

namespace LineBuffer

/-- Writes a line of a body: a raw one as it stands, any other at the present depth. -/
def bodyLine (b : LineBuffer) (l : BodyLine) : LineBuffer :=
  if l.raw then b.raw l.text else b.lineOrBlank l.text

/-- Writes the lines of a body one level deeper. -/
def block (b : LineBuffer) (body : Body) : LineBuffer :=
  b.nested fun b => body.lines.foldl bodyLine b

/-- Writes what stands above a node: comments, doc comment and attributes. -/
def preamble (b : LineBuffer) (n : Node) : LineBuffer :=
  let b := match n.comment? with
    | some c => b.verbatim c
    | none => b
  let b := match n.doc? with
    | some d => b.lines (Text.linesOf d)
    | none => b
  n.attributes.foldl (fun b a => b.line ("#[" ++ a.text ++ "]")) b

/-- Writes the comments behind a node. -/
def trailingOf (b : LineBuffer) (n : Node) : LineBuffer :=
  match n.trailing? with
  | some c => b.trailing c
  | none => b

/-- Writes a directive, an import or a member, or a verbatim statement. -/
def leafLines (b : LineBuffer) : NodeKind → LineBuffer
  | .directive key value => b.line ("declare(" ++ key ++ "=" ++ value.text ++ ");")
  | .useDecl name none => b.line ("use " ++ name ++ ";")
  | .useDecl name (some other) => b.line ("use " ++ name ++ " as " ++ other ++ ";")
  | .traitUse traits none => b.line ("use " ++ ", ".intercalate traits ++ ";")
  | .traitUse traits (some body) =>
    ((b.line ("use " ++ ", ".intercalate traits ++ " \x7b")).block body).line "\x7d"
  | .constDecl d => b.line d.text
  | .propertyDecl d => b.line d.text
  | .methodDecl d =>
    match d.body? with
    | none => b.line (d.header ++ ";")
    | some body => (((b.line d.header).line "\x7b").block body).line "\x7d"
  | .verbatim source => b.verbatim source
  | .file | .namespaceDecl _ | .classDecl _ | .interfaceDecl _ => b

end LineBuffer

namespace Outline

mutual

/-- Writes a node and what is below it. -/
def write : Outline → LineBuffer → LineBuffer
  | .mk n children, b =>
    let b := b.preamble n
    match n.kind with
    | .file => (writeAll none children b).trailingOf n
    | .namespaceDecl name =>
      if name.isEmpty then
        (((b.line "namespace \x7b").nested (writeAll none children)).line "\x7d").trailingOf n
      else
        let b := (b.line ("namespace " ++ name ++ ";")).trailingOf n
        if children.isEmpty then b else writeAll none children b.blank
    | .classDecl d =>
      match d.name? with
      | some name =>
        let b := (b.line (d.modifiers.lead ++ "class " ++ name ++ d.heritage)).line "\x7b"
        ((b.nested (writeAll none children)).line "\x7d").trailingOf n
      | none =>
        let b := b.line ("return new class" ++ d.heritage ++ " \x7b")
        ((b.nested (writeAll none children)).line "\x7d;").trailingOf n
    | .interfaceDecl d =>
      let b := (b.line d.header).line "\x7b"
      ((b.nested (writeAll none children)).line "\x7d").trailingOf n
    | kind => (b.leafLines kind).trailingOf n

/-- Writes the items of a scope; the form of the one before them is given, if there is one. -/
def writeAll (before? : Option Category) : List Outline → LineBuffer → LineBuffer
  | [], b => b
  | o :: rest, b =>
    let b := match before? with
      | some before => if before.separated o.category then b.blank else b
      | none => b
    writeAll (some o.category) rest (o.write b)

end

/-- The text of a file. -/
def print (indent : Indent) (file : Outline) : String :=
  let b := (LineBuffer.empty indent).line "<?php"
  if file.children.isEmpty then b.text else (writeAll none file.children b.blank).text

end Outline

end PhpGraft

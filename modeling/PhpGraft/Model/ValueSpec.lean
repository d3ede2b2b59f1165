import PhpGraft.Error
import PhpGraft.Model.Literal
import PhpGraft.Model.Name
import PhpGraft.Syntax.Expr

/-!
# Values of members

The value of a constant or a default is a plain value, a double or an expression. It becomes an
expression only when its member is realized; a kind says what form it has to have then. An
expression is read back as a plain value if it is a literal.
-/

namespace PhpGraft

open Decimal

/-- The form that a plain value takes as an expression. -/
inductive ValueKind where
  /-- Whatever form the value has. -/
  | auto
  | null
  | bool
  | int
  | float
  | string
  | array
  /-- A string that names a constant. -/
  | constant
  /-- An expression of any form. -/
  | other
  deriving DecidableEq, Repr, Inhabited

/-- What a value is given as. -/
inductive ValueSource where
  /-- A plain value. -/
  | literal (l : Literal)
  /-- A double, which may be infinite or no number. -/
  | float (x : Binary64)
  /-- An expression. -/
  | expr (e : Expr)
  deriving Inhabited

/-- The value of a constant or a default. -/
structure ValueSpec where
  /-- What the value is given as. -/
  source : ValueSource
  /-- The form that it takes. -/
  kind : ValueKind
  deriving Inhabited

namespace ValueSpec

/-- A plain value in its own form. -/
def ofLiteral (l : Literal) : ValueSpec := ⟨.literal l, .auto⟩

/-- A double. -/
def ofFloat (x : Binary64) : ValueSpec := ⟨.float x, .float⟩

/-- A reference to a constant. -/
def ofConstant (name : String) : ValueSpec := ⟨.literal (.string name), .constant⟩

/-- An expression. -/
def ofExpr (e : Expr) : ValueSpec := ⟨.expr e, .other⟩

/-- The plain value that the value is given as. -/
def literal? (v : ValueSpec) : Option Literal :=
  match v.source with
  | .literal l => some l
  | _ => none

/-- The key of an array entry: an integer where the text is one in its usual spelling. -/
def arrayKey (key : String) : Expr :=
  match int64? key with
  | some n => if intText n = key then .int n else .string key
  | none => .string key

mutual

/-- A plain value as an expression of its own form. -/
def encode : Literal → Except Error Expr
  | .null => .ok .null
  | .bool b => .ok (.bool b)
  | .int n =>
    if n ≤ maxInt64 then .ok (.int n) else .ok (.float (Binary64.ofNat n.toNat))
  | .float x =>
    if x.isFinite then .ok (.float x)
    else .error (.unsupportedValue (Literal.float x).text .outOfRange)
  | .string s => .ok (.string s)
  | .list items => (encodeList items).map .array
  | .object fields => (encodeFields fields).map .array

/-- Plain values as array entries without keys. -/
def encodeList : List Literal → Except Error (List ArrayItem)
  | [] => .ok []
  | v :: vs => do
    let e ← encode v
    return .value e :: (← encodeList vs)

/-- A field as an array entry with a key. -/
def encodeField : LiteralField → Except Error ArrayItem
  | .mk key v => do return .keyed (arrayKey key) (← encode v)

/-- Fields as array entries with keys. -/
def encodeFields : List LiteralField → Except Error (List ArrayItem)
  | [] => .ok []
  | f :: fs => do
    let item ← encodeField f
    return item :: (← encodeFields fs)

end

/-- Whether a text is a class name, with or without a backslash at the front. -/
def isClassName (cs : List Char) : Bool :=
  Name.isQualified (if cs.head? == some '\\' then cs.drop 1 else cs)

/-- The constant or the constant of a class that a name refers to. -/
def constantFetch? (name : String) : Option Expr :=
  let cs := name.toList
  match Text.splitOnce? [':', ':'] cs with
  | some (c, member) =>
    if isClassName c && Text.isAsciiIdent member then
      some (.classConst (String.ofList c) (String.ofList member))
    else none
  | none => if isClassName cs then some (.const name) else none

/-- A plain value as an expression of the given form. -/
def encodeAs (l : Literal) (kind : ValueKind) : Except Error Expr :=
  let refuse (fault : ValueFault) := .error (.unsupportedValue l.text fault)
  match kind, l with
  | .auto, _ | .other, _ => encode l
  | .null, .null => .ok .null
  | .null, _ => refuse (.expected "null")
  | .bool, .bool b => .ok (.bool b)
  | .bool, _ => refuse (.expected "a boolean")
  | .int, _ =>
    match l.int64? with
    | some n => .ok (.int n)
    | none => refuse (.expected "an integer")
  | .float, _ =>
    match l.float? with
    | some x => .ok (.float x)
    | none => refuse (.expected "a number")
  | .string, .string s => .ok (.string s)
  | .string, _ => refuse (.expected "a string")
  | .array, .list _ | .array, .object _ => encode l
  | .array, _ => refuse (.expected "an array or object")
  | .constant, .string name =>
    match constantFetch? name with
    | some e => .ok e
    | none => refuse .notAConstant
  | .constant, _ => refuse (.expected "a constant name")

/-- The value as an expression. -/
def materialize (v : ValueSpec) : Except Error Expr :=
  match v.source with
  | .expr e => .ok e
  | .float x =>
    if x.isFinite then .ok (.float x)
    else .error (.unsupportedValue (PhpGraft.floatLayout.render x) .notFinite)
  | .literal l => encodeAs l v.kind

/-- The key under which an array entry is found in an object. -/
def fieldKey? : Expr → Option String
  | .int n => some (intText n)
  | .string s => some s
  | _ => none

/-- Whether no entry of an array has a key. -/
def noKeys (items : List ArrayItem) : Bool :=
  items.all fun
    | .value _ => true
    | .keyed _ _ => false

mutual

/-- The plain value that an expression is a literal of. -/
def literalOf? : Expr → Option Literal
  | .null => some .null
  | .bool b => some (.bool b)
  | .int n => some (.int n)
  | .float x => if x.isFinite then some (.float x) else none
  | .string s => some (.string s)
  | .array items =>
    if noKeys items then (itemsOf? items).map .list else (fieldsOf? [] items).map .object
  | .const _ | .classConst _ _ | .raw _ => none

/-- The value of an array entry as a plain value. -/
def itemOf? : ArrayItem → Option Literal
  | .value v => literalOf? v
  | .keyed _ v => literalOf? v

/-- The values of array entries as plain values. -/
def itemsOf? : List ArrayItem → Option (List Literal)
  | [] => some []
  | item :: items => do
    let v ← itemOf? item
    return v :: (← itemsOf? items)

/-- Array entries as fields, if each has a key of its own; `seen` are the keys ahead of them. -/
def fieldsOf? (seen : List String) : List ArrayItem → Option (List LiteralField)
  | [] => some []
  | item :: items => do
    let key ← match item with
      | .keyed k _ => fieldKey? k
      | .value _ => none
    let v ← itemOf? item
    if seen.contains key then none
    else return .mk key v :: (← fieldsOf? (key :: seen) items)

end

/-- The value that an expression is read back as. -/
def recover (e : Expr) : ValueSpec :=
  match e with
  | .const name => ofConstant name
  | .classConst c name => ofConstant (c ++ "::" ++ name)
  | e =>
    match literalOf? e with
    | some l => ofLiteral l
    | none => ofExpr e

/-- Equality of values: doubles as numbers, objects without regard to the order of their fields. -/
def same (v w : ValueSpec) : Bool :=
  v.kind == w.kind &&
    match v.source, w.source with
    | .literal a, .literal b => a.same b
    | .float a, .float b => a.same b
    | .expr a, .expr b => a.same b
    | _, _ => false

instance : BEq ValueSpec := ⟨same⟩

end ValueSpec

end PhpGraft

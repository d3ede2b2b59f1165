import PhpGraft.Syntax.Reader.Statement

/-!
# Reading files and bodies

A file is an open tag and the statements behind it. A namespace without a block governs the
statements up to the next namespace. A body is a fragment whose brackets are balanced; it is kept as
lines.
-/

namespace PhpGraft

open Reader

/-- The statements of a file that were read so far. -/
structure Draft where
  /-- The finished statements, the last one first. -/
  root : Reader.Items
  /-- The namespace without a block whose statements are being read, and those read so far. -/
  scope? : Option (Node × Reader.Items)

namespace Draft

/-- Whether something was read that comments can stand behind. -/
def afterItem (d : Draft) : Bool := d.scope?.isSome || !d.root.isEmpty

/-- The draft with the comments of a gap put in place. -/
def settle (d : Draft) (p : Placement) : Draft :=
  match d.scope? with
  | none => { d with root := d.root.settle p }
  | some (head, items) =>
    let head :=
      match items, p.trailing? with
      | [], some text => { head with trailing? := some (String.ofList text) }
      | _, _ => head
    { d with scope? := some (head, items.settle p) }

/-- The draft with the nodes of a statement behind what was read. -/
def push (d : Draft) (comment? : Option (List Char)) (found : List Outline) : Draft :=
  match d.scope? with
  | none => { d with root := d.root.push comment? found }
  | some (head, items) => { d with scope? := some (head, items.push comment? found) }

/-- The draft with its namespace ended. -/
def close (d : Draft) : Draft :=
  match d.scope? with
  | none => d
  | some (head, items) => ⟨.mk head items.reverse :: d.root, none⟩

/-- The draft with a namespace behind what was read. Without a block the namespace governs what is
read next. -/
def pushNamespace (d : Draft) (head : Node) : Option (List Outline) → Draft
  | none => { d.close with scope? := some (head, []) }
  | some items => { d.close with root := .mk head items :: d.close.root }

/-- The statements of a finished draft. -/
def statements (d : Draft) : List Outline := d.close.root.reverse

end Draft

namespace Reader

/-- Whether a namespace comes next. -/
def namespaceAhead (ts : List Token) : Bool :=
  (peek ts).isKeyword "namespace" &&
    ((peekSecond ts).kind == .name || (peekSecond ts).isPunct '{')

/-- The name of a namespace behind its keyword, empty if it has none, and the tokens behind it. -/
def namespaceName (ts : List Token) : String × List Token :=
  if (peek ts).kind == .name then ((peek ts).source, advance ts) else ("", ts)

/-- Passing over the name of a namespace takes nothing back. -/
theorem length_namespaceName_le (ts : List Token) : (namespaceName ts).2.length ≤ ts.length := by
  unfold namespaceName
  split
  · exact length_advance_le ts
  · exact Nat.le_refl _

/-- Reads what stands behind the name of a namespace: the end of the statement, or a block of
statements. -/
def namespaceBody (ts : List Token) :
    Except ParseError (Option (List Outline) × List Token) :=
  if (peek ts).isPunct ';' then .ok (none, advance ts)
  else if (peek ts).isPunct '{' then
    match scopeItems statement advances_statement ((peek ts).error .unclosedNamespace) []
        (advance ts) with
    | .error e => .error e
    | .ok (items, rest) => .ok (some items, rest)
  else .error ((peek ts).error .namespaceWithoutEnd)

/-- Reading what stands behind the name of a namespace takes at least one token. -/
theorem length_lt_of_namespaceBody {ts rest : List Token} {block? : Option (List Outline)}
    (h : namespaceBody ts = .ok (block?, rest)) : rest.length < ts.length := by
  unfold namespaceBody at h
  split at h
  · next hp =>
    obtain ⟨_, rfl⟩ := Prod.mk.inj (Except.ok.inj h)
    exact length_advance_lt_of (p := (·.isPunct ';')) rfl hp
  · split at h
    · split at h
      · simp at h
      · next e =>
        obtain ⟨_, rfl⟩ := Prod.mk.inj (Except.ok.inj h)
        have := length_lt_of_scopeItems e
        have := length_advance_le ts
        omega
    · simp at h

/-- Reads a namespace: its node and, if it has a block, the statements in it. -/
def namespaceDecl (ts : List Token) :
    Except ParseError ((Node × Option (List Outline)) × List Token) :=
  let (name, behind) := namespaceName (advance ts)
  match namespaceBody behind with
  | .error e => .error e
  | .ok (block?, rest) =>
    .ok (({ kind := .namespaceDecl name, doc? := leadingDoc ts }, block?), rest)

/-- Reading a namespace takes at least one token. -/
theorem length_lt_of_namespaceDecl {ts rest : List Token} {found : Node × Option (List Outline)}
    (h : namespaceDecl ts = .ok (found, rest)) : rest.length < ts.length := by
  unfold namespaceDecl at h
  dsimp only at h
  split at h
  · simp at h
  · next e =>
    obtain ⟨_, rfl⟩ := Prod.mk.inj (Except.ok.inj h)
    have := length_lt_of_namespaceBody e
    have := length_namespaceName_le (advance ts)
    have := length_advance_le ts
    omega

/-- Reads the statements of a file behind those in the draft. -/
def statements (d : Draft) (ts : List Token) : Except ParseError (List Outline) :=
  let place := placement d.afterItem ts
  let d := d.settle place
  if (peek ts).isEnd then .ok d.statements
  else if namespaceAhead ts then
    match _h : namespaceDecl ts with
    | .error e => .error e
    | .ok ((head, block?), rest) =>
      let head := { head with comment? := place.leading?.map String.ofList }
      statements (d.pushNamespace head block?) rest
  else if (peek ts).isPunct '}' then .error ((peek ts).error .strayBrace)
  else
    match _h : statement ts with
    | .error e => .error e
    | .ok (found, rest) => statements (d.push place.leading? found) rest
termination_by ts.length
decreasing_by
  · exact length_lt_of_namespaceDecl _h
  · exact advances_statement _h

/-- Whether the brackets of some tokens are balanced; `openers` are those still open, the last one
first. -/
def balanced (openers : List Token) : List Token → Except ParseError Unit
  | [] =>
    match openers with
    | [] => .ok ()
    | last :: _ => .error ⟨.unclosedInBody, last.start, 1⟩
  | t :: ts =>
    if t.kind == .closeTag then .error ⟨.closeTagInBody, t.start, 2⟩
    else if t.isPunct '(' || t.isPunct '[' || t.isPunct '{' then balanced (t :: openers) ts
    else
      match t.closer?, openers with
      | none, _ => balanced openers ts
      | some _, _ :: openers => balanced openers ts
      | some c, [] => .error ⟨.unmatchedInBody c, t.start, 1⟩

end Reader

namespace Outline

/-- The outline of a file from its statements. -/
def file (statements : List Outline) : Outline := .mk { kind := .file } statements

/-- Reads a file. -/
def parse (source : String) : Except ParseError Outline := do
  match ← Lexer.file source with
  | first :: rest =>
    if first.kind == .openTag then return .file (← Reader.statements ⟨[], none⟩ rest)
    else return .file []
  | [] => return .file []

end Outline

namespace Body

/-- Reads the statements of a method without the braces around them. -/
def parse (fragment : String) : Except ParseError Body := do
  Reader.balanced [] (← Lexer.fragment fragment)
  return ofSource fragment.toList

end Body

end PhpGraft

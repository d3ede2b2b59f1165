import PhpGraft.Model.Name

/-!
# Identities

A generated file is told apart by its namespace and the name of its declaration. Anonymous classes
have a label in the place of a name. Named declarations come before anonymous ones, and the global
namespace before all others.
-/

namespace PhpGraft

/-- What tells generated files apart. -/
inductive Identity where
  /-- The name of a class or interface. -/
  | named (scope? : Option String) (name : String)
  /-- The label of an anonymous class. -/
  | anonymous (scope? : Option String) (label : String)
  deriving DecidableEq, Repr

namespace Identity

/-- The namespace, or none for the global one. -/
def scope? : Identity → Option String
  | named s _ => s
  | anonymous s _ => s

/-- The name of the file without its extension. -/
def stem : Identity → String
  | named _ name => name
  | anonymous _ label => label

/-- Whether the declaration is an anonymous class. -/
def isAnonymous : Identity → Bool
  | named _ _ => false
  | anonymous _ _ => true

/-- The identity in messages. -/
def text (i : Identity) : String :=
  (i.scope?.map fun s => s ++ "\\").getD "" ++ i.stem ++
    if i.isAnonymous then " (anonymous class)" else ""

/-- Whether the first identity does not come after the second one. -/
def le (a b : Identity) : Bool :=
  if a.isAnonymous != b.isAnonymous then b.isAnonymous
  else if a.scope? == b.scope? then a.stem ≤ b.stem
  else
    match a.scope?, b.scope? with
    | none, _ => true
    | some _, none => false
    | some s, some t => s < t

end Identity

/-- A namespace without backslashes at either end, or none if nothing is left. -/
def normalizeScope? (name : String) : Option String :=
  let bare := Name.bare name
  if bare.isEmpty then none else some bare

end PhpGraft

import PhpGraft.Declaration.Collection

/-!
# Accessors

The classes of a collection are given a method or a constant for each of their properties. A class
keeps the members that it has: no accessor is made where one of its name is there already. The
number of accessors that were made is part of the answer.
-/

namespace PhpGraft

/-- The method of a name that returns a property. -/
def PropertySpec.getter (p : PropertySpec) (name : String) (typed : Bool) : MethodSpec :=
  let source := if p.modifiers.isStatic then "self::$" else "$this->"
  let flags := if p.modifiers.isStatic then [.visiblePublic, .isStatic] else [.visiblePublic]
  { name
    returns? := p.type?
    body? := some ("return " ++ source ++ p.name ++ ";")
    modifiers := .ofList flags
    typed }

namespace ClassSpec

/-- The class with a method for each of its properties, and the number of methods that were made. -/
def addGetters (typed : Bool) (nameOf : String → String) (c : ClassSpec) : ClassSpec × Nat :=
  let made := c.properties.items.map fun p => p.getter (nameOf p.name) typed
  let new := made.filter fun m => !c.methods.contains m.name
  ({ c with methods := c.methods.addAll new }, new.length)

/-- The class with a constant for each of its properties, and the number of constants that were
made. -/
def addPropertyConstants (nameOf : String → String) (valueOf : String → ValueSpec)
    (modifiers : Modifiers) (c : ClassSpec) : ClassSpec × Nat :=
  let made := c.properties.items.map fun p =>
    ({ name := nameOf p.name, value := valueOf p.name, modifiers } : ConstSpec)
  let new := made.filter fun m => !c.constants.contains m.name
  ({ c with constants := c.constants.addAll new }, new.length)

end ClassSpec

namespace Collection

/-- Makes accessors in a declaration, unless it is an interface or a class to be skipped. -/
def deriveIn (skip : ClassSpec → Bool) (f : ClassSpec → ClassSpec × Nat) :
    Declaration → Declaration × Nat
  | .ofClass c => if skip c then (.ofClass c, 0) else ((f c).1 |> .ofClass, (f c).2)
  | d => (d, 0)

/-- Makes accessors in the classes that are not to be skipped, and counts them. -/
def derive (skip : ClassSpec → Bool) (f : ClassSpec → ClassSpec × Nat) (c : Collection) :
    Collection × Nat :=
  (c.mapEntries fun e => (deriveIn skip f e.item).1,
    c.entries.foldl (fun n e => n + (deriveIn skip f e.item).2) 0)

/-- Gives the classes a method for each property. -/
def addGetters (typed : Bool) (nameOf : String → String) (skip : ClassSpec → Bool) :
    Collection → Collection × Nat :=
  derive skip (ClassSpec.addGetters typed nameOf)

/-- Gives the classes a constant for each property. -/
def addPropertyConstants (nameOf : String → String) (valueOf : String → ValueSpec)
    (skip : ClassSpec → Bool) (modifiers : Modifiers) : Collection → Collection × Nat :=
  derive skip (ClassSpec.addPropertyConstants nameOf valueOf modifiers)

end Collection

end PhpGraft

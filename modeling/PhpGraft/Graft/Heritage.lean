import PhpGraft.Graft.Edit
import PhpGraft.Model.Name

/-!
# Parents and interfaces

A class without a parent is given one; another parent than the one it has is a conflict. Interfaces
are added behind those that are there.
-/

namespace PhpGraft.Edit

/-- Names with those that are missing behind them, or nothing if none is missing. -/
def appendMissing? (known wanted : List String) : Option (List String) :=
  let missing := Name.missing id known wanted
  if missing.isEmpty then none else some (known ++ missing)

/-- A class with a parent: changed if it has none, and refused if it has another one. -/
def withParent (class? : Option String) (parent : String) (d : ClassDecl) :
    Except Error (Option ClassDecl) :=
  match d.parent? with
  | none => .ok (some { d with parent? := some parent })
  | some existing =>
    if Name.same existing parent then .ok none
    else .error (.inheritanceConflict (className class?) existing parent)

/-- A class with interfaces, changed if it lacks some of them. -/
def withInterfaces? (names : List String) (d : ClassDecl) : Option ClassDecl :=
  (appendMissing? d.interfaces names).map fun interfaces => { d with interfaces }

/-- An interface with parents, changed if it lacks some of them. -/
def withParents? (names : List String) (d : InterfaceDecl) : Option InterfaceDecl :=
  (appendMissing? d.parents names).map fun parents => { d with parents }

/-- Gives a class its parent. -/
def setParent (class? : Option String) (parent : String) : Edit Outcome :=
  changeClass class? (withParent class? parent)

/-- Adds the interfaces that a class does not implement. -/
def addInterfaces (class? : Option String) (names : List String) : Edit Outcome :=
  changeClass class? fun d => .ok (withInterfaces? names d)

/-- Adds the parents that an interface does not extend. -/
def addParents (name : String) (names : List String) : Edit Outcome :=
  changeInterface name (withParents? names)

end PhpGraft.Edit

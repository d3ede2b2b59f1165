import PhpGraft.Error
import PhpGraft.Model.Name
import PhpGraft.Text.FilePath

/-!
# Directories of namespaces

A namespace belongs to the directory of the longest namespace prefix that it starts with, followed
by a directory for each further name. A prefix is followed by a backslash or by nothing; the empty
prefix is one of every namespace. Of two equal prefixes the later one counts.
-/

namespace PhpGraft

open Text

/-- Where files go. -/
structure Resolver where
  /-- The directory of a namespace, given as none for the global one. -/
  directory : Option String → Except Error String
  /-- The path of the file of a name in a directory. -/
  file : String → String → String := fun dir name => FilePath.join dir (name ++ ".php")

/-- Namespace prefixes and their directories. -/
structure PrefixMap where
  /-- The prefixes, without backslashes at either end, and their directories. -/
  roots : List (String × String) := []
  deriving DecidableEq, Repr, Inhabited

namespace PrefixMap

/-- The map with one more prefix, given with or without backslashes at either end. -/
def add (m : PrefixMap) (namespacePrefix dir : String) : PrefixMap :=
  ⟨m.roots ++ [(Name.bare namespacePrefix, dir)]⟩

/-- The map of some prefixes and their directories. -/
def ofList (roots : List (String × String)) : PrefixMap :=
  roots.foldl (fun m root => m.add root.1 root.2) {}

/-- Whether a prefix is one of a namespace. -/
def isPrefixOf (namespacePrefix scope : List Char) : Bool :=
  namespacePrefix.isEmpty || scope == namespacePrefix ||
    (stripPrefix? namespacePrefix scope).any fun rest => rest.head? == some '\\'

/-- The longer of two prefixes with their directories, the second one if they are equally long. -/
def longer (a b : String × String) : String × String :=
  if a.1.utf8ByteSize ≤ b.1.utf8ByteSize then b else a

/-- The longest prefix of a namespace and its directory, the last one of several. -/
def root? (m : PrefixMap) (scope : String) : Option (String × String) :=
  match m.roots.filter fun root => isPrefixOf root.1.toList scope.toList with
  | [] => none
  | root :: roots => some (roots.foldl longer root)

/-- The names of a namespace behind a prefix. -/
def furtherNames (namespacePrefix scope : String) : List String :=
  let rest := scope.toList.drop namespacePrefix.length
  ((splitOn '\\' rest).filter fun name => !name.isEmpty).map String.ofList

/-- The directory of a namespace. -/
def directory (m : PrefixMap) (scope? : Option String) : Except Error String :=
  let scope := Name.bare (scope?.getD "")
  match m.root? scope with
  | some (namespacePrefix, dir) =>
    .ok ((furtherNames namespacePrefix scope).foldl FilePath.join dir)
  | none => .error (.resolution scope)

/-- Files go to the directories of their namespaces. -/
def resolver (m : PrefixMap) : Resolver := { directory := m.directory }

end PrefixMap

end PhpGraft

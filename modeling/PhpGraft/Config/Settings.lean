import PhpGraft.Syntax.Indent
import PhpGraft.Text.FilePath

/-!
# Settings

The settings say what new files get and where they go. Directories are given relative to a root.
-/

namespace PhpGraft

/-- What new files get. -/
structure GeneratorSettings where
  /-- Whether they have the directive for strict types. -/
  strictTypes : Bool := true
  /-- Whether types are declared and not only documented. -/
  typed : Bool := true
  /-- The width of a level of indentation, where zero stands for a tab. -/
  indentWidth : Nat := 4
  deriving DecidableEq, Repr, Inhabited

/-- One level of indentation. -/
def GeneratorSettings.indent (s : GeneratorSettings) : Indent := .ofWidth s.indentWidth

/-- All settings. -/
structure Settings where
  /-- What new files get. -/
  generator : GeneratorSettings := {}
  /-- Namespace prefixes and their directories, in the order of the prefixes. -/
  psr4 : List (String × String) := []
  /-- The directory that the others are relative to. -/
  root : String := ""
  deriving DecidableEq, Repr, Inhabited

/-- Namespace prefixes and their directories, the latter behind the root. -/
def Settings.roots (s : Settings) : List (String × String) :=
  s.psr4.map fun (namespacePrefix, dir) => (namespacePrefix, FilePath.join s.root dir)

end PhpGraft

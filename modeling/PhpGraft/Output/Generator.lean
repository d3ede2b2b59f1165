import PhpGraft.Config.Settings
import PhpGraft.Declaration.Collection
import PhpGraft.Output.Resolver

/-!
# Generating files

Every declaration of a collection is added to the file that is at its path already, or to an empty
one. The first declaration that has no directory, whose file cannot be read, or that cannot be added
ends the run. Files with the same path are one file, with the text that came last.
-/

namespace PhpGraft

/-- A path and the text of the file there. -/
structure GeneratedFile where
  /-- The path, as it was spelled first. -/
  path : String
  /-- The text. -/
  text : String
  deriving DecidableEq, Repr, Inhabited

/-- The files of a run, in the order in which their paths came first. -/
abbrev GeneratedFiles := List GeneratedFile

namespace GeneratedFiles

/-- The text of the file at a path. -/
def get? (files : GeneratedFiles) (path : String) : Option String :=
  (files.find? fun f => FilePath.same f.path path).map GeneratedFile.text

/-- The files with a text for a path: a new file, or a new text for the one at this path. -/
def put (files : GeneratedFiles) (path text : String) : GeneratedFiles :=
  if (files.get? path).isNone then files ++ [⟨path, text⟩]
  else files.map fun f => if FilePath.same f.path path then { f with text } else f

end GeneratedFiles

/-- How files are written, and where they go. -/
structure Generator where
  /-- Where files go. -/
  resolver : Resolver
  /-- One level of indentation. -/
  indent : Indent

namespace Generator

/-- The generator that some settings describe. -/
def ofSettings (s : Settings) : Generator :=
  ⟨(PrefixMap.ofList s.roots).resolver, s.generator.indent⟩

/-- What is at the path of a declaration before it is added: a file, or nothing. -/
abbrev Provider := String → Declaration → Except Error Tree

/-- Nothing is at any path. -/
def noFiles : Provider := fun _ _ => .ok .empty

/-- The text of a file after a declaration was added to it. -/
def realize (g : Generator) (d : Declaration) (t : Tree) : Except Error String :=
  match d.realize.on t with
  | (.ok _, t) => .ok (t.outline.print g.indent)
  | (.error e, _) => .error e

/-- The namespace that was looked up last and its directory. -/
abbrev LastDirectory := Option (Option String × String)

/-- The directory of a namespace; the one that was looked up last is not looked up again. -/
def directory (g : Generator) (last : LastDirectory) (scope? : Option String) :
    Except Error String :=
  match last with
  | some (known, dir) => if known = scope? then .ok dir else g.resolver.directory scope?
  | none => g.resolver.directory scope?

/-- The directory, the path and the text of the file of a declaration. -/
def fileOf (g : Generator) (provider : Provider) (last : LastDirectory) (d : Declaration) :
    Except Error (String × GeneratedFile) := do
  let dir ← g.directory last d.scope?
  let path := g.resolver.file dir d.identity.stem
  let t ← provider path d
  return (dir, ⟨path, ← g.realize d t⟩)

/-- Adds the file of a declaration to the files of a run. An error is one of the declaration. -/
def step (g : Generator) (provider : Provider) (state : GeneratedFiles × LastDirectory)
    (d : Declaration) : Except Error (GeneratedFiles × LastDirectory) :=
  match g.fileOf provider state.2 d with
  | .ok (dir, file) => .ok (state.1.put file.path file.text, some (d.scope?, dir))
  | .error e => .error (.realization d.identity.text e)

/-- The files of all declarations. -/
def generate (g : Generator) (provider : Provider) (c : Collection) :
    Except Error GeneratedFiles :=
  (c.items.foldlM (g.step provider) ([], none)).map Prod.fst

end Generator

end PhpGraft

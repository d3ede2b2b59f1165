import PhpGraft.Config.Reader
import PhpGraft.Config.Toml.Reader
import PhpGraft.Output.Generator
import PhpGraft.Text.Utf8

/-!
# Stored files

A file store holds directories and files with their bytes. A path is followed piece by piece: what
stands ahead of a slash has to be a directory, and two dots lead one directory up. A file is written
only if its text changes, and the directories that it needs are made; those stay even if the file
cannot be written after all.
-/

namespace PhpGraft

open Text

/-- What is at a place. -/
inductive Stored where
  /-- A directory. -/
  | directory
  /-- A file. -/
  | file (bytes : List UInt8)
  deriving DecidableEq, Repr

/-- The names that lead to a place; an absolute place starts with a slash. -/
abbrev Place := List (List Char)

/-- Places and what is there. The place without names is a directory, and so is the root. -/
structure FileStore where
  /-- The places in the order in which something was put there. -/
  entries : List (Place × Stored) := []

/-- Why a path leads to no place. -/
inductive Obstacle where
  /-- Something ahead of a slash is not there. -/
  | missing
  /-- Something ahead of a slash is a file. -/
  | notADirectory
  /-- The path or a name on it is too long, or it holds the character with the number zero. -/
  | unusable
  deriving DecidableEq, Repr

/-- What cannot be done with a file. -/
inductive FileError where
  /-- The path leads to something that is no text, or through something that is no directory. -/
  | read (path : String)
  /-- A directory for the file cannot be made. -/
  | create (path : String)
  /-- The text cannot be put at the path. -/
  | write (path : String)
  deriving DecidableEq, Repr

/-- What went wrong with a file. -/
def FileError.message : FileError → String
  | read path => "failed to read " ++ path
  | create path => "failed to create " ++ path
  | write path => "failed to write " ++ path

/-- What writing a file did. -/
inductive WriteOutcome where
  /-- The file has a new text. -/
  | written
  /-- The file had the text already. -/
  | unchanged
  deriving DecidableEq, Repr

namespace FileStore

/-- What is at a place, if anything is. -/
def stored? (s : FileStore) (place : Place) : Option Stored :=
  if place = [] ∨ place = [['/']] then some .directory else s.entries.lookup place

/-- Puts something at a place. -/
def put (s : FileStore) (place : Place) (x : Stored) : FileStore :=
  ⟨upsert (fun e => e.1 == place) (place, x) s.entries⟩

/-- The place that one piece of a path leads to. -/
def step (place : Place) (piece : List Char) : Place :=
  if FilePath.isIdle piece then place
  else if piece = ['.', '.'] then (if place = [['/']] then place else place.dropLast)
  else place ++ [piece]

/-- Where a path starts, and its pieces. -/
def start (path : String) : Place × List (List Char) :=
  let pieces := splitOn '/' path.toList
  if FilePath.isAbsolute path then ([['/']], pieces.drop 1) else ([], pieces)

/-- The greatest number of bytes of a name. -/
def nameLimit : Nat := 255

/-- The greatest number of bytes of a path. -/
def pathLimit : Nat := 4095

/-- Whether a path can be followed at all. -/
def isUsable (path : String) : Bool :=
  path.utf8ByteSize ≤ pathLimit && !path.toList.contains '\x00'

/-- Follows one piece of a path. -/
def follow (s : FileStore) (place : Place) (piece : List Char) : Except Obstacle Place :=
  match s.stored? place with
  | some .directory =>
    if byteLength piece ≤ nameLimit then .ok (step place piece) else .error .unusable
  | some (.file _) => .error .notADirectory
  | none => .error .missing

/-- The place that a path leads to. Nothing needs to be there. -/
def locate (s : FileStore) (path : String) : Except Obstacle Place :=
  if isUsable path then (start path).2.foldlM s.follow (start path).1 else .error .unusable

/-- The text at a path, or none if nothing is there. -/
def read (s : FileStore) (path : String) : Except FileError (Option String) :=
  match s.locate path with
  | .error .missing => .ok none
  | .error _ => .error (.read path)
  | .ok place =>
    match s.stored? place with
    | none => .ok none
    | some .directory => .error (.read path)
    | some (.file bytes) =>
      match Utf8.decode? bytes with
      | some text => .ok (some text)
      | none => .error (.read path)

/-- Makes a directory at a place, unless there is one. -/
def makeDirectory (s : FileStore) (place : Place) : Option FileStore :=
  match s.stored? place with
  | none => some (s.put place .directory)
  | some .directory => some s
  | some (.file _) => none

/-- Makes the directories along some pieces of a path, up to the first one that cannot be made, and
says whether all of them are there. -/
def makeAlong (s : FileStore) (place : Place) : List (List Char) → Bool × FileStore
  | [] => (true, s)
  | piece :: pieces =>
    match s.follow place piece with
    | .error _ => (false, s)
    | .ok place =>
      match s.makeDirectory place with
      | none => (false, s)
      | some s => makeAlong s place pieces

/-- Makes the directory at a path and all that lead to it, up to the first one that cannot be made,
and says whether the directory is there. -/
def makeDirectories (s : FileStore) (path : String) : Bool × FileStore :=
  s.makeAlong (start path).1 (start path).2

/-- Puts bytes at a path, unless a directory is there or the path leads nowhere. -/
def putBytes (s : FileStore) (path : String) (bytes : List UInt8) : Option FileStore :=
  match s.locate path with
  | .error _ => none
  | .ok place =>
    if s.stored? place = some .directory then none else some (s.put place (.file bytes))

/-- Writes a text to a path, and makes the directories that it needs. A file with this text is left
alone. -/
def write (s : FileStore) (path text : String) : Except FileError WriteOutcome × FileStore :=
  match s.read path with
  | .error e => (.error e, s)
  | .ok old? =>
    if old? = some text then (.ok .unchanged, s)
    else
      match FilePath.parent? path with
      | none => putText s
      | some dir =>
        match s.makeDirectories dir with
        | (true, s) => putText s
        | (false, s) => (.error (.create dir), s)
where
  /-- Puts the text at the path. -/
  putText (s : FileStore) : Except FileError WriteOutcome × FileStore :=
    match s.putBytes path (Utf8.encode text) with
    | some s => (.ok .written, s)
    | none => (.error (.write path), s)

/-- Writes files below a directory, up to the first one that cannot be written, and gives the paths
and what was done. -/
def writeAll (base : String) (s : FileStore) :
    GeneratedFiles → Except FileError (List (String × WriteOutcome)) × FileStore
  | [] => (.ok [], s)
  | f :: files =>
    let path := FilePath.join base f.path
    match s.write path f.text with
    | (.error e, s) => (.error e, s)
    | (.ok outcome, s) =>
      match writeAll base s files with
      | (.ok done, s) => (.ok ((path, outcome) :: done), s)
      | (.error e, s) => (.error e, s)

/-- The file that is at a path below a directory, as it stands before a declaration is added. -/
def provider (s : FileStore) (base : String) : Generator.Provider := fun path _ =>
  let full := FilePath.join base path
  match s.read full with
  | .error _ => .error (.read full)
  | .ok none => .ok .empty
  | .ok (some text) =>
    match Outline.parse text with
    | .ok o => .ok (.ofOutline o)
    | .error e => .error (.parse e)

/-- Reads settings from a file, where `document?` reads the document in its text. Directories are
relative to the one that the file lies in. -/
def settingsWith (document? : String → Option Toml.Table) (s : FileStore) (path : String) :
    Except SettingsError Settings :=
  match s.read path with
  | .ok (some text) =>
    (Settings.readWith document? text).map fun c =>
      { c with root := (FilePath.parent? path).getD "" }
  | _ => .error ⟨.unreadable path, none⟩

/-- The files below a directory, sorted by their paths relative to it, and their texts. Bytes that
are no text are shown as replacement characters. -/
def filesBelow (s : FileStore) (base : String) : List (String × String) :=
  let files := s.entries.filterMap fun e =>
    match e.2, stripPlace? (FilePath.parts base) e.1 with
    | .file bytes, some place =>
      some (String.ofList (joinWith ['/'] place), Utf8.decodeLossy bytes)
    | _, _ => none
  files.mergeSort fun a b => a.1 ≤ b.1
where
  /-- The place relative to a directory, for places below it. -/
  stripPlace? (dir place : Place) : Option Place :=
    if dir.isPrefixOf place then some (place.drop dir.length) else none

end FileStore

/-! ## Settings as programs read them

Programs need a reader of documents to run with, and take the one in `Toml`. -/

/-- Reads settings from their source, a TOML text. -/
def Settings.read (source : String) : Except SettingsError Settings :=
  readWith Toml.readDocument source

/-- Reads settings from a file with a TOML text. -/
def FileStore.settings (s : FileStore) (path : String) : Except SettingsError Settings :=
  s.settingsWith Toml.readDocument path

end PhpGraft

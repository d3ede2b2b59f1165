import PhpGraft.Decimal.Numeral

/-!
# Errors in settings

Settings that cannot be used have one fault. A fault in a value is shown with the place of the
value's key in the source, where the key is found there.
-/

namespace PhpGraft

/-- What is wrong with a namespace prefix. -/
inductive PrefixFault where
  /-- It starts with a backslash. -/
  | leadingBackslash
  /-- It does not end with a backslash. -/
  | noBackslash
  /-- Two backslashes follow each other, or a single one is all there is. -/
  | emptyName
  /-- A name in it starts with neither a letter nor an underscore. -/
  | badStart
  /-- A name in it holds a character that no name can hold. -/
  | badCharacter
  deriving DecidableEq, Repr

/-- Why a prefix is refused. -/
def PrefixFault.reason : PrefixFault → String
  | leadingBackslash => "prefix must not start with a backslash"
  | noBackslash => "prefix must end with a backslash"
  | emptyName => "prefix cannot contain empty segments"
  | badStart => "namespace segments must start with a letter or underscore"
  | badCharacter => "namespace segments must contain only letters, numbers and underscores"

/-- What is wrong with settings. -/
inductive SettingsFault where
  /-- The file cannot be read. -/
  | unreadable (path : String)
  /-- The source is no TOML, or it has a key or a value that is no setting. -/
  | malformed
  /-- The width of indentation is none of those that are allowed. -/
  | indentWidth (width : Nat)
  /-- A namespace prefix has the empty path as its directory. -/
  | emptyDirectory (namespacePrefix : String)
  /-- A namespace prefix is none. -/
  | invalidPrefix (namespacePrefix : String) (fault : PrefixFault)
  deriving DecidableEq, Repr

namespace SettingsFault

/-- What went wrong. -/
def message : SettingsFault → String
  | unreadable path => "failed to read '" ++ path ++ "'"
  | malformed => "failed to parse phpgen.toml"
  | indentWidth width => "indent must be one of 0 (tabs), 2, 4 or 8, got " ++ Decimal.natText width
  | emptyDirectory p => "directory for '" ++ p ++ "' cannot be empty"
  | invalidPrefix p _ => "invalid PSR-4 prefix '" ++ p ++ "'"

/-- The code of the kind of fault. -/
def code : SettingsFault → String
  | unreadable _ => "phpgen::config::io"
  | malformed => "phpgen::config::parse_error"
  | indentWidth _ | emptyDirectory _ => "phpgen::config::validation_error"
  | invalidPrefix _ _ => "phpgen::config::invalid_prefix"

/-- What can be done about the fault. -/
def help? : SettingsFault → Option String
  | unreadable _ => some "create a phpgen.toml next to composer.json"
  | invalidPrefix _ fault =>
    some (fault.reason ++ ". Prefixes look like \"App\\\\\" or \"Vendor\\\\Package\\\\\".")
  | _ => none

end SettingsFault

/-- A fault in settings and its place in the source: a number of bytes ahead of it and its length in
bytes. -/
structure SettingsError where
  /-- What is wrong. -/
  fault : SettingsFault
  /-- Where it is. -/
  span? : Option (Nat × Nat) := none
  deriving DecidableEq, Repr

end PhpGraft

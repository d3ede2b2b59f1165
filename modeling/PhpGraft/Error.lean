import PhpGraft.Syntax.ParseError

/-!
# Errors of the generator

Each error has a cause, and its message, its code and the help that goes with it follow from the
cause. An error in one item of a batch names the item and keeps the error that it wraps.
-/

namespace PhpGraft

/-- What is wrong with the text of a type. -/
inductive TypeFault where
  /-- It is no name. -/
  | notAName
  /-- It is a built-in type with a backslash at the front. -/
  | rootedBuiltin
  /-- It is a built-in type that cannot be nullable. -/
  | notNullable (builtin : String)
  deriving DecidableEq, Repr

/-- Why a type is refused. -/
def TypeFault.reason : TypeFault → String
  | notAName => "expected identifiers separated by '\\'"
  | rootedBuiltin => "built-in types cannot be namespaced"
  | notNullable builtin => builtin ++ " cannot be marked nullable"

/-- What is wrong with a value. -/
inductive ValueFault where
  /-- It is not of the form that was asked for. -/
  | expected (form : String)
  /-- It is no reference to a constant. -/
  | notAConstant
  /-- It is an infinity or no number. -/
  | notFinite
  /-- It is a number that no literal can stand for. -/
  | outOfRange
  deriving DecidableEq, Repr

/-- Why a value is refused. -/
def ValueFault.reason : ValueFault → String
  | expected form => "expected " ++ form
  | notAConstant => "not a valid constant reference"
  | notFinite => "floats must be finite"
  | outOfRange => "number is out of range"

/-- A kind of declaration that is looked for in a file. -/
inductive DeclarationKind where
  | classDecl | interfaceDecl | either
  deriving DecidableEq, Repr

/-- How a kind of declaration is called. -/
def DeclarationKind.text : DeclarationKind → String
  | classDecl => "class"
  | interfaceDecl => "interface"
  | either => "class or interface"

/-- Why a declaration cannot be generated. -/
inductive Error where
  /-- A type that is none. -/
  | invalidType (type : String) (fault : TypeFault)
  /-- A value that has no literal. -/
  | unsupportedValue (value : String) (fault : ValueFault)
  /-- A class that already has another parent. -/
  | inheritanceConflict (className existing requested : String)
  /-- A namespace that no directory belongs to. -/
  | resolution (scope : String)
  /-- Source text that cannot be read. -/
  | parse (e : ParseError)
  /-- A class or interface that the file does not have. -/
  | missingDeclaration (name : String)
  /-- A file without a declaration of the wanted kind. -/
  | noDeclaration (kind : DeclarationKind)
  /-- A file that cannot be read. -/
  | read (path : String)
  /-- An error in one item of a batch. -/
  | realization (identity : String) (cause : Error)
  deriving Repr

namespace Error

/-- What went wrong. -/
def message : Error → String
  | invalidType type fault => "invalid type '" ++ type ++ "': " ++ fault.reason
  | unsupportedValue value fault => "unsupported value " ++ value ++ ": " ++ fault.reason
  | inheritanceConflict c existing requested =>
    "class " ++ c ++ " already extends " ++ existing ++ ", cannot extend " ++ requested
  | resolution scope =>
    "cannot resolve a directory for namespace '" ++ scope ++ "': no PSR-4 prefix matches"
  | parse e => e.message
  | missingDeclaration name => "no class or interface named " ++ name ++ " in the file"
  | noDeclaration kind => "the file declares no " ++ kind.text
  | read path => "failed to read '" ++ path ++ "'"
  | realization identity _ => "failed to generate " ++ identity

/-- The code of the kind of error. -/
def code : Error → String
  | invalidType _ _ => "phpgen::invalid_type"
  | unsupportedValue _ _ => "phpgen::unsupported_value"
  | inheritanceConflict _ _ _ => "phpgen::inheritance_conflict"
  | resolution _ => "phpgen::resolution"
  | parse _ => "phpgen::parse_error"
  | missingDeclaration _ => "phpgen::missing_declaration"
  | noDeclaration _ => "phpgen::no_declaration"
  | read _ => "phpgen::io"
  | realization _ _ => "phpgen::realization"

/-- What can be done about the error. -/
def help? : Error → Option String
  | inheritanceConflict _ existing _ =>
    some ("remove the existing extends clause by hand, or keep " ++ existing ++ " as the parent")
  | resolution _ => some "add a matching prefix under [autoload.psr-4] in phpgen.toml"
  | _ => none

/-- The error inside all wrappings. -/
def rootCause : Error → Error
  | realization _ cause => cause.rootCause
  | e => e

end Error

end PhpGraft

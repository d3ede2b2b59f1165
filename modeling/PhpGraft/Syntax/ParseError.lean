import PhpGraft.Text.Blank

/-!
# Errors in source text

An error has a cause and the span of bytes that it is about. The message and the label of the span
follow from the cause.
-/

namespace PhpGraft

/-- Why source text is refused. -/
inductive ParseCause where
  /-- Text ahead of the open tag. -/
  | textBeforeOpenTag
  /-- Text behind the close tag. -/
  | textAfterCloseTag
  /-- A file that does not start with an open tag. -/
  | missingOpenTag
  /-- A comment without its end. -/
  | unterminatedComment
  /-- A doc comment without its end. -/
  | unterminatedDoc
  /-- Digits that are no integer. -/
  | invalidInteger
  /-- A string without its closing quote. -/
  | unterminatedString
  /-- A heredoc without its closing line. -/
  | unterminatedHeredoc
  /-- A heredoc without a label. -/
  | missingHeredocLabel
  /-- A closing delimiter in a body that nothing opens. -/
  | unmatchedInBody (closer : Char)
  /-- A close tag in a body. -/
  | closeTagInBody
  /-- An opening delimiter in a body that nothing closes. -/
  | unclosedInBody
  /-- A closing brace between statements. -/
  | strayBrace
  /-- A namespace followed by neither a semicolon nor a block. -/
  | namespaceWithoutEnd
  /-- A namespace block without its closing brace. -/
  | unclosedNamespace
  /-- A class body without its closing brace. -/
  | unclosedClass
  /-- A statement that the file ends in. -/
  | unexpectedEnd
  /-- A close tag inside a statement. -/
  | unexpectedCloseTag
  /-- A closing delimiter in a statement that nothing opens. -/
  | unexpectedCloser (closer : Char)
  deriving DecidableEq, Repr

namespace ParseCause

/-- What is wrong. -/
def message : ParseCause → String
  | textBeforeOpenTag => "inline HTML before '<?php' is not supported"
  | textAfterCloseTag => "inline HTML after '?>' is not supported"
  | missingOpenTag => "expected '<?php' open tag"
  | unterminatedComment => "unterminated comment"
  | unterminatedDoc => "unterminated doc comment"
  | invalidInteger => "invalid integer literal"
  | unterminatedString => "unterminated string"
  | unterminatedHeredoc => "unterminated heredoc"
  | missingHeredocLabel => "missing heredoc label"
  | unmatchedInBody closer => "unmatched '" ++ closer.toString ++ "'"
  | closeTagInBody => "'?>' is not allowed in a method body"
  | unclosedInBody => "unclosed delimiter in method body"
  | strayBrace => "unexpected '\x7d'"
  | namespaceWithoutEnd => "expected ';' or '\x7b' after namespace"
  | unclosedNamespace => "unclosed namespace block"
  | unclosedClass => "unclosed class body"
  | unexpectedEnd => "unexpected end of file"
  | unexpectedCloseTag => "unexpected '?>'"
  | unexpectedCloser closer => "unexpected '" ++ closer.toString ++ "'"

/-- What is said at the span. -/
def label : ParseCause → String
  | textBeforeOpenTag | textAfterCloseTag => "unexpected content"
  | missingOpenTag => "file starts here"
  | unterminatedComment => "comment starts here"
  | unterminatedDoc => "doc comment starts here"
  | invalidInteger | closeTagInBody | namespaceWithoutEnd => "here"
  | unterminatedString => "string starts here"
  | unterminatedHeredoc | missingHeredocLabel => "heredoc starts here"
  | unmatchedInBody _ | unexpectedCloser _ => "no matching opener"
  | unclosedInBody | unclosedNamespace | unclosedClass => "opened here"
  | strayBrace => "no matching '\x7b'"
  | unexpectedEnd => "statement starts here"
  | unexpectedCloseTag => "inside this block"

end ParseCause

/-- An error in source text. -/
structure ParseError where
  /-- Why the text is refused. -/
  cause : ParseCause
  /-- The byte at which the span starts. -/
  offset : Nat
  /-- The number of bytes in the span. -/
  length : Nat
  deriving DecidableEq, Repr

/-- What is wrong with the source. -/
def ParseError.message (e : ParseError) : String := e.cause.message

/-- The same error in a text that stands behind `bytes` bytes. -/
def ParseError.shift (e : ParseError) (bytes : Nat) : ParseError :=
  { e with offset := bytes + e.offset }

end PhpGraft

import PhpGraft.Text.CaseTables

/-!
# Capitals and small letters

The case of characters and the case mappings of Unicode. A mapping can turn one character into
several. The small form of a capital sigma depends on whether it ends a word.
-/

namespace PhpGraft.Text

/-- Whether a code point belongs to one of some runs. -/
def inRuns (runs : List CaseTables.Run) (c : Char) : Bool := runs.any (·.contains c.toNat)

/-- Whether a character has the Unicode property `Uppercase`. -/
def isUppercase (c : Char) : Bool := inRuns CaseTables.uppercase c

/-- Whether a character has the Unicode property `Lowercase`. -/
def isLowercase (c : Char) : Bool := inRuns CaseTables.lowercase c

/-- Whether a character is a capital, a small letter or in title case. -/
def isCased (c : Char) : Bool :=
  isUppercase c || isLowercase c || inRuns CaseTables.titlecase c

/-- Whether a character is passed over when the letters around a sigma are looked for. -/
def isCaseIgnorable (c : Char) : Bool := inRuns CaseTables.ignorable c

/-- The character that a table of single mappings gives. -/
def shifted (table : List CaseTables.Shift) (c : Char) : Char :=
  match table.find? (·.run.contains c.toNat) with
  | some s => Char.ofNat ((c.toNat : Int) + s.amount).toNat
  | none => c

/-- The small letters of one character. -/
def lowerChar (c : Char) : List Char :=
  if c = '\u0130' then ['i', '\u0307'] else [shifted CaseTables.toLower c]

/-- The capitals of one character. -/
def upperChar (c : Char) : List Char :=
  match CaseTables.toUpperSeveral.lookup c.toNat with
  | some codes => codes.map Char.ofNat
  | none => [shifted CaseTables.toUpper c]

/-- Whether the first character that is not passed over is cased. -/
def meetsCased (cs : List Char) : Bool :=
  match cs.dropWhile isCaseIgnorable with
  | [] => false
  | c :: _ => isCased c

/-- The small letters of a text that follows the characters `before`, the nearest one first. -/
def lowerAfter (before : List Char) : List Char → List Char
  | [] => []
  | c :: cs =>
    let small :=
      if c = 'Σ' then [if meetsCased before && !meetsCased cs then 'ς' else 'σ'] else lowerChar c
    small ++ lowerAfter (c :: before) cs

/-- A text in small letters. -/
def lower (cs : List Char) : List Char := lowerAfter [] cs

/-- A text in capitals. -/
def upper (cs : List Char) : List Char := cs.flatMap upperChar

end PhpGraft.Text

import PhpGraft.Text.Ascii

/-!
# Modifiers of declarations

The keywords ahead of a class or a member. A set of modifiers is a flag for each keyword; a
declaration without a visibility keeps none. The keywords of a set are written in one fixed order.
-/

namespace PhpGraft

/-- A keyword that modifies a declaration. -/
inductive Modifier where
  | visiblePublic | visibleProtected | visiblePrivate | isStatic | isAbstract | isFinal | isReadonly
  deriving DecidableEq, Repr

namespace Modifier

/-- The modifiers in the order of their bits. -/
def all : List Modifier :=
  [visiblePublic, visibleProtected, visiblePrivate, isStatic, isAbstract, isFinal, isReadonly]

/-- The modifiers in the order in which they are written. -/
def written : List Modifier :=
  [isAbstract, isFinal, visiblePublic, visibleProtected, visiblePrivate, isStatic, isReadonly]

/-- How a modifier is spelled. -/
def keyword : Modifier → String
  | visiblePublic => "public"
  | visibleProtected => "protected"
  | visiblePrivate => "private"
  | isStatic => "static"
  | isAbstract => "abstract"
  | isFinal => "final"
  | isReadonly => "readonly"

/-- The modifier that a word spells, in any case of its letters. -/
def ofKeyword? (word : String) : Option Modifier :=
  all.find? fun m => m.keyword == Text.lowerAscii word

/-- Whether a modifier is a visibility. -/
def isVisibility : Modifier → Bool
  | visiblePublic | visibleProtected | visiblePrivate => true
  | _ => false

end Modifier

/-- A set of modifiers. -/
structure Modifiers where
  /-- Whether `public` belongs to the set. -/
  isPublic : Bool := false
  /-- Whether `protected` belongs to the set. -/
  isProtected : Bool := false
  /-- Whether `private` belongs to the set. -/
  isPrivate : Bool := false
  /-- Whether `static` belongs to the set. -/
  isStatic : Bool := false
  /-- Whether `abstract` belongs to the set. -/
  isAbstract : Bool := false
  /-- Whether `final` belongs to the set. -/
  isFinal : Bool := false
  /-- Whether `readonly` belongs to the set. -/
  isReadonly : Bool := false
  deriving DecidableEq, Repr, Inhabited

namespace Modifiers

/-- The set without modifiers. -/
def none : Modifiers := {}

/-- The set of the modifiers that satisfy a test. -/
def ofTest (p : Modifier → Bool) : Modifiers :=
  ⟨p .visiblePublic, p .visibleProtected, p .visiblePrivate, p .isStatic, p .isAbstract, p .isFinal,
    p .isReadonly⟩

/-- Whether a modifier belongs to a set. -/
def has (ms : Modifiers) : Modifier → Bool
  | .visiblePublic => ms.isPublic
  | .visibleProtected => ms.isProtected
  | .visiblePrivate => ms.isPrivate
  | .isStatic => ms.isStatic
  | .isAbstract => ms.isAbstract
  | .isFinal => ms.isFinal
  | .isReadonly => ms.isReadonly

/-- The set of a single modifier. -/
def only (m : Modifier) : Modifiers := ofTest (· == m)

/-- The set of the modifiers in a list. -/
def ofList (l : List Modifier) : Modifiers := ofTest l.contains

/-- The modifiers that belong to either set. -/
def union (a b : Modifiers) : Modifiers := ofTest fun m => a.has m || b.has m

/-- The modifiers of the first set that do not belong to the second. -/
def diff (a b : Modifiers) : Modifiers := ofTest fun m => a.has m && !b.has m

/-- Whether every modifier of the second set belongs to the first. -/
def contains (a b : Modifiers) : Bool := Modifier.all.all fun m => !b.has m || a.has m

/-- The set with one more modifier. -/
def insert (ms : Modifiers) (m : Modifier) : Modifiers := ms.union (only m)

/-- The set with a modifier put in or taken out. -/
def set (ms : Modifiers) (m : Modifier) (on : Bool) : Modifiers :=
  if on then ms.union (only m) else ms.diff (only m)

/-- The visibilities of a set. -/
def visibility (ms : Modifiers) : Modifiers := ofTest fun m => m.isVisibility && ms.has m

/-- The set with its visibilities replaced by those of another one. -/
def withVisibility (ms new : Modifiers) : Modifiers :=
  ofTest fun m => if m.isVisibility then new.has m else ms.has m

/-- Whether a set has no modifiers. -/
def isEmpty (ms : Modifiers) : Bool := ms == none

/-- The keywords of a set in the order in which they are written. -/
def keywords (ms : Modifiers) : List String := (Modifier.written.filter ms.has).map Modifier.keyword

/-- The keywords of a set with a space between them. -/
def text (ms : Modifiers) : String := " ".intercalate ms.keywords

/-- The keywords of a set, each followed by a space. -/
def lead (ms : Modifiers) : String := String.join (ms.keywords.map (· ++ " "))

/-- The number whose bits are the flags of a set, `public` the lowest. -/
def bits (ms : Modifiers) : Nat :=
  Modifier.all.foldr (fun m n => 2 * n + if ms.has m then 1 else 0) 0

/-- The set whose flags are the seven lowest bits of a number. -/
def ofBits (n : Nat) : Modifiers :=
  ⟨n.testBit 0, n.testBit 1, n.testBit 2, n.testBit 3, n.testBit 4, n.testBit 5, n.testBit 6⟩

/-- The flags of a set written as a number give the set back. -/
theorem ofBits_bits (ms : Modifiers) : ofBits ms.bits = ms := by
  obtain ⟨a, b, c, d, e, f, g⟩ := ms
  revert a b c d e f g
  decide

/-- A modifier belongs to the union of two sets when it belongs to one of them. -/
theorem has_union (a b : Modifiers) (m : Modifier) : (a.union b).has m = (a.has m || b.has m) := by
  cases m <;> rfl

end Modifiers

end PhpGraft

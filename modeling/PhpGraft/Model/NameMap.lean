import PhpGraft.Model.Distinct
import PhpGraft.Model.Name

/-!
# Items kept by name

A name map holds items in the order in which they were added. Names that stand for the same item
have one key, and no two items of a map have the same key. Adding an item with a known key puts it
in the place of the old one.
-/

namespace PhpGraft

/-- Items that are told apart by a name. -/
class Keyed (α : Type) where
  /-- The name of an item. -/
  name : α → String
  /-- What the names that stand for the same item have in common. -/
  keyOf : String → String

namespace Keyed

/-- The key of an item. -/
def key {α : Type} [Keyed α] (a : α) : String := keyOf α (name a)

/-- A class name stands for itself in every spelling. -/
instance : Keyed String := ⟨id, Name.key⟩

end Keyed

/-- Items in order, no two of which have the same key. -/
structure NameMap (α : Type) [Keyed α] where
  /-- The items in order. -/
  items : List α
  /-- No two items have the same key. -/
  distinct : items.Pairwise fun a b => Keyed.key a ≠ Keyed.key b

namespace NameMap

variable {α : Type} [Keyed α]

/-- A map without items. -/
def empty : NameMap α := ⟨[], .nil⟩

instance : Inhabited (NameMap α) := ⟨empty⟩

/-- Adds an item, in the place of the one with its key if there is one. -/
def add (m : NameMap α) (x : α) : NameMap α :=
  ⟨upsert (fun a => Keyed.key a == Keyed.key x) x m.items, pairwise_upsert Keyed.key x m.distinct⟩

/-- Adds items one after another. -/
def addAll (m : NameMap α) (l : List α) : NameMap α := l.foldl add m

/-- The map of some items; of several with one key the last one is kept. -/
def ofList (l : List α) : NameMap α := empty.addAll l

/-- Whether an item has the key of a name. -/
def hasKey (name : String) (a : α) : Bool := Keyed.key a == Keyed.keyOf α name

/-- The item with the key of a name. -/
def get? (m : NameMap α) (name : String) : Option α := m.items.find? (hasKey name)

/-- Whether there is an item with the key of a name. -/
def contains (m : NameMap α) (name : String) : Bool := m.items.any (hasKey name)

/-- Removes the item with the key of a name, if there is one. -/
def remove (m : NameMap α) (name : String) : NameMap α :=
  ⟨m.items.filter fun a => !hasKey name a, m.distinct.sublist List.filter_sublist⟩

/-- Sorts the items; items that the comparison does not tell apart keep their order. -/
def sortBy (m : NameMap α) (le : α → α → Bool) : NameMap α :=
  ⟨m.items.mergeSort le,
    (List.Perm.pairwise_iff (fun {_ _} h => Ne.symm h) (List.mergeSort_perm m.items le)).2
      m.distinct⟩

/-- Changes the items without changing their keys. -/
def map (m : NameMap α) (f : α → α) (h : ∀ a, Keyed.key (f a) = Keyed.key a) : NameMap α :=
  ⟨m.items.map f, List.pairwise_map.2 (m.distinct.imp fun hne => by rwa [h, h])⟩

/-- The names of the items in order, as they were given. -/
def names (m : NameMap α) : List String := m.items.map Keyed.name

/-- The number of items. -/
def size (m : NameMap α) : Nat := m.items.length

/-- Whether there are no items. -/
def isEmpty (m : NameMap α) : Bool := m.items.isEmpty

/-- Whether two maps hold the same items under the same keys, in whatever order. -/
def same (eq : α → α → Bool) (m n : NameMap α) : Bool :=
  m.size == n.size &&
    m.items.all fun a =>
      match n.items.find? (fun b => Keyed.key b == Keyed.key a) with
      | some b => eq a b
      | none => false

end NameMap

end PhpGraft

import PhpGraft.Declaration.Basic
import PhpGraft.Model.Distinct

/-!
# Collections of declarations

A collection keeps declarations in the order in which they were added, each under the identity that
it had then. Adding a declaration under a known identity puts it in the place of the old one. A
declaration that is changed later stays under its identity until the collection is built anew.
-/

namespace PhpGraft

/-- A declaration and the identity under which it is kept. -/
structure Collected where
  /-- The identity. -/
  key : Identity
  /-- The declaration. -/
  item : Declaration

/-- Declarations in order, no two of which are kept under the same identity. -/
structure Collection where
  /-- The declarations with their identities, in order. -/
  entries : List Collected
  /-- No two declarations are kept under the same identity. -/
  distinct : entries.Pairwise fun a b => a.key ≠ b.key

namespace Collection

/-- A collection without declarations. -/
def empty : Collection := ⟨[], .nil⟩

instance : Inhabited Collection := ⟨empty⟩

/-- Adds a declaration, in the place of the one that is kept under its identity. -/
def add (c : Collection) (d : Declaration) : Collection :=
  ⟨upsert (fun e => e.key == d.identity) ⟨d.identity, d⟩ c.entries,
    pairwise_upsert Collected.key ⟨d.identity, d⟩ c.distinct⟩

/-- Adds declarations one after another. -/
def addAll (c : Collection) (l : List Declaration) : Collection := l.foldl add c

/-- The collection of some declarations; of several with one identity the last one is kept. -/
def ofList (l : List Declaration) : Collection := empty.addAll l

/-- The declarations in order. -/
def items (c : Collection) : List Declaration := c.entries.map Collected.item

/-- The identities under which the declarations are kept, in order. -/
def keys (c : Collection) : List Identity := c.entries.map Collected.key

/-- The declaration that is kept under an identity. -/
def get? (c : Collection) (key : Identity) : Option Declaration :=
  (c.entries.find? fun e => e.key == key).map Collected.item

/-- Whether a declaration is kept under an identity. -/
def contains (c : Collection) (key : Identity) : Bool := (c.get? key).isSome

/-- Keeps the declarations that satisfy a test, each under its identity. -/
def retain (c : Collection) (p : Declaration → Bool) : Collection :=
  ⟨c.entries.filter fun e => p e.item, c.distinct.sublist List.filter_sublist⟩

/-- Removes the declaration that is kept under an identity. -/
def remove (c : Collection) (key : Identity) : Collection :=
  ⟨c.entries.filter fun e => e.key != key, c.distinct.sublist List.filter_sublist⟩

/-- Changes declarations without changing the identities under which they are kept. -/
def mapEntries (c : Collection) (f : Collected → Declaration) : Collection :=
  ⟨c.entries.map fun e => ⟨e.key, f e⟩, List.pairwise_map.2 c.distinct⟩

/-- Changes the declaration that is kept under an identity. -/
def change (c : Collection) (key : Identity) (f : Declaration → Declaration) : Collection :=
  c.mapEntries fun e => if e.key = key then f e.item else e.item

/-- Sorts the declarations by the identities under which they are kept. -/
def sort (c : Collection) : Collection :=
  ⟨c.entries.mergeSort fun a b => a.key.le b.key,
    (List.Perm.pairwise_iff (fun {_ _} h => Ne.symm h) (List.mergeSort_perm _ _)).2 c.distinct⟩

/-- A new collection of the declarations that satisfy a test, each under the identity that it has
now. -/
def filter (c : Collection) (p : Declaration → Bool) : Collection := ofList (c.items.filter p)

/-- A new collection of the declarations, each under the identity that it has now. -/
def rebuild (c : Collection) : Collection := ofList c.items

/-- The number of declarations. -/
def size (c : Collection) : Nat := c.entries.length

/-- Whether there are no declarations. -/
def isEmpty (c : Collection) : Bool := c.entries.isEmpty

end Collection

end PhpGraft

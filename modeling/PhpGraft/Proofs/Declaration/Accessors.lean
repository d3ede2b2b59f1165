import Mathlib.Algebra.Ring.Nat
import Mathlib.Data.List.Forall2
import PhpGraft.Declaration.Accessors
import PhpGraft.Proofs.Model.NameMap
import PhpGraft.Text.Naming

/-!
# Members derived from properties

Getters and constants for properties are made in one way: of what is made for the properties of a class, the
class is given what it lacks by name (`ClassSpec.GivesLacked`). Its own members stay, and afterwards it lacks
nothing, so that a second call does nothing (`GivesLacked.derive_derive`). What a class lacks is found before any
of it is added. Two properties whose members have names with one key are therefore both counted, but the second
member takes the place of the first one. The number of new members is right, and all of them are there, exactly
when this does not happen (`GivesLacked.derives`).
-/

namespace PhpGraft

/-! ## One class -/

namespace ClassSpec

variable {α : Type} [Keyed α] {members : ClassSpec → NameMap α} {made : ClassSpec → List α}
  {f : ClassSpec → ClassSpec × Nat} {a : ClassSpec}

/-- Of what is made for a class the items for which it has no member of their name. -/
def lacked (members : ClassSpec → NameMap α) (made : ClassSpec → List α) (a : ClassSpec) : List α :=
  (made a).filter fun x => !(members a).contains (Keyed.name x)

/-- A function that gives a class what it lacks of what is made for it, and counts that. -/
structure GivesLacked (members : ClassSpec → NameMap α) (made : ClassSpec → List α)
    (f : ClassSpec → ClassSpec × Nat) : Prop where
  /-- What the class lacks is added to its members. -/
  members_eq : ∀ a, members (f a).1 = (members a).addAll (lacked members made a)
  /-- The number is that of the items that it lacks. -/
  count_eq : ∀ a, (f a).2 = (lacked members made a).length
  /-- What is made for the class stays the same. -/
  made_eq : ∀ a, made (f a).1 = made a
  /-- A class that lacks nothing stays as it is. -/
  idle : ∀ a, lacked members made a = [] → (f a).1 = a

/-- The getters of the properties of a class. -/
def getters (typed : Bool) (nameOf : String → String) (a : ClassSpec) : List MethodSpec :=
  a.properties.items.map fun p => p.getter (nameOf p.name) typed

/-- The constants for the properties of a class. -/
def propertyConstants (nameOf : String → String) (valueOf : String → ValueSpec) (modifiers : Modifiers)
    (a : ClassSpec) : List ConstSpec :=
  a.properties.items.map fun p => { name := nameOf p.name, value := valueOf p.name, modifiers }

/-- Getters are given to a class where they are lacking. -/
theorem givesLacked_addGetters (typed : Bool) (nameOf : String → String) :
    GivesLacked (fun a => a.methods) (getters typed nameOf) (addGetters typed nameOf) where
  members_eq _ := rfl
  count_eq _ := rfl
  made_eq _ := rfl
  idle a h := congrArg (fun new => ({ a with methods := a.methods.addAll new } : ClassSpec)) h

/-- Constants for properties are given to a class where they are lacking. -/
theorem givesLacked_addPropertyConstants (nameOf : String → String) (valueOf : String → ValueSpec)
    (modifiers : Modifiers) :
    GivesLacked (fun a => a.constants) (propertyConstants nameOf valueOf modifiers)
      (addPropertyConstants nameOf valueOf modifiers) where
  members_eq _ := rfl
  count_eq _ := rfl
  made_eq _ := rfl
  idle a h := congrArg (fun new => ({ a with constants := a.constants.addAll new } : ClassSpec)) h

/-- A class has no member of the name of what it lacks. -/
theorem contains_of_mem_lacked : ∀ x ∈ lacked members made a, (members a).contains (Keyed.name x) = false :=
  fun _ hx => by simpa using (List.mem_filter.1 hx).2

namespace GivesLacked

variable (hf : GivesLacked members made f)

include hf

/-- What a class lacks is put behind its members, as it stands in a map of its own. -/
theorem items_eq (a : ClassSpec) : (members (f a).1).items =
    (members a).items ++ (NameMap.ofList (lacked members made a) : NameMap α).items := by
  rw [hf.members_eq, NameMap.items_addAll_of_new contains_of_mem_lacked]

/-- A class that was given what it lacked has a member of every name for which one is made. -/
theorem contains_of_made (a : ClassSpec) :
    ∀ x ∈ made a, (members (f a).1).contains (Keyed.name x) = true := by
  intro x hx
  rw [hf.members_eq, NameMap.contains_addAll_iff]
  by_cases hknown : (members a).contains (Keyed.name x) = true
  · exact .inl hknown
  · refine .inr (List.mem_map_of_mem (f := Keyed.key) (List.mem_filter.2 ⟨hx, ?_⟩))
    simpa using hknown

/-- A class that was given what it lacked lacks nothing. -/
theorem lacked_eq_nil (a : ClassSpec) : lacked members made (f a).1 = [] := by
  rw [lacked, List.filter_eq_nil_iff, hf.made_eq]
  intro x hx
  simp [hf.contains_of_made a x hx]

/-- Giving a class what it lacks for a second time does nothing. -/
theorem again (a : ClassSpec) : f (f a).1 = ((f a).1, 0) := by
  have hnil := hf.lacked_eq_nil a
  exact Prod.ext (hf.idle _ hnil) (by rw [hf.count_eq, hnil]; rfl)

/-- The growth of the members of a class. -/
theorem growth_eq (a : ClassSpec) : (members (f a).1).size - (members a).size =
    (NameMap.ofList (lacked members made a) : NameMap α).size := by
  rw [NameMap.size, hf.items_eq, List.length_append, NameMap.size, NameMap.size]
  omega

/-- The number of what a class lacks is not less than the growth of its members. -/
theorem growth_le (a : ClassSpec) : (members (f a).1).size - (members a).size ≤ (f a).2 := by
  rw [hf.growth_eq, hf.count_eq]
  exact NameMap.size_ofList_le _

/-- The number is the growth exactly when the items that a class lacks have different keys. -/
theorem count_eq_growth_iff (a : ClassSpec) : (f a).2 = (members (f a).1).size - (members a).size ↔
    (lacked members made a).Pairwise fun x y => Keyed.key x ≠ Keyed.key y := by
  rw [hf.growth_eq, hf.count_eq, eq_comm, NameMap.size_ofList_eq_iff]

/-- All items that a class lacks are there afterwards exactly when they have different keys. -/
theorem items_eq_append_iff (a : ClassSpec) :
    (members (f a).1).items = (members a).items ++ lacked members made a ↔
      (lacked members made a).Pairwise fun x y => Keyed.key x ≠ Keyed.key y := by
  rw [hf.items_eq, List.append_cancel_left_eq]
  constructor
  · intro h
    rw [← NameMap.size_ofList_eq_iff, NameMap.size, h]
  · exact NameMap.items_ofList

end GivesLacked

end ClassSpec

/-! ## All classes of a collection -/

namespace Collection

open ClassSpec

variable {α : Type} [Keyed α] {members : ClassSpec → NameMap α} {made : ClassSpec → List α}
  {f : ClassSpec → ClassSpec × Nat} {skip : ClassSpec → Bool}

/-- The class that a declaration is. -/
def class? : Declaration → Option ClassSpec
  | .ofClass a => some a
  | .ofInterface _ => none

/-- The classes of a collection, in order. -/
def classes (c : Collection) : List ClassSpec := c.items.filterMap class?

/-- How many members the classes of a collection have in another one that they do not have here. -/
def growth (members : ClassSpec → NameMap α) (c c' : Collection) : Nat :=
  (List.zipWith (fun a b => (members b).size - (members a).size) c.classes c'.classes).sum

/-- The classes that are not skipped lack no two items whose names have the same key. -/
def NoClash (members : ClassSpec → NameMap α) (made : ClassSpec → List α) (skip : ClassSpec → Bool)
    (c : Collection) : Prop :=
  ∀ a ∈ c.classes, skip a = false → (lacked members made a).Pairwise fun x y => Keyed.key x ≠ Keyed.key y

/-- What a call that derives members of properties makes of a collection, and the number that it gives. -/
structure Derives (members : ClassSpec → NameMap α) (made : ClassSpec → List α) (skip : ClassSpec → Bool)
    (c : Collection) (r : Collection × Nat) : Prop where
  /-- Each class keeps its members, at the front, and one that is skipped stays as it is. -/
  kept : List.Forall₂ (fun a b => (members a).items <+: (members b).items ∧ (skip a = true → b = a))
    c.classes r.1.classes
  /-- A class that is not skipped then has a member of every name for which one is made. -/
  complete : List.Forall₂ (fun a b => skip a = false →
    ∀ x ∈ made a, (members b).contains (Keyed.name x) = true) c.classes r.1.classes
  /-- The number is the growth of all classes together exactly when no two new members clash. -/
  counted_iff : r.2 = c.growth members r.1 ↔ c.NoClash members made skip
  /-- Just then all new members are there, and none has taken the place of another one. -/
  placed_iff : List.Forall₂ (fun a b => skip a = false →
    (members b).items = (members a).items ++ lacked members made a) c.classes r.1.classes ↔
      c.NoClash members made skip

/-- The classes after a call are those before, except for what those that are not skipped are given. -/
theorem classes_derive (c : Collection) : (c.derive skip f).1.classes =
    c.classes.map fun a => if skip a then a else (f a).1 := by
  have hclass (d : Declaration) : class? (deriveIn skip f d).1 =
      (class? d).map fun a => if skip a then a else (f a).1 := by
    cases d with
    | ofInterface i => rfl
    | ofClass a =>
      rw [deriveIn]
      show _ = some (if skip a = true then a else (f a).1)
      cases skip a <;> rfl
  have hitems : (c.derive skip f).1.items = c.items.map fun d => (deriveIn skip f d).1 := by
    show List.map _ (List.map _ c.entries) = List.map _ (List.map _ c.entries)
    rw [List.map_map, List.map_map]
    rfl
  rw [classes, classes, hitems, List.filterMap_map, List.map_filterMap]
  exact congrArg (List.filterMap · _) (funext hclass)

/-- The number of a call is the sum over the classes that are not skipped. -/
theorem count_derive (c : Collection) : (c.derive skip f).2 =
    (c.classes.map fun a => if skip a then 0 else (f a).2).sum := by
  suffices hall : ∀ (entries : List Collected) (n : Nat),
      entries.foldl (fun n e => n + (deriveIn skip f e.item).2) n =
        n + (((entries.map Collected.item).filterMap class?).map fun a => if skip a then 0 else (f a).2).sum from
    (hall c.entries 0).trans (Nat.zero_add _)
  intro entries
  induction entries with
  | nil => exact fun n => rfl
  | cons e entries ih =>
    intro n
    rw [List.foldl_cons, ih, List.map_cons, List.filterMap_cons, Nat.add_assoc]
    refine congrArg (n + ·) ?_
    cases e.item with
    | ofInterface i => exact Nat.zero_add _
    | ofClass a =>
      rw [deriveIn]
      show _ = (List.map _ (a :: _)).sum
      rw [List.map_cons, List.sum_cons]
      cases skip a <;> rfl

/-- A call that makes nothing in any declaration leaves the collection as it is. -/
theorem derive_eq_self {c : Collection} (h : ∀ e ∈ c.entries, deriveIn skip f e.item = (e.item, 0)) :
    c.derive skip f = (c, 0) := by
  obtain ⟨entries, distinct⟩ := c
  have hentries : entries.map (fun e => Collected.mk e.key (deriveIn skip f e.item).1) = entries := by
    calc entries.map (fun e => Collected.mk e.key (deriveIn skip f e.item).1)
        = entries.map id := List.map_congr_left fun e he => by rw [h e he]; rfl
      _ = entries := List.map_id entries
  have hcount : entries.foldl (fun n e => n + (deriveIn skip f e.item).2) 0 = 0 := by
    refine List.foldlRecOn entries _ (motive := (· = 0)) rfl fun n hn e he => ?_
    rw [hn, h e he]
    rfl
  refine Prod.ext ?_ hcount
  show Collection.mk (entries.map fun e => ⟨e.key, (deriveIn skip f e.item).1⟩) _ = ⟨entries, distinct⟩
  simp only [hentries]

/-- Sums of numbers, none of which is less than the other one at its place, are equal exactly when the numbers
are. -/
theorem sum_map_eq_iff {β : Type} {l : List β} {g h : β → Nat} (hle : ∀ a ∈ l, g a ≤ h a) :
    (l.map h).sum = (l.map g).sum ↔ ∀ a ∈ l, h a = g a := by
  suffices hall : (l.map g).sum ≤ (l.map h).sum ∧ ((l.map h).sum = (l.map g).sum ↔ ∀ a ∈ l, h a = g a) from hall.2
  induction l with
  | nil => simp
  | cons a l ih =>
    obtain ⟨ha, hl⟩ := List.forall_mem_cons.1 hle
    obtain ⟨hsum, hiff⟩ := ih hl
    rw [List.map_cons, List.map_cons, List.sum_cons, List.sum_cons, List.forall_mem_cons, ← hiff]
    omega

end Collection

namespace ClassSpec.GivesLacked

open Collection

variable {α : Type} [Keyed α] {members : ClassSpec → NameMap α} {made : ClassSpec → List α}
  {f : ClassSpec → ClassSpec × Nat} (hf : GivesLacked members made f)

include hf

/-- What a call makes of a collection when it gives the classes what they lack. -/
theorem derives (skip : ClassSpec → Bool) (c : Collection) : Derives members made skip c (c.derive skip f) := by
  have hforall {R : ClassSpec → ClassSpec → Prop} : List.Forall₂ R c.classes (c.derive skip f).1.classes ↔
      ∀ a ∈ c.classes, R a (if skip a then a else (f a).1) := by
    rw [classes_derive, List.forall₂_map_right_iff, List.forall₂_same]
  constructor
  case kept =>
    rw [hforall]
    intro a _
    cases skip a with
    | true => exact ⟨List.prefix_refl _, fun _ => rfl⟩
    | false => exact ⟨⟨_, (hf.items_eq a).symm⟩, nofun⟩
  case complete =>
    rw [hforall]
    intro a _ hskip
    rw [hskip]
    exact hf.contains_of_made a
  case placed_iff =>
    rw [hforall]
    refine forall₂_congr fun a _ => forall_congr' fun hskip => ?_
    rw [hskip]
    exact hf.items_eq_append_iff a
  case counted_iff =>
    have hgrowth : c.growth members (c.derive skip f).1 =
        (c.classes.map fun a => (members (if skip a then a else (f a).1)).size - (members a).size).sum := by
      rw [growth, classes_derive, List.zipWith_map_right, List.zipWith_self]
    rw [hgrowth, count_derive, sum_map_eq_iff]
    · refine forall₂_congr fun a _ => ?_
      cases skip a with
      | true => simp
      | false => simpa using hf.count_eq_growth_iff a
    · intro a _
      cases skip a with
      | true => simp
      | false => exact hf.growth_le a

/-- A second call does nothing. -/
theorem derive_derive (skip : ClassSpec → Bool) (c : Collection) :
    (c.derive skip f).1.derive skip f = ((c.derive skip f).1, 0) := by
  -- a class that the first call skipped is skipped again, and any other one lacks nothing
  have hagain (d : Declaration) : deriveIn skip f (deriveIn skip f d).1 = ((deriveIn skip f d).1, 0) := by
    cases d with
    | ofInterface i => rfl
    | ofClass a =>
      cases hskip : skip a with
      | true => simp only [deriveIn, hskip, if_true]
      | false =>
        simp only [deriveIn, hskip, Bool.false_eq_true, if_false, hf.again a]
        cases skip (f a).1 <;> rfl
  refine derive_eq_self fun e he => ?_
  obtain ⟨e, -, rfl⟩ := List.mem_map.1 he
  exact hagain e.item

end ClassSpec.GivesLacked

/-! ## Getters and constants -/

namespace Collection

open ClassSpec

/-- Derived getters and constants. Every class keeps its members. A class that is not skipped then has a method
for each property under the name of its getter, or a constant under its name, and a second call gives zero and
changes nothing. The number is the growth of all classes together, and every new member is there, exactly when in
no such class two properties lack members whose names have the same key. -/
theorem derived_counted_iff (c : Collection) (typed : Bool) (nameOf : String → String)
    (valueOf : String → ValueSpec) (skip : ClassSpec → Bool) (modifiers : Modifiers) :
    (Derives (fun a => a.methods) (getters typed nameOf) skip c (c.addGetters typed nameOf skip) ∧
      (c.addGetters typed nameOf skip).1.addGetters typed nameOf skip =
        ((c.addGetters typed nameOf skip).1, 0)) ∧
    (Derives (fun a => a.constants) (propertyConstants nameOf valueOf modifiers) skip c
        (c.addPropertyConstants nameOf valueOf skip modifiers) ∧
      (c.addPropertyConstants nameOf valueOf skip modifiers).1.addPropertyConstants nameOf valueOf skip modifiers =
        ((c.addPropertyConstants nameOf valueOf skip modifiers).1, 0)) := by
  have hgetters := givesLacked_addGetters typed nameOf
  have hconstants := givesLacked_addPropertyConstants nameOf valueOf modifiers
  exact ⟨⟨hgetters.derives skip c, hgetters.derive_derive skip c⟩,
    ⟨hconstants.derives skip c, hconstants.derive_derive skip c⟩⟩

/-- A class with properties of some names. -/
def withProperties (names : List String) : Collection :=
  .ofList [.ofClass { ClassSpec.new "User" with properties := .ofList (names.map fun name => { name }) }]

/-- Properties whose getters have different names both get theirs. -/
theorem derived_counted_apart :
    (withProperties ["first_name", "age"]).NoClash (fun a => a.methods) (getters true Naming.getter) (fun _ => false) ∧
      ((withProperties ["first_name", "age"]).addGetters true Naming.getter fun _ => false).2 =
        (withProperties ["first_name", "age"]).growth (fun a => a.methods)
          ((withProperties ["first_name", "age"]).addGetters true Naming.getter fun _ => false).1 := by
  have hclash : (withProperties ["first_name", "age"]).NoClash (fun a => a.methods) (getters true Naming.getter)
      fun _ => false := by
    unfold NoClash
    decide +kernel
  refine ⟨hclash, ?_⟩
  exact (derived_counted_iff (withProperties ["first_name", "age"]) true Naming.getter (fun _ => default)
    (fun _ => false) .none).1.1.counted_iff.2 hclash

/-- Of two properties whose getters have one name both are counted, and only the second one gets its getter. -/
theorem derived_miscounted :
    ((withProperties ["first_name", "firstName"]).addGetters true Naming.getter fun _ => false).2 = 2 ∧
      (withProperties ["first_name", "firstName"]).growth (fun a => a.methods)
        ((withProperties ["first_name", "firstName"]).addGetters true Naming.getter fun _ => false).1 = 1 ∧
      ((withProperties ["first_name", "firstName"]).addGetters true Naming.getter fun _ => false).1.classes.map
        (fun a => a.methods.items.map fun m => (m.name, m.body?)) =
          [[("getFirstName", some "return $this->firstName;")]] := by
  refine ⟨?_, ?_, ?_⟩ <;> decide +kernel

end Collection

end PhpGraft

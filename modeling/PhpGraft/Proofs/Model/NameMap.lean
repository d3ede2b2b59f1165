import Mathlib.Data.List.Basic
import Mathlib.Data.List.Induction
import PhpGraft.Model.NameMap

/-!
# Adding to a name map

Items with new keys go to the end of a name map, as they stand in a map of their own: adding them does not touch
the items that were there (`items_addAll_of_new`). The map of some items holds the last one of each key, where
the first one was (`items_ofList_eq`). It has as many items exactly when their keys are different
(`size_ofList_eq_iff`), and then it holds just these (`items_ofList`).
-/

namespace PhpGraft

/-- An item with the key of none of the items at the front is put in behind them. -/
theorem upsert_append {α : Type} {p : α → Bool} {x : α} {as bs : List α}
    (h : ∀ a ∈ as, p a = false) : upsert p x (as ++ bs) = as ++ upsert p x bs := by
  induction as with
  | nil => rfl
  | cons a as ih =>
    rw [List.forall_mem_cons] at h
    rw [List.cons_append, upsert, h.1, if_neg Bool.false_ne_true, ih h.2, List.cons_append]

/-- What holds of an item whenever it holds of one in its place holds of all items after an item was
put in, if it held of all of them and holds of the item. -/
theorem forall_mem_upsert {α : Type} {p : α → Bool} {x : α} {Q : α → Prop} {l : List α}
    (h : ∀ a, p a = true → (Q a ↔ Q x)) :
    (∀ y ∈ upsert p x l, Q y) ↔ (∀ y ∈ l, Q y) ∧ Q x := by
  induction l with
  | nil => simp [upsert]
  | cons a as ih =>
    unfold upsert
    split
    · next hp =>
      rw [List.forall_mem_cons, List.forall_mem_cons, h a hp]
      exact ⟨fun h => ⟨h, h.1⟩, fun h => ⟨h.2, h.1.2⟩⟩
    · rw [List.forall_mem_cons, List.forall_mem_cons, ih, and_assoc]

section Keys

variable {α κ : Type} [BEq κ] [LawfulBEq κ] {key : α → κ} {x : α} {l : List α}

/-- A new member stays at the end when those that came before are left out. -/
theorem eraseDups_append_singleton (ks : List κ) (k : κ) :
    (ks ++ [k]).eraseDups = if k ∈ ks then ks.eraseDups else ks.eraseDups ++ [k] := by
  rw [List.eraseDups_append, List.removeAll, List.filter_cons, List.filter_nil, List.elem_eq_mem]
  by_cases h : k ∈ ks
  · rw [decide_eq_true h, if_pos h]
    exact List.append_nil _
  · rw [decide_eq_false h, if_neg h]
    rfl

/-- The key of an item that is put in comes last, if it is a new one. -/
theorem map_upsert : (upsert (fun a => key a == key x) x l).map key =
    if key x ∈ l.map key then l.map key else l.map key ++ [key x] := by
  induction l with
  | nil => rfl
  | cons a as ih =>
    unfold upsert
    by_cases ha : key a = key x
    · simp [ha]
    · have hmem : key x ∈ (a :: as).map key ↔ key x ∈ as.map key := by simp [Ne.symm ha]
      rw [if_neg (by simpa using ha), List.map_cons, ih]
      simp only [hmem]
      split <;> rfl

/-- An item that was put in is found by its key. -/
theorem find?_upsert {k : κ} : (upsert (fun a => key a == key x) x l).find? (key · == k) =
    if key x == k then some x else l.find? (key · == k) := by
  induction l with
  | nil =>
    rw [upsert, List.find?_cons]
    cases key x == k <;> rfl
  | cons a as ih =>
    unfold upsert
    by_cases ha : key a = key x
    · rw [if_pos (beq_iff_eq.2 ha), List.find?_cons, List.find?_cons, ha]
      cases key x == k <;> rfl
    · rw [if_neg (by simpa using ha), List.find?_cons, List.find?_cons, ih]
      by_cases hk : key a = k
      · have hx : (key x == k) = false := beq_false_of_ne fun h => ha (hk.trans h.symm)
        rw [beq_iff_eq.2 hk, hx]
        rfl
      · rw [beq_false_of_ne hk]

/-- A list of items with different keys can be looked up key by key. -/
theorem filterMap_find? (h : l.Pairwise fun a b => key a ≠ key b) :
    (l.map key).filterMap (fun k => l.find? (key · == k)) = l := by
  induction l with
  | nil => rfl
  | cons a as ih =>
    obtain ⟨ha, has⟩ := List.pairwise_cons.1 h
    have hrest : (as.map key).filterMap (fun k => (a :: as).find? (key · == k)) =
        (as.map key).filterMap fun k => as.find? (key · == k) := by
      refine List.filterMap_congr fun k hk => ?_
      obtain ⟨b, hb, rfl⟩ := List.mem_map.1 hk
      rw [List.find?_cons, beq_false_of_ne (ha b hb)]
    rw [List.map_cons, List.filterMap_cons, List.find?_cons, beq_self_eq_true, hrest, ih has]

end Keys

namespace NameMap

variable {α : Type} [Keyed α] {m n : NameMap α} {x : α} {l : List α}

/-- The items after one was added. -/
theorem items_add (m : NameMap α) (x : α) :
    (m.add x).items = upsert (fun a => Keyed.key a == Keyed.key x) x m.items := rfl

/-- A further item is added behind the others. -/
theorem addAll_concat (m : NameMap α) (l : List α) (x : α) : m.addAll (l ++ [x]) = (m.addAll l).add x :=
  List.foldl_append

/-- The map of some items with a further one is their map, to which the further one is added. -/
theorem ofList_concat (l : List α) (x : α) : (ofList (l ++ [x]) : NameMap α) = (ofList l).add x :=
  addAll_concat empty l x

/-- Items with other keys are added behind those that are there, as in a map of their own. -/
theorem items_addAll_of_new (h : ∀ x ∈ l, m.contains (Keyed.name x) = false) :
    (m.addAll l).items = m.items ++ (ofList l : NameMap α).items := by
  induction l using List.reverseRec with
  | nil => exact (List.append_nil _).symm
  | append_singleton l x ih =>
    have hx : ∀ a ∈ m.items, hasKey (Keyed.name x) a = false := fun a ha =>
      Bool.eq_false_iff.2 (List.any_eq_false.1 (h x (by simp)) a ha)
    calc (m.addAll (l ++ [x])).items
        = upsert (hasKey (Keyed.name x)) x (m.addAll l).items := by rw [addAll_concat]; rfl
      _ = upsert (hasKey (Keyed.name x)) x (m.items ++ (ofList l : NameMap α).items) := by
          rw [ih fun y hy => h y (List.mem_append_left _ hy)]
      _ = m.items ++ upsert (hasKey (Keyed.name x)) x (ofList l : NameMap α).items := upsert_append hx
      _ = m.items ++ (ofList (l ++ [x]) : NameMap α).items := by rw [ofList_concat]; rfl

/-- Items with other keys are added behind those that are there. -/
theorem items_prefix_addAll (h : ∀ x ∈ l, m.contains (Keyed.name x) = false) :
    m.items <+: (m.addAll l).items := by
  rw [items_addAll_of_new h]
  exact List.prefix_append _ _

/-- A map has an item for a name when it has the key of the name. -/
theorem contains_iff (m : NameMap α) (name : String) :
    m.contains name = true ↔ Keyed.keyOf α name ∈ m.items.map Keyed.key := by
  simp only [contains, hasKey, List.any_eq_true, beq_iff_eq, List.mem_map]

/-- A map has a key after some items were added when it had it before or one of the items has it. -/
theorem contains_addAll_iff (m : NameMap α) (l : List α) (name : String) :
    (m.addAll l).contains name = true ↔ m.contains name = true ∨ Keyed.keyOf α name ∈ l.map Keyed.key := by
  induction l generalizing m with
  | nil => simp [addAll]
  | cons x l ih =>
    have hadd : (m.add x).contains name = true ↔ m.contains name = true ∨ Keyed.keyOf α name = Keyed.key x := by
      rw [contains_iff, contains_iff, items_add, map_upsert]
      split <;> simp_all
    calc (m.addAll (x :: l)).contains name = true
        ↔ (m.add x).contains name = true ∨ Keyed.keyOf α name ∈ l.map Keyed.key := ih (m.add x)
      _ ↔ m.contains name = true ∨ Keyed.keyOf α name ∈ (x :: l).map Keyed.key := by
        rw [hadd, List.map_cons, List.mem_cons, or_assoc]

/-- What depends on keys only holds of all names of a map exactly when it holds of all names that were
put in. -/
theorem forall_names_ofList {P : String → Prop}
    (h : ∀ a b, Keyed.keyOf α a = Keyed.keyOf α b → (P a ↔ P b)) :
    (∀ w ∈ (ofList l : NameMap α).names, P w) ↔ ∀ x ∈ l, P (Keyed.name x) := by
  have hall : ∀ m : NameMap α, (∀ x ∈ (m.addAll l).items, P (Keyed.name x)) ↔
      (∀ x ∈ m.items, P (Keyed.name x)) ∧ ∀ x ∈ l, P (Keyed.name x) := by
    induction l with
    | nil => simp [addAll]
    | cons x l ih =>
      intro m
      rw [List.forall_mem_cons, ← and_assoc]
      refine (ih (m.add x)).trans (and_congr_left fun _ => forall_mem_upsert fun a ha => ?_)
      exact h _ _ (eq_of_beq ha)
  rw [names, List.forall_mem_map, ofList, hall]
  exact and_iff_right (List.forall_mem_nil _)

/-- Some items without those that later ones replace: the last item of each key, where the first one was. -/
def latest (l : List α) : List α :=
  (l.map Keyed.key).eraseDups.filterMap fun k => l.findRev? (Keyed.key · == k)

/-- The keys of the map of some items are their keys, each one once. -/
theorem keys_ofList (l : List α) :
    (ofList l : NameMap α).items.map Keyed.key = (l.map Keyed.key).eraseDups := by
  induction l using List.reverseRec with
  | nil => rfl
  | append_singleton l x ih =>
    rw [ofList_concat, items_add, map_upsert, ih, List.map_append, List.map_singleton, eraseDups_append_singleton]
    simp only [List.mem_eraseDups]

/-- The last item with a key is found by it. -/
theorem find?_ofList (l : List α) (k : String) :
    (ofList l : NameMap α).items.find? (Keyed.key · == k) = l.findRev? (Keyed.key · == k) := by
  induction l using List.reverseRec with
  | nil => rfl
  | append_singleton l x ih =>
    rw [ofList_concat, items_add, find?_upsert, ih, List.findRev?_eq_find?_reverse, List.findRev?_eq_find?_reverse,
      List.reverse_append, List.reverse_singleton, List.singleton_append, List.find?_cons]
    cases Keyed.key x == k <;> rfl

/-- The map of some items holds the last one of each key, where the first one was. -/
theorem items_ofList_eq (l : List α) : (ofList l : NameMap α).items = latest l := by
  rw [latest, ← keys_ofList, ← funext (find?_ofList l), filterMap_find? (ofList l).distinct]

/-- A further item makes the map of some items longer by one, if it has a new key. -/
theorem size_ofList_concat (l : List α) (x : α) : (ofList (l ++ [x]) : NameMap α).size =
    (ofList l : NameMap α).size + if Keyed.key x ∈ l.map Keyed.key then 0 else 1 := by
  have hlength := congrArg List.length (keys_ofList (l ++ [x]))
  rw [List.map_append, List.map_singleton, eraseDups_append_singleton, ← keys_ofList, List.length_map] at hlength
  rw [size, size, hlength]
  split
  · rw [List.length_map, Nat.add_zero]
  · rw [List.length_append, List.length_map, List.length_singleton]

/-- The map of some items has no more items. -/
theorem size_ofList_le (l : List α) : (ofList l : NameMap α).size ≤ l.length := by
  induction l using List.reverseRec with
  | nil => exact Nat.le_refl _
  | append_singleton l x ih =>
    rw [size_ofList_concat, List.length_append, List.length_singleton]
    split <;> omega

/-- The map of some items has as many items exactly when their keys are different. -/
theorem size_ofList_eq_iff (l : List α) :
    (ofList l : NameMap α).size = l.length ↔ l.Pairwise fun a b => Keyed.key a ≠ Keyed.key b := by
  induction l using List.reverseRec with
  | nil => exact iff_of_true rfl .nil
  | append_singleton l x ih =>
    have hle := size_ofList_le l
    have hpairwise : (l ++ [x]).Pairwise (fun a b => Keyed.key a ≠ Keyed.key b) ↔
        l.Pairwise (fun a b => Keyed.key a ≠ Keyed.key b) ∧ Keyed.key x ∉ l.map Keyed.key := by
      rw [List.pairwise_append]
      simp [List.mem_map, eq_comm]
    rw [hpairwise, ← ih, size_ofList_concat, List.length_append, List.length_singleton]
    split
    · next hmem => simp only [hmem, not_true_eq_false, and_false, iff_false]; omega
    · next hmem => simp only [hmem, not_false_eq_true, and_true]; omega

/-- Maps of the same items are the same. -/
theorem eq_of_items (h : m.items = n.items) : m = n := by
  obtain ⟨items, _⟩ := m
  obtain ⟨items', _⟩ := n
  obtain rfl : items = items' := h
  rfl

/-- The map of items with different keys holds just these. -/
theorem items_ofList (h : l.Pairwise fun a b => Keyed.key a ≠ Keyed.key b) :
    (ofList l : NameMap α).items = l := by
  induction l using List.reverseRec with
  | nil => rfl
  | append_singleton l x ih =>
    obtain ⟨hl, -, hx⟩ := List.pairwise_append.1 h
    have hnew : ∀ a ∈ l, (Keyed.key a == Keyed.key x) = false := fun a ha =>
      beq_false_of_ne (hx a ha x (List.mem_singleton_self x))
    -- an item with a new key is put behind those that are there
    calc (ofList (l ++ [x]) : NameMap α).items
        = upsert (fun a => Keyed.key a == Keyed.key x) x (l ++ []) := by
          rw [ofList_concat, items_add, ih hl, List.append_nil]
      _ = l ++ [x] := upsert_append hnew

/-- The map of the items of a map is that map. -/
theorem ofList_items (m : NameMap α) : ofList m.items = m := eq_of_items (items_ofList m.distinct)

/-! ## Equality -/

/-- An item of a map is the one that is found by its key. -/
theorem find?_key {a : α} (h : a ∈ m.items) : m.items.find? (Keyed.key · == Keyed.key a) = some a := by
  obtain ⟨before, behind, hitems⟩ := List.append_of_mem h
  have hdistinct := m.distinct
  rw [hitems] at hdistinct ⊢
  have hother : ∀ b ∈ before, ¬ (Keyed.key b == Keyed.key a) = true := fun b hb =>
    fun hkey => (List.pairwise_append.1 hdistinct).2.2 b hb a (List.mem_cons_self ..) (beq_iff_eq.1 hkey)
  rw [List.find?_append, List.find?_eq_none.2 hother, List.find?_cons, beq_self_eq_true]
  rfl

/-- Where an item is equal to what it is changed to just if a condition does not hold, and then is the same, a
map is equal to what it is changed to just if the condition holds for no item, and then is the same. -/
theorem same_map {f : α → α} {eq : α → α → Bool} {changes : α → Bool} (hkey : ∀ a, Keyed.key (f a) = Keyed.key a)
    (h : ∀ a ∈ m.items, eq (f a) a = !changes a ∧ (changes a = false → f a = a)) :
    (m.map f hkey).same eq m = !m.items.any changes ∧
      (m.items.any changes = false → m.map f hkey = m) := by
  constructor
  · have hsize : ((m.map f hkey).size == m.size) = true := by
      rw [beq_iff_eq]
      exact List.length_map f
    rw [same, hsize, Bool.true_and, List.not_any_eq_all_not]
    show (m.items.map f).all _ = _
    rw [List.all_map, Bool.eq_iff_iff, List.all_eq_true, List.all_eq_true]
    refine forall₂_congr fun a ha => ?_
    rw [Function.comp_apply, hkey, find?_key ha, ← (h a ha).1]
  · intro hnone
    refine eq_of_items ((List.map_congr_left fun a ha => ?_).trans (List.map_id m.items))
    exact (h a ha).2 (by simpa using List.any_eq_false.1 hnone a ha)

/-- A map is equal to itself. -/
theorem same_self [BEq α] [LawfulBEq α] (m : NameMap α) : m.same (· == ·) m = true := by
  rw [same, beq_self_eq_true, Bool.true_and, List.all_eq_true]
  intro a ha
  rw [find?_key ha]
  exact beq_self_eq_true a

end NameMap

end PhpGraft

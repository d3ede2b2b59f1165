/-!
# Lists with distinct keys

An item is put into a list in the place of the one with its key, or at the end. Doing so keeps the
keys of a list distinct, and it keeps the order in which the keys came first.
-/

namespace PhpGraft

/-- A list with an item in the place of the first one that satisfies a test, or at the end. -/
def upsert {α : Type} (p : α → Bool) (x : α) : List α → List α
  | [] => [x]
  | a :: as => if p a then x :: as else a :: upsert p x as

/-- The members of a list after an item was put in are the item and old members. -/
theorem mem_of_mem_upsert {α : Type} {p : α → Bool} {x y : α} {l : List α}
    (h : y ∈ upsert p x l) : y = x ∨ y ∈ l := by
  induction l with
  | nil => simpa [upsert] using h
  | cons a as ih =>
    unfold upsert at h
    split at h
    · simp only [List.mem_cons] at h ⊢
      exact h.imp_right Or.inr
    · simp only [List.mem_cons] at h ⊢
      rcases h with rfl | h
      · exact .inr (.inl rfl)
      · exact (ih h).imp_right .inr

/-- Putting an item in the place of the one with its key keeps the keys distinct. -/
theorem pairwise_upsert {α κ : Type} [BEq κ] [LawfulBEq κ] (key : α → κ) (x : α) {l : List α}
    (h : l.Pairwise fun a b => key a ≠ key b) :
    (upsert (fun a => key a == key x) x l).Pairwise fun a b => key a ≠ key b := by
  induction l with
  | nil => simp [upsert]
  | cons a as ih =>
    obtain ⟨ha, has⟩ := List.pairwise_cons.1 h
    unfold upsert
    split
    · next hax =>
      have hax := eq_of_beq hax
      exact List.pairwise_cons.2 ⟨fun b hb => hax ▸ ha b hb, has⟩
    · next hax =>
      refine List.pairwise_cons.2 ⟨fun b hb => ?_, ih has⟩
      rcases mem_of_mem_upsert hb with rfl | hb
      · simpa using hax
      · exact ha b hb

end PhpGraft

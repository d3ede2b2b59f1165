import Mathlib.Data.List.Flatten
import PhpGraft.Proofs.Graft.Run

/-!
# Nothing is clobbered

Whatever a run does, and wherever it ends, what stood in the file is still there
(`realize_conserves`): every node is what it was, with its doc comment, its attributes and the
comments around it, except that the head of the one declaration that is made may have grown; and the
children of every node are still there in their order. Only the statements of the file itself may
have moved, and then all together into a namespace that the run added.
-/

namespace PhpGraft

open Edit

/-- The statements of a file, with those of a namespace in its place if the handle of the namespace
is not among the first `count` ones. -/
def Tree.unwrapped (t : Tree) (count : Nat) : List NodeId :=
  (t.children root).flatMap fun c =>
    if count ≤ c ∧ t.category c = .namespaceDecl then t.children c else [c]

namespace GrowsWrapped

variable {name? : Option String} {t t' : Tree}

/-- The declaration of a name stays what it was. -/
theorem find (h : GrowsWrapped name? t t') {id : Nat} (hid : t.findClassLike? name? = some id) :
    t'.findClassLike? name? = some id := by
  obtain ⟨t₁, t₂, hbefore, hwrap, hafter⟩ := h
  apply hafter.find
  rcases hwrap with rfl | ⟨hnone, name, rfl⟩
  · exact hbefore.find id hid
  · rw [Tree.findClassLike?_wrapped hnone]
    exact hbefore.find id hid

/-- Stored nodes stay as they are, except for the head of the declaration of the name. -/
theorem node (h : GrowsWrapped name? t t') {id : Nat} (hid : id < t.cells.size) :
    t'.node id = t.node id ∨
      t'.findClassLike? name? = some id ∧ NodeGrows (t.node id) (t'.node id) := by
  obtain ⟨t₁, t₂, hbefore, hwrap, hafter⟩ := h
  have hid₁ : id < t₁.cells.size := Nat.lt_of_lt_of_le hid hbefore.size_le
  rcases hwrap with rfl | ⟨hnone, name, rfl⟩
  · exact (hbefore.trans hafter).node id hid
  · have hid₂ : id < (t₁.wrapped name).cells.size := by
      rw [Tree.size_wrapped]
      omega
    have hsame : (t₁.wrapped name).node id = t₁.node id := by
      rw [Tree.node_wrapped, if_neg (Nat.ne_of_lt hid₁)]
    rcases hbefore.node id hid with he | ⟨hf, hg⟩
    · rw [← he, ← hsame]
      exact hafter.node id hid₂
    · rw [← Tree.findClassLike?_wrapped hnone] at hf
      rcases hafter.node id hid₂ with he' | ⟨hf', hg'⟩
      · exact .inr ⟨hafter.find id hf, by rwa [he', hsame]⟩
      · exact .inr ⟨hf', hg.trans (hsame ▸ hg')⟩

/-- The children of a stored node other than the root stay in their order. -/
theorem children (h : GrowsWrapped name? t t') {id : Nat} (hid : id < t.cells.size)
    (hroot : id ≠ Tree.root) : (t.children id).Sublist (t'.children id) := by
  obtain ⟨t₁, t₂, hbefore, hwrap, hafter⟩ := h
  refine (hbefore.children id).trans (List.Sublist.trans ?_ (hafter.children id))
  rcases hwrap with rfl | ⟨-, name, rfl⟩
  · exact List.Sublist.refl _
  · have hne : id ≠ t₁.cells.size := Nat.ne_of_lt (Nat.lt_of_lt_of_le hid hbefore.size_le)
    rw [Tree.children_wrapped_of_ne hroot hne]

/-- The statements of the file stay in their order, in the file or in the namespace that was put
around them. -/
theorem unwrapped (h : GrowsWrapped name? t t') :
    (t.children Tree.root).Sublist (t'.unwrapped t.cells.size) := by
  obtain ⟨t₁, t₂, hbefore, hwrap, hafter⟩ := h
  refine (hbefore.children Tree.root).trans ?_
  unfold Tree.unwrapped
  rcases hwrap with rfl | ⟨-, name, rfl⟩
  · -- No new node is a namespace, so that nothing is replaced.
    have hfresh := (hbefore.trans hafter).fresh
    have hself : ∀ c ∈ t'.children Tree.root,
        (if t.cells.size ≤ c ∧ t'.category c = .namespaceDecl then t'.children c else [c]) =
          [c] := fun c _ => if_neg fun hc => hfresh c hc.1 hc.2
    rw [List.flatMap_congr hself, List.flatMap_singleton']
    exact hafter.children Tree.root
  · refine List.Sublist.trans ?_ ((hafter.children Tree.root).flatMap _)
    rw [Tree.children_wrapped_root, List.flatMap_append]
    conv_lhs => rw [← List.take_append_drop (leadingDirectives t₁ Tree.root)
      (t₁.children Tree.root)]
    refine List.Sublist.append ?_ ?_
    · -- The directives ahead of the statements are no namespaces.
      have hself : ∀ c ∈ (t₁.children Tree.root).take (leadingDirectives t₁ Tree.root),
          (if t.cells.size ≤ c ∧ t'.category c = .namespaceDecl then t'.children c else [c]) =
            [c] := by
        intro c hc
        have hcat := Tree.category_of_mem_leading hc
        have hlt : c < t₁.cells.size := Tree.lt_of_category_ne (by rw [hcat]; decide)
        have hlt₂ : c < (t₁.wrapped name).cells.size := by
          rw [Tree.size_wrapped]
          exact Nat.lt_succ_of_lt hlt
        refine if_neg fun hns => ?_
        rw [hafter.category_eq hlt₂, Tree.category, Tree.node_wrapped,
          if_neg (Nat.ne_of_lt hlt)] at hns
        exact absurd (hcat.symm.trans hns.2) (by decide)
      rw [List.flatMap_congr hself, List.flatMap_singleton']
    · have hcat : t'.category t₁.cells.size = .namespaceDecl := by
        rw [hafter.category_eq (by rw [Tree.size_wrapped]; omega), Tree.category,
          Tree.node_wrapped, if_pos rfl]
        rfl
      rw [List.flatMap_singleton, if_pos ⟨hbefore.size_le, hcat⟩]
      rw [← @Tree.children_wrapped_new t₁ name]
      exact hafter.children _

end GrowsWrapped

/-- Realizing a declaration clobbers nothing, whether it succeeds or fails. With `t'` the tree that
the run leaves: the declaration of its name stays what it was; each stored node is what it was, but
for that declaration, whose head may have grown; each stored node but the root keeps its children in
their order; and the root keeps its statements in their order, once a namespace that the run added
is replaced by its own statements. -/
theorem realize_conserves (d : Declaration) (t : Tree) :
    (∀ id, t.findClassLike? d.name? = some id →
        (d.realize.on t).2.findClassLike? d.name? = some id) ∧
      (∀ id, id < t.cells.size →
        (d.realize.on t).2.node id = t.node id ∨
          (d.realize.on t).2.findClassLike? d.name? = some id ∧
            NodeGrows (t.node id) ((d.realize.on t).2.node id)) ∧
      (∀ id, id < t.cells.size → id ≠ Tree.root →
        (t.children id).Sublist ((d.realize.on t).2.children id)) ∧
      (t.children Tree.root).Sublist ((d.realize.on t).2.unwrapped t.cells.size) := by
  have h := d.growsWrapped_realize t
  exact ⟨fun _ hid => h.find hid, fun _ hid => h.node hid,
    fun _ hid hroot => h.children hid hroot, h.unwrapped⟩

end PhpGraft

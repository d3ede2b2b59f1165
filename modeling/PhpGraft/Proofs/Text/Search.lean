import PhpGraft.Text.Blank

/-!
# Searches and trimming

What the searches of a text find, and what trimming leaves as it is.
-/

namespace PhpGraft.Text

variable {cs g : List Char}

/-- A text can be tested for white space. -/
theorem noBlank_of_any (h : cs.any isBlank = false) : ∀ c ∈ cs, isBlank c = false := by
  simpa using h

/-! ## Places of a character -/

/-- A character that is not in the end of a text stands ahead of that end. -/
theorem exists_of_append_end {a b v s : List Char} {c : Char} (h : a ++ c :: b = v ++ s) (hc : c ∉ s) :
    ∃ u, v = a ++ c :: u ∧ b = u ++ s := by
  obtain ⟨u, rfl, hs⟩ | ⟨u, rfl, rfl⟩ := List.append_eq_append_iff.1 h
  · cases u with
    | nil =>
      obtain rfl : c :: b = s := hs
      exact absurd (List.mem_cons_self ..) hc
    | cons d u =>
      obtain ⟨rfl, rfl⟩ := List.cons.inj hs
      exact ⟨u, rfl, rfl⟩
  · exact absurd (List.mem_append_right _ (List.mem_cons_self ..)) hc

/-- A character that is not in the front of a text stands behind that front. -/
theorem exists_of_append_front {a b w p : List Char} {c : Char} (h : p ++ w = a ++ c :: b) (hc : c ∉ p) :
    ∃ u, a = p ++ u ∧ w = u ++ c :: b := by
  obtain ⟨u, rfl, hw⟩ | ⟨u, rfl, hw⟩ := List.append_eq_append_iff.1 h
  · exact ⟨u, rfl, hw⟩
  · cases u with
    | nil => exact ⟨[], by simp, hw.symm⟩
    | cons d u =>
      obtain ⟨rfl, -⟩ := List.cons.inj hw
      exact absurd (List.mem_append_right _ (List.mem_cons_self ..)) hc

/-! ## Pieces between separators -/

/-- A text has at least one piece. -/
theorem splitOn_ne_nil (sep : Char) (cs : List Char) : splitOn sep cs ≠ [] := by
  unfold splitOn
  split
  · exact List.cons_ne_nil _ _
  · split
    · exact List.cons_ne_nil _ _
    · split <;> exact List.cons_ne_nil _ _

/-- The first piece of a text starts as the text does. -/
theorem head?_of_splitOn {sep d : Char} {q : List Char} {qs : List (List Char)}
    (h : splitOn sep cs = (d :: q) :: qs) : cs.head? = some d := by
  cases cs with
  | nil => simp [splitOn] at h
  | cons c cs =>
    unfold splitOn at h
    split at h
    · simp at h
    · split at h <;> simp_all

/-- The pieces of a text hold all of its characters but the separators. -/
theorem forall_of_splitOn {sep : Char} {p : Char → Prop}
    (h : ∀ piece ∈ splitOn sep cs, ∀ c ∈ piece, p c) : ∀ c ∈ cs, p c ∨ c = sep := by
  induction cs with
  | nil => exact List.forall_mem_nil _
  | cons c cs ih =>
    rw [splitOn] at h
    split at h
    · next hc =>
      obtain ⟨-, h⟩ := List.forall_mem_cons.1 h
      exact List.forall_mem_cons.2 ⟨.inr hc, ih h⟩
    · split at h
      · next hnil => exact absurd hnil (splitOn_ne_nil _ _)
      · next piece pieces hsplit =>
        obtain ⟨hpiece, hpieces⟩ := List.forall_mem_cons.1 h
        obtain ⟨hc, hpiece⟩ := List.forall_mem_cons.1 hpiece
        refine List.forall_mem_cons.2 ⟨.inl hc, ih ?_⟩
        rw [hsplit]
        exact List.forall_mem_cons.2 ⟨hpiece, hpieces⟩

/-! ## Trimming -/

/-- White space at the end is trimmed off. -/
theorem dropTailWhile_append {α : Type} {p : α → Bool} {t : List α} (ht : t.all p = true)
    (l : List α) : dropTailWhile p (l ++ t) = dropTailWhile p l := by
  rw [dropTailWhile, List.reverse_append,
    List.dropWhile_append_of_pos (by simpa using ht), dropTailWhile]

/-- A list that does not end in what is dropped is left alone. -/
theorem dropTailWhile_eq_self {α : Type} {p : α → Bool} {l : List α}
    (h : ∀ x ∈ l.getLast?, p x = false) : dropTailWhile p l = l := by
  have hdrop : l.reverse.dropWhile p = l.reverse := by
    cases hl : l.reverse with
    | nil => rfl
    | cons x xs =>
      have hx : l.getLast? = some x := by rw [← List.head?_reverse, hl]; rfl
      rw [List.dropWhile_cons_of_neg (by simp [h x hx])]
  rw [dropTailWhile, hdrop, List.reverse_reverse]

/-- Nothing is left of what is dropped as a whole. -/
theorem dropTailWhile_eq_nil {α : Type} {p : α → Bool} {l : List α} (h : l.all p = true) :
    dropTailWhile p l = [] := by
  have := dropTailWhile_append h []
  rwa [List.nil_append] at this

/-- White space is trimmed off the last of two texts, if it is more than that. -/
theorem dropTailWhile_append_left {α : Type} {p : α → Bool} {b : List α} (hb : b.all p = false)
    (a : List α) : dropTailWhile p (a ++ b) = a ++ dropTailWhile p b := by
  have hne : ¬ (b.reverse.dropWhile p).isEmpty := by
    intro h
    have hall := List.takeWhile_append_dropWhile (p := p) (l := b.reverse)
    rw [List.isEmpty_iff.1 h, List.append_nil] at hall
    have : b.reverse.all p = true := by
      rw [← hall]
      exact List.all_takeWhile
    rw [List.all_reverse, hb] at this
    exact absurd this nofun
  rw [dropTailWhile, List.reverse_append, List.dropWhile_append, if_neg hne, List.reverse_append,
    List.reverse_reverse]
  rfl

/-- What is dropped may be put back at both ends. -/
theorem dropWhile_dropTailWhile_append {α : Type} {p : α → Bool} {a t : List α}
    (ha : a.all p = true) (ht : t.all p = true) (l : List α) :
    (dropTailWhile p (a ++ (l ++ t))).dropWhile p = (dropTailWhile p l).dropWhile p := by
  rw [← List.append_assoc, dropTailWhile_append ht]
  by_cases hall : l.all p = true
  · have hboth : (a ++ l).all p = true := by rw [List.all_append, ha, hall, Bool.and_self]
    rw [dropTailWhile_eq_nil hboth, dropTailWhile_eq_nil hall]
  · rw [dropTailWhile_append_left (by simpa using hall),
      List.dropWhile_append_of_pos (by simpa using ha)]

/-- What is left of a list does not end in what is dropped. -/
theorem getLast?_dropTailWhile {α : Type} {p : α → Bool} {l : List α} {x : α}
    (h : (dropTailWhile p l).getLast? = some x) : p x = false := by
  rw [dropTailWhile, List.getLast?_reverse] at h
  have := List.head?_dropWhile_not p l.reverse
  rwa [h] at this

/-- What is dropped at the end of a list passes the test. -/
theorem exists_dropTailWhile {α : Type} (p : α → Bool) (l : List α) :
    ∃ t, l = dropTailWhile p l ++ t ∧ t.all p = true := by
  refine ⟨(l.reverse.takeWhile p).reverse, ?_, ?_⟩
  · rw [dropTailWhile, ← List.reverse_append, List.takeWhile_append_dropWhile, List.reverse_reverse]
  · rw [List.all_reverse]
    exact List.all_takeWhile

/-- Trimming takes nothing but characters at the ends. -/
theorem dropTailWhile_sublist {α : Type} (p : α → Bool) (l : List α) :
    (dropTailWhile p l).Sublist l := by
  have := (List.dropWhile_sublist p (l := l.reverse)).reverse
  rwa [List.reverse_reverse] at this

/-- What is left between the ends of a list keeps the order of the list. -/
theorem trimWhile_sublist (p : Char → Bool) (cs : List Char) : (trimWhile p cs).Sublist cs :=
  (dropTailWhile_sublist p _).trans (List.dropWhile_sublist p)

/-- Trimming keeps the characters that it does not look for. -/
theorem mem_trimWhile {p : Char → Bool} {c : Char} (hc : p c = false) (h : c ∈ cs) : c ∈ trimWhile p cs := by
  have hdrop {l : List Char} (hl : c ∈ l) : c ∈ l.dropWhile p := by
    rw [← List.takeWhile_append_dropWhile (p := p) (l := l), List.mem_append] at hl
    refine hl.resolve_left fun hfront => ?_
    rw [List.all_eq_true.1 List.all_takeWhile c hfront] at hc
    cases hc
  exact List.mem_reverse.2 (hdrop (List.mem_reverse.2 (hdrop h)))

/-- A trimmed text does not end in white space. -/
theorem getLast?_trim {cs : List Char} {c : Char} (h : (trim cs).getLast? = some c) :
    isBlank c = false := getLast?_dropTailWhile h

/-- White space at the front is trimmed off. -/
theorem trim_append_front (hg : g.all isBlank = true) (cs : List Char) :
    trim (g ++ cs) = trim cs := by
  rw [trim, trimStart, List.dropWhile_append_of_pos (by simpa using hg)]
  rfl

/-- A text that does not start with white space is left alone at its front. -/
theorem trimStart_eq_self (h : ∀ c ∈ cs.head?, isBlank c = false) : trimStart cs = cs := by
  cases cs with
  | nil => rfl
  | cons c cs => exact List.dropWhile_cons_of_neg (by simp [h c rfl])

/-- A text whose ends are not white space is trimmed. -/
theorem trim_eq_self (h₁ : ∀ c ∈ cs.head?, isBlank c = false)
    (h₂ : ∀ c ∈ cs.getLast?, isBlank c = false) : trim cs = cs := by
  rw [trim, trimStart_eq_self h₁]
  exact dropTailWhile_eq_self h₂

/-- A trimmed text is trimmed. -/
theorem trim_trim (cs : List Char) : trim (trim cs) = trim cs := by
  refine trim_eq_self (fun c hc => ?_) fun c hc => getLast?_trim hc
  obtain ⟨t, ht, -⟩ := exists_dropTailWhile isBlank (trimStart cs)
  have hstart : (trimStart cs).head? = some c := by
    rw [ht, List.head?_append]
    exact Option.or_eq_some_iff.2 (.inl hc)
  have := List.head?_dropWhile_not isBlank cs
  rw [trimStart] at hstart
  rwa [hstart] at this

/-- White space at the end is trimmed off a text that starts with none. -/
theorem trim_append_end (hg : g.all isBlank = true) (cs : List Char) : trim (cs ++ g) = trim cs := by
  have hend (a : List Char) : trimEnd (a ++ g) = trimEnd a := dropTailWhile_append hg a
  rw [trim, trim, trimStart, trimStart, List.dropWhile_append]
  split
  · next h =>
    have hnil : cs.dropWhile isBlank = [] := List.isEmpty_iff.1 h
    have hrest : (g.dropWhile isBlank).all isBlank = true :=
      List.all_eq_true.2 fun c hc =>
        List.all_eq_true.1 hg c ((List.dropWhile_sublist _).mem hc)
    rw [hnil]
    exact (dropTailWhile_eq_nil hrest).trans (dropTailWhile_eq_nil rfl).symm
  · exact hend _

end PhpGraft.Text

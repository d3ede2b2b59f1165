import PhpGraft.Proofs.Syntax.Reflowing
import PhpGraft.Proofs.Text.Search

/-!
# Source in a layout that keeps some newlines

In another layout a newline becomes another break, and a token that goes over it changes. A token stays
as it is where the layout keeps the newlines in it (`Lays.le_shared`). A newline is told by the source
behind it, so that a layout of the source is one of what is left of it, too (`Lays.behind`).
-/

namespace PhpGraft

/-- A text with other breaks between its lines, but for the newlines that are kept: those ahead of a
text of which `keep` holds. A tail stands in the place of the white space behind the text. -/
inductive Lays (keep : List Char → Prop) (tail : List Char) : List Char → List Char → Prop where
  | nil {w : List Char} (hw : w.all isSpace = true) : Lays keep tail w tail
  | cons {cs ds : List Char} (c : Char) (h : Lays keep tail cs ds) :
    Lays keep tail (c :: cs) (c :: ds)
  | gap {w w' cs ds : List Char} (hw : IsBreak w) (hw' : IsBreak w')
    (hfree : ∀ a b, w = a ++ '\n' :: b → ¬ keep (b ++ cs)) (h : Lays keep tail cs ds) :
    Lays keep tail (w ++ cs) (w' ++ ds)

/-- The characters of a text that are no white space. -/
def solids (cs : List Char) : List Char := cs.filter fun c => !isSpace c

/-- White space has none. -/
theorem solids_of_spaces {w : List Char} (h : w.all isSpace = true) : solids w = [] :=
  List.filter_eq_nil_iff.2 fun c hc => by simp [List.all_eq_true.1 h c hc]

/-- Those of two texts are those of the first and those of the second. -/
theorem solids_append (a b : List Char) : solids (a ++ b) = solids a ++ solids b :=
  List.filter_append ..

/-- A character that is no white space is one of them. -/
theorem solids_cons {c : Char} (h : isSpace c = false) (cs : List Char) :
    solids (c :: cs) = c :: solids cs :=
  List.filter_cons_of_pos (by simp [h])

/-- In another layout there are the same ones. -/
theorem Reflows.solids_eq {tail cs ds : List Char} (ht : tail.all isSpace = true)
    (h : Reflows tail cs ds) : solids ds = solids cs := by
  induction h with
  | nil hw => rw [solids_of_spaces ht, solids_of_spaces hw]
  | cons c h ih =>
    show solids ([c] ++ _) = solids ([c] ++ _)
    rw [solids_append, solids_append, ih]
  | gap hw hw' h ih =>
    rw [solids_append, solids_append, solids_of_spaces hw.space, solids_of_spaces hw'.space, ih]

namespace Lays

variable {keep : List Char → Prop} {tail cs ds : List Char}

/-- A layout that keeps line ends is a layout. -/
theorem reflows (h : Lays keep tail cs ds) : Reflows tail cs ds := by
  induction h with
  | nil hw => exact .nil hw
  | cons c _ ih => exact .cons c ih
  | gap hw hw' _ _ ih => exact .gap hw hw' ih

/-- The same text may stand ahead of both. -/
theorem append_left (l : List Char) (h : Lays keep tail cs ds) :
    Lays keep tail (l ++ cs) (l ++ ds) := by
  induction l with
  | nil => exact h
  | cons c l ih => exact .cons c ih

/-- White space ahead of a character that is none belongs to what is ahead of that character. -/
theorem exists_of_append_cons {w cs a x : List Char} {c : Char} (hw : w.all isSpace = true)
    (hc : isSpace c = false) (h : w ++ cs = a ++ c :: x) : ∃ b, a = w ++ b ∧ cs = b ++ c :: x :=
  Text.exists_of_append_front h fun hmem => by
    rw [List.all_eq_true.1 hw c hmem] at hc
    cases hc

/-- What is behind two characters that are no white space is laid out, if as many of them are ahead of
the one as of the other. -/
theorem behind (h : Lays keep tail cs ds) {a a' x x' : List Char} {c c' : Char}
    (hcs : cs = a ++ c :: x) (hds : ds = a' ++ c' :: x') (hc : isSpace c = false)
    (hc' : isSpace c' = false) (hcount : (solids a').length = (solids a).length) :
    Lays keep tail x x' := by
  induction h generalizing a a' with
  | nil hw =>
    rw [hcs, List.all_append, List.all_cons, hc] at hw
    simp at hw
  | @cons cs ds d h ih =>
    cases a with
    | nil =>
      obtain ⟨rfl, rfl⟩ := List.cons.inj hcs
      cases a' with
      | nil =>
        obtain ⟨-, rfl⟩ := List.cons.inj hds
        exact h
      | cons e a' =>
        obtain ⟨rfl, -⟩ := List.cons.inj hds
        rw [solids_cons hc] at hcount
        cases hcount
    | cons e a =>
      obtain ⟨rfl, hcs'⟩ := List.cons.inj hcs
      cases a' with
      | nil =>
        obtain ⟨rfl, -⟩ := List.cons.inj hds
        rw [solids_cons hc'] at hcount
        cases hcount
      | cons e a' =>
        obtain ⟨rfl, hds'⟩ := List.cons.inj hds
        refine ih hcs' hds' ?_
        have hsplit (l : List Char) : solids (d :: l) = solids [d] ++ solids l :=
          solids_append [d] l
        rw [hsplit a, hsplit a', List.length_append, List.length_append] at hcount
        omega
  | gap hw hw' hfree h ih =>
    obtain ⟨b, rfl, hb⟩ := exists_of_append_cons hw.space hc hcs
    obtain ⟨b', rfl, hb'⟩ := exists_of_append_cons hw'.space hc' hds
    refine ih hb hb' ?_
    rwa [solids_append, solids_append, solids_of_spaces hw.space, solids_of_spaces hw'.space,
      List.nil_append, List.nil_append] at hcount

/-- What is behind two characters that are no white space is laid out, if it is the same text in some
layout. -/
theorem behind_of_reflows (ht : tail.all isSpace = true) {a a' x x' : List Char} {c c' : Char}
    (h : Lays keep tail (a ++ c :: x) (a' ++ c' :: x')) (hx : Reflows tail x x')
    (hc : isSpace c = false) (hc' : isSpace c' = false) : Lays keep tail x x' := by
  refine h.behind rfl rfl hc hc' ?_
  have hall := congrArg List.length (h.reflows.solids_eq ht)
  have hrest := congrArg List.length (hx.solids_eq ht)
  simp only [solids_append, solids_cons hc, solids_cons hc', List.length_append,
    List.length_cons] at hall
  omega

/-- Both start with the same text, up to white space at the end or to a break that is not kept. -/
theorem exists_shared (h : Lays keep tail cs ds) :
    ∃ u r s, cs = u ++ r ∧ ds = u ++ s ∧ Reflows tail r s ∧
      ((r.all isSpace = true ∧ s = tail) ∨ ∃ w w' r₀ s₀, r = w ++ r₀ ∧ s = w' ++ s₀ ∧ IsBreak w ∧
        IsBreak w' ∧ Reflows tail r₀ s₀ ∧ ∀ a b, w = a ++ '\n' :: b → ¬ keep (b ++ r₀)) := by
  induction h with
  | @nil w hw => exact ⟨[], w, tail, rfl, rfl, .nil hw, .inl ⟨hw, rfl⟩⟩
  | cons c _ ih =>
    obtain ⟨u, r, s, rfl, rfl, hrs, hcases⟩ := ih
    exact ⟨c :: u, r, s, rfl, rfl, hrs, hcases⟩
  | @gap w w' cs ds hw hw' hfree h =>
    exact ⟨[], w ++ cs, w' ++ ds, rfl, rfl, .gap hw hw' h.reflows,
      .inr ⟨w, w', cs, ds, rfl, rfl, hw, hw', h.reflows, hfree⟩⟩

/-- A text that does not end in white space, and whose newlines are kept, is the same in both. -/
theorem le_shared {u r t q : List Char} (hcs : u ++ r = t ++ q)
    (hlast : ∀ c ∈ t.getLast?, isSpace c = false) (hkeep : ∀ a b, t = a ++ '\n' :: b → keep (b ++ q))
    (hr : r.all isSpace = true ∨ ∃ w r₀, r = w ++ r₀ ∧ IsBreak w ∧
      ∀ a b, w = a ++ '\n' :: b → ¬ keep (b ++ r₀)) : t.length ≤ u.length := by
  refine Nat.le_of_not_lt fun hlt => ?_
  -- the text ends in what is behind the shared one
  obtain ⟨v, rfl, rfl⟩ : ∃ v, t = u ++ v ∧ r = v ++ q := by
    rcases List.append_eq_append_iff.1 hcs with ⟨v, ht, hr⟩ | ⟨v, hu, -⟩
    · exact ⟨v, ht, hr⟩
    · rw [hu, List.length_append] at hlt
      omega
  have hne : v ≠ [] := fun hnil => by simp [hnil] at hlt
  have hspace {w : List Char} (hv : v <+: w) : ¬ w.all isSpace = true := fun hw => by
    obtain ⟨b, rfl⟩ := hv
    have hin := hlast (v.getLast hne) (by
      rw [List.getLast?_append, List.getLast?_eq_some_getLast hne]
      rfl)
    rw [List.all_eq_true.1 hw _ (List.mem_append_left _ (List.getLast_mem hne))] at hin
    cases hin
  rcases hr with hr | ⟨w, r₀, hsplit, hw, hfree⟩
  · exact hspace (List.prefix_append v q) hr
  · rcases List.append_eq_append_iff.1 hsplit with ⟨b, rfl, -⟩ | ⟨b, rfl, rfl⟩
    · exact hspace (List.prefix_append v b) hw.space
    · -- the break that is not kept lies in the text
      obtain ⟨x, y, rfl, -⟩ := hw.exists_newline
      refine hfree x y rfl ?_
      have hin := hkeep (u ++ x) (y ++ b) (by simp)
      rwa [List.append_assoc] at hin

end Lays

end PhpGraft

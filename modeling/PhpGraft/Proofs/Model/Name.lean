import Mathlib.Data.List.TakeWhile
import PhpGraft.Model.Name
import PhpGraft.Proofs.Text.Ascii
import PhpGraft.Proofs.Text.Search

/-!
# Qualified names, missing names, and names without backslashes

A qualified name is what identifiers give when they are joined by backslashes (`isQualified_iff`).
`Name.missing` picks the wanted names that are not among the known ones. Behind the known names, the
missing ones make every wanted name known (`exists_same_of_mem`), and they do so without saying one
twice: of each key there are as many names as before if there were any, and else one if it is wanted
(`countP_append_missing`). Without the backslashes at its ends, something is left of every name that is
not made of backslashes alone (`bare_ne_of_mem`).
-/

namespace PhpGraft.Name

/-! ## Qualified names -/

/-- The pieces of a text are those of a list between the occurrences of a member. -/
theorem splitOn_eq (sep : Char) (cs : List Char) : Text.splitOn sep cs = cs.splitOn sep := by
  induction cs with
  | nil => rfl
  | cons c cs ih =>
    rw [Text.splitOn, List.splitOn_eq_splitOnP, List.splitOnP_cons_eq_if_modifyHead,
      ← List.splitOn_eq_splitOnP, ← ih]
    simp only [beq_iff_eq]
    split
    · rfl
    · split
      · next hnil => exact absurd hnil (Text.splitOn_ne_nil sep cs)
      · next piece pieces hsplit => rw [hsplit, List.modifyHead_cons]

/-- A text is a qualified name exactly when it is one or more identifiers joined by backslashes. -/
theorem isQualified_iff {cs : List Char} : isQualified cs = true ↔
    ∃ parts : List (List Char), parts ≠ [] ∧ (∀ p ∈ parts, Text.isAsciiIdent p = true) ∧
      ['\\'].intercalate parts = cs := by
  rw [isQualified, List.all_eq_true]
  constructor
  · intro h
    refine ⟨Text.splitOn '\\' cs, Text.splitOn_ne_nil _ _, h, ?_⟩
    rw [splitOn_eq, List.intercalate_splitOn]
  · rintro ⟨parts, hne, hparts, rfl⟩
    have hsep : ∀ p ∈ parts, '\\' ∉ p := fun p hp hmem =>
      absurd (Text.isAsciiIdentChar_of_mem (hparts p hp) _ hmem) (by decide)
    rw [splitOn_eq, List.splitOn_intercalate '\\' hsep hne]
    exact hparts

/-! ## Missing names -/

variable {α : Type} {nameOf : α → String}

/-- Spellings of one name are those with one key. -/
theorem same_iff {a b : String} : same a b = true ↔ key a = key b := beq_iff_eq

/-- Whether two names are spellings of one name does not depend on their order. -/
theorem same_comm (a b : String) : same a b = same b a := Bool.beq_comm

/-- Nothing is missing when every wanted name is known. -/
theorem missing_eq_nil_iff {known : List String} {wanted : List α} :
    missing nameOf known wanted = [] ↔ ∀ x ∈ wanted, ∃ k ∈ known, same k (nameOf x) = true := by
  induction wanted with
  | nil => simp [missing]
  | cons x wanted ih =>
    unfold missing
    by_cases h : known.any (same · (nameOf x)) = true
    · rw [if_pos h, ih, List.forall_mem_cons]
      rw [List.any_eq_true] at h
      exact ⟨fun hw => ⟨h, hw⟩, fun hw => hw.2⟩
    · rw [if_neg h]
      simp only [List.cons_ne_nil, false_iff, List.forall_mem_cons, not_and]
      rw [List.any_eq_true] at h
      exact fun hx => absurd hx h

/-- Of each key there are as many names behind the known ones as before if there were any, and else
one if it is wanted. -/
theorem countP_append_missing (k : String) (known : List String) (wanted : List α) :
    (known ++ (missing nameOf known wanted).map nameOf).countP (key · == k) =
      if 0 < known.countP (key · == k) then known.countP (key · == k)
      else if wanted.any (fun y => key (nameOf y) == k) then 1 else 0 := by
  induction wanted generalizing known with
  | nil =>
    simp only [missing, List.map_nil, List.append_nil, List.any_nil, Bool.false_eq_true, if_false]
    split <;> omega
  | cons x wanted ih =>
    unfold missing
    by_cases h : known.any (same · (nameOf x)) = true
    · rw [if_pos h, ih]
      -- If `x` has the key, then some known name has it.
      by_cases hx : key (nameOf x) = k
      · obtain ⟨n, hn, hsame⟩ := List.any_eq_true.1 h
        have hpos : 0 < known.countP (key · == k) :=
          List.countP_pos_iff.2 ⟨n, hn, by rw [same_iff.1 hsame, hx, beq_self_eq_true]⟩
        rw [if_pos hpos, if_pos hpos]
      · rw [List.any_cons, beq_false_of_ne hx, Bool.false_or]
    · rw [if_neg h, List.map_cons, List.append_cons, ih, List.countP_append, List.any_cons]
      by_cases hx : key (nameOf x) = k
      · have hzero : known.countP (key · == k) = 0 := by
          rw [List.countP_eq_zero]
          intro n hn hkey
          have hsame : same n (nameOf x) = true :=
            same_iff.2 ((eq_of_beq hkey).trans hx.symm)
          exact h (List.any_eq_true.2 ⟨n, hn, hsame⟩)
        rw [hzero]
        simp [hx]
      · simp [hx]

/-- With the missing names behind the known ones, every wanted name is known. -/
theorem exists_same_of_mem {known : List String} {wanted : List α} {x : α} (hx : x ∈ wanted) :
    ∃ k ∈ known ++ (missing nameOf known wanted).map nameOf, same k (nameOf x) = true := by
  have hcount := @countP_append_missing α nameOf (key (nameOf x)) known wanted
  have hany : wanted.any (fun y => key (nameOf y) == key (nameOf x)) = true :=
    List.any_eq_true.2 ⟨x, hx, beq_self_eq_true _⟩
  rw [hany] at hcount
  have hpos : 0 < (known ++ (missing nameOf known wanted).map nameOf).countP
      (key · == key (nameOf x)) := by
    rw [hcount]
    split <;> simp_all
  obtain ⟨k, hk, hkey⟩ := List.countP_pos_iff.1 hpos
  exact ⟨k, hk, hkey⟩

/-- The missing things are those whose names are not known; of several with spellings of one name it is the
first one. -/
theorem missing_eq (known : List String) (wanted : List α) :
    missing nameOf known wanted =
      (wanted.filter fun x => !known.any (same · (nameOf x))).eraseDupsBy fun x y =>
        same (nameOf x) (nameOf y) := by
  induction wanted generalizing known with
  | nil => rfl
  | cons x wanted ih =>
    rw [missing, List.filter_cons]
    cases h : known.any (same · (nameOf x)) with
    | true => exact ih known
    | false =>
      rw [if_neg Bool.false_ne_true, Bool.not_false, if_pos rfl, List.eraseDupsBy_cons, ih, List.filter_filter]
      -- from here on the name of `x` is known, too
      refine congrArg (x :: List.eraseDupsBy _ ·) (List.filter_congr fun y _ => ?_)
      rw [List.any_append, List.any_cons, List.any_nil, Bool.or_false, Bool.not_or, Bool.and_comm,
        same_comm (nameOf x)]
      cases same (nameOf y) (nameOf x) <;> rfl

/-- What is missing of two parts is what is missing of the first one, and then of the other one. -/
theorem missing_append (known : List String) (wanted further : List α) :
    missing nameOf known (wanted ++ further) =
      missing nameOf known wanted ++
        missing nameOf (known ++ (missing nameOf known wanted).map nameOf) further := by
  induction wanted generalizing known with
  | nil => simp [missing]
  | cons x wanted ih =>
    rw [List.cons_append, missing, missing]
    split
    · exact ih known
    · rw [ih, List.map_cons, List.cons_append, List.append_assoc, List.singleton_append]

/-- With the missing names behind the known ones, nothing is missing. -/
theorem missing_self (known : List String) (wanted : List α) :
    missing nameOf (known ++ (missing nameOf known wanted).map nameOf) wanted = [] :=
  missing_eq_nil_iff.2 fun _ hx => exists_same_of_mem hx

/-! ## Backslashes at the ends -/

variable {c : Char} {name : String}

/-- Only backslashes are dropped from the ends of a name. -/
theorem mem_bare_of_mem (h : c ∈ name.toList) (hc : c ≠ '\\') : c ∈ (bare name).toList := by
  have hdrop {l : List Char} (hl : c ∈ l) : c ∈ l.dropWhile (· == '\\') := by
    rw [← List.takeWhile_append_dropWhile (p := (· == '\\')) (l := l), List.mem_append] at hl
    exact hl.resolve_left fun htake => hc (eq_of_beq (List.mem_takeWhile_imp (p := (· == '\\')) htake))
  rw [bare, String.toList_ofList]
  exact List.mem_reverse.2 (hdrop (List.mem_reverse.2 (hdrop h)))

/-- Something is left of a name that is not made of backslashes alone. -/
theorem bare_ne_of_mem (h : c ∈ name.toList) (hc : c ≠ '\\') : bare name ≠ "" := fun hbare => by
  have hmem := mem_bare_of_mem h hc
  rw [hbare] at hmem
  cases hmem

/-- What is left of a name without the backslashes at its ends has none there. -/
theorem bare_bare_ne (h : bare name ≠ "") : bare (bare name) ≠ "" := by
  have hne : ((name.toList.dropWhile (· == '\\')).reverse.dropWhile (· == '\\')) ≠ [] := fun hnil => by
    refine h ?_
    rw [bare, Text.trimWhile, Text.dropTailWhile, hnil]
    rfl
  refine bare_ne_of_mem (c := List.head _ hne) ?_ fun hc => ?_
  · rw [bare, String.toList_ofList]
    exact List.mem_reverse.2 (List.head_mem hne)
  · have hlast := List.head_dropWhile_not (· == '\\') hne
    rw [hc] at hlast
    cases hlast

end PhpGraft.Name

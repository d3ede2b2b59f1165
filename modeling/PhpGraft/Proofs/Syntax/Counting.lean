import PhpGraft.Proofs.Syntax.Agreement
import PhpGraft.Proofs.Syntax.Blocks

/-!
# Counting brackets

The arguments of an attribute, a value and the source of a block are each read by a loop that counts the
brackets which are open. What such a loop does at one token is said here once: it fails at the end of the
source, it ends, or it goes on behind the token with as many brackets open as `depthAfter` says. What holds
of a loop is shown by induction over the tokens, with these cases for its step.
-/

namespace PhpGraft.Reader

variable {t : Token} {ts rest : List Token} {depth : Nat}

/-- How many brackets are open behind a token, if `depth` are open ahead of it. -/
def depthAfter (depth : Nat) (t : Token) : Nat :=
  if t.isOpener then depth + 1 else if t.closer?.isSome then depth - 1 else depth

/-- An opening bracket is counted. -/
theorem depthAfter_opener (h : t.isOpener = true) : depthAfter depth t = depth + 1 := if_pos h

/-- A closing delimiter is counted off. -/
theorem depthAfter_closer (h : t.closer?.isSome = true) : depthAfter depth t = depth - 1 := by
  rw [depthAfter, if_neg (by simp [(isEnd_of_closer h).2]), if_pos h]

/-- Other tokens leave the brackets as they are. -/
theorem depthAfter_plain (hopen : t.isOpener = false) (hclose : t.closer? = none) :
    depthAfter depth t = depth := by
  rw [depthAfter, if_neg (by simp [hopen]), if_neg (by simp [hclose])]

/-- The count depends only on the kind of a token. -/
theorem blind_depthAfter (depth : Nat) : Blind (depthAfter depth) := fun t t' h => by
  rw [depthAfter, depthAfter, blind_isOpener h, blind_closer? h]

/-! ## The arguments of an attribute -/

section Arguments

variable {taken : List Token} {args : List String}

/-- The arguments end with the parenthesis that closes them. -/
theorem attributeArgs?_close (h : t.isPunct ')' = true) :
    attributeArgs? taken 0 (t :: ts) = some (consArgument taken.reverse [], ts) := by
  have hkind : t.kind = .punct ')' := eq_of_beq h
  obtain ⟨hend, hopen⟩ := isEnd_of_closer (t := t) (by rw [Token.closer?, hkind]; rfl)
  rw [attributeArgs?, if_neg (by simp [hend]), if_neg (by simp [hopen]), if_pos ⟨rfl, h⟩]

/-- A comma outside all brackets ends an argument. -/
theorem attributeArgs?_comma (h : t.isPunct ',' = true) (hmore : attributeArgs? [] 0 ts = some (args, rest)) :
    attributeArgs? taken 0 (t :: ts) = some (consArgument taken.reverse args, rest) := by
  have hkind : t.kind = .punct ',' := eq_of_beq h
  have hend : t.isEnd = false := by rw [Token.isEnd, hkind]; rfl
  have hopen : t.isOpener = false := by simp [Token.isOpener, Token.isPunct, hkind]
  have hlast : t.isPunct ')' = false := by rw [Token.isPunct, hkind]; rfl
  rw [attributeArgs?, if_neg (by simp [hend]), if_neg (by simp [hopen]), if_neg (by simp [hlast]),
    if_pos ⟨rfl, h⟩, hmore]
  rfl

/-- Any other token belongs to the argument. -/
theorem attributeArgs?_more (hend : t.isEnd = false)
    (h : depth = 0 → t.isPunct ')' = false ∧ t.isPunct ',' = false) :
    attributeArgs? taken depth (t :: ts) = attributeArgs? (t :: taken) (depthAfter depth t) ts := by
  rw [attributeArgs?, if_neg (by simp [hend]), depthAfter]
  split
  · rfl
  · rw [if_neg fun hlast => Bool.eq_false_iff.1 (h hlast.1).1 hlast.2,
      if_neg fun hcomma => Bool.eq_false_iff.1 (h hcomma.1).2 hcomma.2]

/-- At each token the arguments end, another one begins, or the one that is read goes on. -/
theorem attributeArgs?_cases (h : attributeArgs? taken depth (t :: ts) = some (args, rest)) :
    (depth = 0 ∧ t.isPunct ')' = true ∧ args = consArgument taken.reverse [] ∧ rest = ts) ∨
      (depth = 0 ∧ t.isPunct ',' = true ∧
        ∃ more, attributeArgs? [] 0 ts = some (more, rest) ∧ args = consArgument taken.reverse more) ∨
      (t.isEnd = false ∧ (depth = 0 → t.isPunct ')' = false ∧ t.isPunct ',' = false) ∧
        attributeArgs? (t :: taken) (depthAfter depth t) ts = some (args, rest)) := by
  by_cases hend : t.isEnd = true
  · rw [attributeArgs?, if_pos hend] at h
    cases h
  have hgoes : t.isEnd = false := Bool.eq_false_iff.2 hend
  by_cases hlast : depth = 0 ∧ t.isPunct ')' = true
  · obtain ⟨rfl, hlast⟩ := hlast
    rw [attributeArgs?_close hlast] at h
    obtain ⟨rfl, rfl⟩ := Prod.mk.inj (Option.some.inj h)
    exact .inl ⟨rfl, hlast, rfl, rfl⟩
  by_cases hcomma : depth = 0 ∧ t.isPunct ',' = true
  · obtain ⟨rfl, hcomma⟩ := hcomma
    have hopen : t.isOpener = false := by simp [Token.isOpener, Token.isPunct, eq_of_beq hcomma]
    rw [attributeArgs?, if_neg hend, if_neg (by simp [hopen]), if_neg hlast, if_pos ⟨rfl, hcomma⟩] at h
    obtain ⟨⟨more, behind⟩, hmore, he⟩ := Option.map_eq_some_iff.1 h
    obtain ⟨rfl, rfl⟩ := Prod.mk.inj he
    exact .inr (.inl ⟨rfl, hcomma, more, hmore, rfl⟩)
  have hno (hdepth : depth = 0) : t.isPunct ')' = false ∧ t.isPunct ',' = false :=
    ⟨Bool.eq_false_iff.2 fun hp => hlast ⟨hdepth, hp⟩, Bool.eq_false_iff.2 fun hp => hcomma ⟨hdepth, hp⟩⟩
  rw [attributeArgs?_more hgoes hno] at h
  exact .inr (.inr ⟨hgoes, hno, h⟩)

end Arguments

/-! ## Values -/

section Values

variable {stop : Char → Bool} {taken : List Token}

/-- A value ends ahead of a character that stops it, or of a delimiter that closes nothing in it. -/
theorem expressionSpan?_here (hend : t.isEnd = false)
    (h : t.isPunctWhere stop = true ∨ t.closer?.isSome = true) :
    expressionSpan? stop 0 (t :: ts) = some ([], t :: ts) := by
  obtain hstop | hclose := h
  · rw [expressionSpan?, if_neg (by simp [hend]), if_pos ⟨rfl, hstop⟩]
  · have hopen := (isEnd_of_closer hclose).2
    simp [expressionSpan?, hend, hopen, hclose]

/-- Any other token belongs to the value. -/
theorem expressionSpan?_more (hend : t.isEnd = false)
    (h : depth = 0 → t.isPunctWhere stop = false ∧ t.closer? = none) :
    expressionSpan? stop depth (t :: ts) =
      (expressionSpan? stop (depthAfter depth t) ts).map (consFirst t) := by
  rw [expressionSpan?, if_neg (by simp [hend]), if_neg fun hstop => Bool.eq_false_iff.1 (h hstop.1).1 hstop.2,
    depthAfter]
  split
  · rfl
  split
  · next hclose =>
    refine if_neg fun hdepth => ?_
    rw [(h hdepth).2] at hclose
    cases hclose
  · rfl

/-- At each token a value ends, or it goes on. -/
theorem expressionSpan?_cases (h : expressionSpan? stop depth (t :: ts) = some (taken, rest)) :
    t.isEnd = false ∧
      ((depth = 0 ∧ (t.isPunctWhere stop = true ∨ t.closer?.isSome = true) ∧ taken = [] ∧ rest = t :: ts) ∨
        ((depth = 0 → t.isPunctWhere stop = false ∧ t.closer? = none) ∧
          ∃ more, expressionSpan? stop (depthAfter depth t) ts = some (more, rest) ∧ taken = t :: more)) := by
  by_cases hend : t.isEnd = true
  · rw [expressionSpan?, if_pos hend] at h
    cases h
  have hgoes : t.isEnd = false := Bool.eq_false_iff.2 hend
  refine ⟨hgoes, ?_⟩
  by_cases hhere : depth = 0 ∧ (t.isPunctWhere stop = true ∨ t.closer?.isSome = true)
  · obtain ⟨rfl, hhere⟩ := hhere
    rw [expressionSpan?_here hgoes hhere] at h
    obtain ⟨rfl, rfl⟩ := Prod.mk.inj (Option.some.inj h)
    exact .inl ⟨rfl, hhere, rfl, rfl⟩
  have hno (hdepth : depth = 0) : t.isPunctWhere stop = false ∧ t.closer? = none := by
    obtain ⟨hstop, hclose⟩ := not_or.1 fun hor => hhere ⟨hdepth, hor⟩
    exact ⟨Bool.eq_false_iff.2 hstop, Option.not_isSome_iff_eq_none.1 hclose⟩
  rw [expressionSpan?_more hgoes hno] at h
  obtain ⟨⟨more, behind⟩, hmore, he⟩ := Option.map_eq_some_iff.1 h
  obtain ⟨rfl, rfl⟩ := Prod.mk.inj he
  exact .inr ⟨hno, more, hmore, rfl⟩

end Values

/-! ## Blocks -/

section Source

variable {source : List Char}

/-- A block ends with a delimiter that closes nothing in it. -/
theorem blockSource?_close (h : t.closer?.isSome = true) : blockSource? 0 (t :: ts) = some (t.gap, ts) :=
  @blockSource?_of_depth [] t 0 rfl h ts

/-- Any other token belongs to the block. -/
theorem blockSource?_more (hend : t.isEnd = false) (h : depth = 0 → t.closer? = none) :
    blockSource? depth (t :: ts) = (blockSource? (depthAfter depth t) ts).map (consSource t) := by
  rw [blockSource?, if_neg (by simp [hend]), depthAfter]
  split
  · rfl
  split
  · next hclose =>
    refine if_neg fun hdepth => ?_
    rw [h hdepth] at hclose
    cases hclose
  · rfl

/-- At each token a block ends, or it goes on. -/
theorem blockSource?_cases (h : blockSource? depth (t :: ts) = some (source, rest)) :
    (depth = 0 ∧ t.closer?.isSome = true ∧ source = t.gap ∧ rest = ts) ∨
      (t.isEnd = false ∧ (depth = 0 → t.closer? = none) ∧
        ∃ more, blockSource? (depthAfter depth t) ts = some (more, rest) ∧
          source = t.gap ++ t.text ++ more) := by
  by_cases hend : t.isEnd = true
  · rw [blockSource?, if_pos hend] at h
    cases h
  have hgoes : t.isEnd = false := Bool.eq_false_iff.2 hend
  by_cases hlast : depth = 0 ∧ t.closer?.isSome = true
  · obtain ⟨rfl, hlast⟩ := hlast
    rw [blockSource?_close hlast] at h
    obtain ⟨rfl, rfl⟩ := Prod.mk.inj (Option.some.inj h)
    exact .inl ⟨rfl, hlast, rfl, rfl⟩
  have hno (hdepth : depth = 0) : t.closer? = none :=
    Option.not_isSome_iff_eq_none.1 fun hclose => hlast ⟨hdepth, hclose⟩
  rw [blockSource?_more hgoes hno] at h
  obtain ⟨⟨more, behind⟩, hmore, he⟩ := Option.map_eq_some_iff.1 h
  obtain ⟨rfl, rfl⟩ := Prod.mk.inj he
  exact .inr ⟨hgoes, hno, more, hmore, rfl⟩

end Source

end PhpGraft.Reader

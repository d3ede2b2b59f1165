import PhpGraft.Syntax.Node
import PhpGraft.Syntax.Reader.Progress

/-!
# Reading attributes

An attribute list stands in `#[` and `]`; several lists can follow one another. The arguments of an
attribute are cut apart at the commas outside all brackets, and their source is kept.
-/

namespace PhpGraft.Reader

/-- An argument of an attribute, given by its tokens, ahead of further arguments. An empty one
counts for nothing. -/
def consArgument (taken : List Token) (args : List String) : List String :=
  if taken.isEmpty then args else String.ofList (Token.span taken) :: args

/-- Reads the arguments of an attribute behind the opening parenthesis. The tokens in `taken` belong
to the argument that is being read, the last one first. -/
def attributeArgs? (taken : List Token) (depth : Nat) :
    List Token → Option (List String × List Token)
  | [] => none
  | t :: ts =>
    if t.isEnd then none
    else if t.isOpener then attributeArgs? (t :: taken) (depth + 1) ts
    else if depth = 0 ∧ t.isPunct ')' then some (consArgument taken.reverse [], ts)
    else if depth = 0 ∧ t.isPunct ',' then
      (attributeArgs? [] 0 ts).map fun (args, rest) => (consArgument taken.reverse args, rest)
    else attributeArgs? (t :: taken) (if t.closer?.isSome then depth - 1 else depth) ts

/-- Reading the arguments of an attribute takes nothing back. -/
theorem neverGrows_attributeArgs? (taken : List Token) (depth : Nat) :
    NeverGrows (attributeArgs? taken depth) := by
  intro ts args rest h
  induction ts generalizing taken depth args with
  | nil => simp [attributeArgs?] at h
  | cons t ts ih =>
    rw [List.length_cons]
    unfold attributeArgs? at h
    repeat' split at h
    · simp at h
    · exact Nat.le_succ_of_le (ih _ _ h)
    · obtain ⟨_, rfl⟩ := Prod.mk.inj (Option.some.inj h)
      exact Nat.le_succ _
    · obtain ⟨_, hs, e⟩ := Option.map_eq_some_iff.1 h
      obtain ⟨_, rfl⟩ := Prod.mk.inj e
      exact Nat.le_succ_of_le (ih _ _ hs)
    · exact Nat.le_succ_of_le (ih _ _ h)
    · exact Nat.le_succ_of_le (ih _ _ h)

/-- Reads an attribute: a name and, where a parenthesis follows, its arguments. -/
def singleAttribute : Reader Attribute := do
  let name ← name
  if ← eatPunct '(' then return ⟨name, ← attributeArgs? [] 0⟩
  return ⟨name, []⟩

/-- A reader of an attribute advances. -/
theorem advances_singleAttribute : Advances singleAttribute := by
  refine advances_bind_left advances_name fun _ => neverGrows_bind (neverGrows_eat _) fun _ => ?_
  split
  · exact neverGrows_bind (neverGrows_attributeArgs? _ _) fun _ => neverGrows_pure _
  · exact neverGrows_pure _

/-- Reads the attributes of one list up to and including its closing bracket. A comma may stand
behind the last one. -/
def attributeList (ts : List Token) : Option (List Attribute × List Token) :=
  match _h : singleAttribute ts with
  | none => none
  | some (a, rest) =>
    if (peek rest).isPunct ']' then some ([a], advance rest)
    else if (peek rest).isPunct ',' then
      if (peek (advance rest)).isPunct ']' then some ([a], advance (advance rest))
      else (attributeList (advance rest)).map fun (as, rest) => (a :: as, rest)
    else none
termination_by ts.length
decreasing_by
  have := advances_singleAttribute _h
  have := length_advance_le rest
  omega

/-- A reader of an attribute list advances. -/
theorem advances_attributeList : Advances attributeList := by
  intro ts as rest h
  unfold attributeList at h
  split at h
  · simp at h
  · next a mid e =>
    have := advances_singleAttribute e
    have := length_advance_le mid
    repeat' split at h
    · obtain ⟨_, rfl⟩ := Prod.mk.inj (Option.some.inj h)
      omega
    · obtain ⟨_, rfl⟩ := Prod.mk.inj (Option.some.inj h)
      have := length_advance_le (advance mid)
      omega
    · obtain ⟨_, hs, e⟩ := Option.map_eq_some_iff.1 h
      obtain ⟨_, rfl⟩ := Prod.mk.inj e
      have := advances_attributeList hs
      omega
    · simp at h
termination_by ts => ts.length

/-- Reads the attribute lists that come next, if any do. -/
def attributes (ts : List Token) : Option (List Attribute × List Token) :=
  if (peek ts).kind == .attributeOpen then
    match _h : attributeList (advance ts) with
    | none => none
    | some (as, rest) => (attributes rest).map fun (more, rest) => (as ++ more, rest)
  else some ([], ts)
termination_by ts.length
decreasing_by
  have := advances_attributeList _h
  have := length_advance_le ts
  omega

/-- Reading attribute lists takes nothing back. -/
theorem neverGrows_attributes : NeverGrows attributes := by
  intro ts as rest h
  unfold attributes at h
  split at h
  · split at h
    · simp at h
    · next as mid e =>
      have := advances_attributeList e
      have := length_advance_le ts
      obtain ⟨_, hs, e⟩ := Option.map_eq_some_iff.1 h
      obtain ⟨_, rfl⟩ := Prod.mk.inj e
      have := neverGrows_attributes hs
      omega
  · obtain ⟨_, rfl⟩ := Prod.mk.inj (Option.some.inj h)
    exact Nat.le_refl _
termination_by ts => ts.length

end PhpGraft.Reader

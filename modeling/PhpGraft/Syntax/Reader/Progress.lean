import PhpGraft.Syntax.Reader.Cursor

/-!
# Progress of readers

A reader advances if it takes at least one token whenever it succeeds. A loop that reads one thing
after another ends because what it reads advances. Advancing composes: one step of several that
advances is enough, as long as the others take nothing back.
-/

namespace PhpGraft.Reader

variable {α β : Type}

/-- A reader that never leaves more tokens than there were. -/
def NeverGrows (r : Reader α) : Prop :=
  ∀ ⦃ts x rest⦄, r ts = some (x, rest) → rest.length ≤ ts.length

/-- A reader that leaves fewer tokens than there were. -/
def Advances (r : Reader α) : Prop :=
  ∀ ⦃ts x rest⦄, r ts = some (x, rest) → rest.length < ts.length

/-- A reader that advances takes nothing back. -/
theorem Advances.neverGrows {r : Reader α} (h : Advances r) : NeverGrows r :=
  fun _ _ _ e => Nat.le_of_lt (h e)

/-- What is left behind a token is shorter than a list with a token. -/
theorem length_advance_lt {ts : List Token} (h : skipDocs ts ≠ []) :
    (advance ts).length < ts.length := by
  have := length_skipDocs_le ts
  have := List.length_pos_iff.2 h
  simp only [advance, List.length_tail]
  omega

/-- A token that is not the end of the source stands in the list. -/
theorem skipDocs_ne_nil {ts : List Token} {p : Token → Bool} (hp : p ended = false)
    (h : p (peek ts) = true) : skipDocs ts ≠ [] := by
  intro e
  simp [peek, e, hp] at h

/-- Taking a token that is not the end of the source leaves fewer tokens. -/
theorem length_advance_lt_of {ts : List Token} {p : Token → Bool} (hp : p ended = false)
    (h : p (peek ts) = true) : (advance ts).length < ts.length :=
  length_advance_lt (skipDocs_ne_nil hp h)

/-- Two readers one after the other, step by step. -/
theorem bind_eq_some {r : Reader α} {f : α → Reader β} {ts rest : List Token} {y : β}
    (h : (r >>= f) ts = some (y, rest)) :
    ∃ x mid, r ts = some (x, mid) ∧ f x mid = some (y, rest) := by
  rcases e : r ts with _ | ⟨x, mid⟩
  · simp [bind, StateT.bind, e] at h
  · exact ⟨x, mid, rfl, by simpa [bind, StateT.bind, e] using h⟩

/-- A reader whose answer is changed, step by step. -/
theorem map_eq_some {r : Reader α} {f : α → β} {ts rest : List Token} {y : β}
    (h : (f <$> r) ts = some (y, rest)) : ∃ x, r ts = some (x, rest) ∧ f x = y := by
  rcases e : r ts with _ | ⟨x, mid⟩
  · simp [Functor.map, StateT.map, e] at h
  · simp only [Functor.map, StateT.map, e] at h
    obtain ⟨rfl, rfl⟩ : f x = y ∧ mid = rest := by simpa [pure, bind] using h
    exact ⟨x, rfl, rfl⟩

/-- An answer without reading takes nothing back. -/
theorem neverGrows_pure (x : α) : NeverGrows (pure x) := by
  intro ts y rest h
  obtain ⟨_, rfl⟩ := Prod.mk.inj (Option.some.inj h)
  exact Nat.le_refl _

/-- A reader that always fails advances. -/
theorem advances_failure : Advances (failure : Reader α) := by
  intro ts x rest h
  exact absurd h (by simp [failure, Alternative.failure, StateT.failure])

/-- Readers that take nothing back do so one after the other. -/
theorem neverGrows_bind {r : Reader α} {f : α → Reader β} (hr : NeverGrows r)
    (hf : ∀ x, NeverGrows (f x)) : NeverGrows (r >>= f) := by
  intro ts y rest h
  obtain ⟨x, mid, h₁, h₂⟩ := bind_eq_some h
  exact Nat.le_trans (hf x h₂) (hr h₁)

/-- Two readers advance if the first one does. -/
theorem advances_bind_left {r : Reader α} {f : α → Reader β} (hr : Advances r)
    (hf : ∀ x, NeverGrows (f x)) : Advances (r >>= f) := by
  intro ts y rest h
  obtain ⟨x, mid, h₁, h₂⟩ := bind_eq_some h
  exact Nat.lt_of_le_of_lt (hf x h₂) (hr h₁)

/-- Two readers advance if the second one does. -/
theorem advances_bind_right {r : Reader α} {f : α → Reader β} (hr : NeverGrows r)
    (hf : ∀ x, Advances (f x)) : Advances (r >>= f) := by
  intro ts y rest h
  obtain ⟨x, mid, h₁, h₂⟩ := bind_eq_some h
  exact Nat.lt_of_lt_of_le (hf x h₂) (hr h₁)

/-- Changing the answer of a reader does not change whether it advances. -/
theorem advances_map {r : Reader α} (f : α → β) (hr : Advances r) : Advances (f <$> r) := by
  intro ts y rest h
  obtain ⟨x, h, _⟩ := map_eq_some h
  exact hr h

/-- Looking ahead takes nothing. -/
theorem neverGrows_look : NeverGrows look := by
  intro ts y rest h
  obtain ⟨_, rfl⟩ : peek ts = y ∧ ts = rest := by simpa [look] using h
  exact Nat.le_refl _

/-- An optional token is taken or left. -/
theorem neverGrows_eat (p : Token → Bool) : NeverGrows (eat p) := by
  intro ts y rest h
  unfold eat at h
  split at h
  · obtain ⟨_, rfl⟩ : true = y ∧ advance ts = rest := by simpa using h
    exact length_advance_le ts
  · obtain ⟨_, rfl⟩ : false = y ∧ ts = rest := by simpa using h
    exact Nat.le_refl _

/-- A reader of a token that is not the end of the source advances. -/
theorem advances_expect {p : Token → Bool} (hp : p ended = false) : Advances (expect p) := by
  intro ts y rest h
  unfold expect at h
  split at h
  · next hpeek =>
    obtain ⟨_, rfl⟩ : peek ts = y ∧ advance ts = rest := by simpa using h
    exact length_advance_lt_of hp hpeek
  · simp at h

/-- A reader of a character advances. -/
theorem advances_expectPunct (c : Char) : Advances (expectPunct c) :=
  advances_bind_left (advances_expect rfl) fun _ => neverGrows_pure _

/-- A reader of a name advances. -/
theorem advances_name : Advances name :=
  advances_bind_left (advances_expect rfl) fun _ => neverGrows_pure _

/-- A reader of a variable advances. -/
theorem advances_variableName : Advances variableName :=
  advances_bind_left (advances_expect rfl) fun _ => neverGrows_pure _

/-- One or more things with commas between them. -/
def commaList (item : Reader α) (hitem : Advances item) (ts : List Token) :
    Option (List α × List Token) :=
  match _h : item ts with
  | none => none
  | some (x, rest) =>
    if (peek rest).isPunct ',' then
      match commaList item hitem (advance rest) with
      | none => none
      | some (xs, rest) => some (x :: xs, rest)
    else some ([x], rest)
termination_by ts.length
decreasing_by
  have := hitem _h
  have := length_advance_le rest
  omega

/-- A reader of one or more things advances. -/
theorem advances_commaList {item : Reader α} (hitem : Advances item) :
    Advances (commaList item hitem) := by
  intro ts xs rest h
  unfold commaList at h
  split at h
  · simp at h
  · next x mid e =>
    have := hitem e
    have := length_advance_le mid
    split at h
    · split at h
      · simp at h
      · next ys r e =>
        have := advances_commaList hitem e
        obtain ⟨_, rfl⟩ : _ ∧ r = rest := by simpa using h
        omega
    · obtain ⟨_, rfl⟩ : _ ∧ mid = rest := by simpa using h
      assumption
termination_by ts => ts.length

/-- One or more names with commas between them. -/
def nameList : Reader (List String) := commaList name advances_name

/-- A reader of one or more names advances. -/
theorem advances_nameList : Advances nameList := advances_commaList advances_name

end PhpGraft.Reader

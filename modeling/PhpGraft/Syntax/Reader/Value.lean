import PhpGraft.Syntax.Expr
import PhpGraft.Syntax.Reader.Progress
import PhpGraft.Syntax.TypeHint

/-!
# Reading values and types

An expression is first cut out of the tokens: it ends at a given character or at a closing delimiter
that it does not open. If its tokens are a literal through and through, it is read as one, and else
its source is kept.
-/

namespace PhpGraft.Reader

/-- What is left of a list of tokens when at least one was taken. -/
abbrev Behind (ts : List Token) := { rest : List Token // rest.length < ts.length }

/-- What is left of a list of tokens when any number was taken. -/
abbrev Within (ts : List Token) := { rest : List Token // rest.length ≤ ts.length }

/-- The constant of a name, or the constant of the class of that name if a double colon and another
name come next. -/
def constantOf (name : String) (ts : List Token) : Expr × Within ts :=
  match ts with
  | ⟨.doubleColon, _, _, _⟩ :: ⟨.name, gap, text, start⟩ :: rest =>
    (.classConst name (Token.mk .name gap text start).source,
      ⟨rest, Nat.le_succ_of_le (Nat.le_succ _)⟩)
  | ts => (.const name, ⟨ts, Nat.le_refl _⟩)

mutual

/-- Reads a literal, a constant or a constant of a class. Doc comments are no part of one. -/
def literal (ts : List Token) : Option (Expr × Behind ts) :=
  match ts with
  | [] => none
  | t :: rest =>
    let single (e : Expr) : Option (Expr × Behind (t :: rest)) :=
      some (e, ⟨rest, Nat.lt_succ_self _⟩)
    match t.kind with
    | .int n => single (.int n)
    | .float x => single (.float x)
    | .string (some s) => single (.string s)
    | .punct '-' =>
      match rest with
      | ⟨.int n, _, _, _⟩ :: more =>
        some (.int (-(n : Int)), ⟨more, Nat.lt_succ_of_lt (Nat.lt_succ_self _)⟩)
      | ⟨.float x, _, _, _⟩ :: more =>
        some (.float x.neg, ⟨more, Nat.lt_succ_of_lt (Nat.lt_succ_self _)⟩)
      | _ => none
    | .punct '[' =>
      match entries ']' rest with
      | some (items, ⟨more, h⟩) => some (.array items, ⟨more, Nat.lt_succ_of_lt h⟩)
      | none => none
    | .name =>
      if t.isKeyword "null" then single .null
      else if t.isKeyword "true" then single (.bool true)
      else if t.isKeyword "false" then single (.bool false)
      else if t.isKeyword "array" && rest.head?.any (·.isPunct '(') then
        match entries ')' rest.tail with
        | some (items, ⟨more, h⟩) =>
          have := Nat.lt_of_lt_of_le h (List.tail_sublist rest).length_le
          some (.array items, ⟨more, Nat.lt_succ_of_lt this⟩)
        | none => none
      else
        let (e, ⟨more, h⟩) := constantOf t.source rest
        some (e, ⟨more, Nat.lt_succ_of_le h⟩)
    | _ => none
termination_by 2 * ts.length

/-- Reads the value behind a key and an arrow, if an arrow comes next: the entry for what was read
first. -/
def entry (first : Expr) (ts : List Token) : Option (ArrayItem × Within ts) :=
  match ts with
  | ⟨.doubleArrow, _, _, _⟩ :: source =>
    match literal source with
    | some (v, ⟨more, h⟩) => some (.keyed first v, ⟨more, Nat.le_succ_of_le (Nat.le_of_lt h)⟩)
    | none => none
  | ts => some (.value first, ⟨ts, Nat.le_refl _⟩)
termination_by 2 * ts.length

/-- Reads the entries of an array up to and including the closing delimiter. -/
def entries (close : Char) (ts : List Token) : Option (List ArrayItem × Behind ts) :=
  match ts with
  | [] => none
  | t :: rest =>
    if t.isPunct close then some ([], ⟨rest, Nat.lt_succ_self _⟩)
    else
      match literal (t :: rest) with
      | none => none
      | some (first, ⟨behind, h₁⟩) =>
        match entry first behind with
        | some (item, ⟨separator :: behind, h₂⟩) =>
          have h : behind.length < (t :: rest).length := Nat.lt_trans h₂ h₁
          if separator.isPunct ',' then
            match entries close behind with
            | some (items, ⟨more, h₃⟩) => some (item :: items, ⟨more, Nat.lt_trans h₃ h⟩)
            | none => none
          else if separator.isPunct close then some ([item], ⟨behind, h⟩)
          else none
        | _ => none
termination_by 2 * ts.length + 1
decreasing_by all_goals simp_all only [List.length_cons]; omega

end

/-- The literal that some tokens are, all of them. -/
def literal? (ts : List Token) : Option Expr :=
  match literal ts with
  | some (e, ⟨[], _⟩) => some e
  | _ => none

/-- A split list of tokens with another token ahead of its first part. -/
def consFirst (t : Token) (parts : List Token × List Token) : List Token × List Token :=
  (t :: parts.1, parts.2)

/-- Cuts off the tokens up to the first one outside all brackets that satisfies `stop`, or that
closes a bracket which is not among them. The source must not end before. -/
def expressionSpan? (stop : Char → Bool) (depth : Nat) :
    List Token → Option (List Token × List Token)
  | [] => none
  | t :: ts =>
    if t.isEnd then none
    else if depth = 0 ∧ t.isPunctWhere stop then some ([], t :: ts)
    else if t.isOpener then (expressionSpan? stop (depth + 1) ts).map (consFirst t)
    else if t.closer?.isSome then
      if depth = 0 then some ([], t :: ts)
      else (expressionSpan? stop (depth - 1) ts).map (consFirst t)
    else (expressionSpan? stop depth ts).map (consFirst t)

/-- What was cut off and what is left are the tokens. -/
theorem append_of_expressionSpan? {stop : Char → Bool} {depth : Nat} {ts taken rest : List Token}
    (h : expressionSpan? stop depth ts = some (taken, rest)) : taken ++ rest = ts := by
  induction ts generalizing depth taken rest with
  | nil => simp [expressionSpan?] at h
  | cons t ts ih =>
    have here (h : some ([], t :: ts) = some (taken, rest)) : taken ++ rest = t :: ts := by
      obtain ⟨rfl, rfl⟩ := Prod.mk.inj (Option.some.inj h)
      rfl
    have step {d : Nat} (h : (expressionSpan? stop d ts).map (consFirst t) = some (taken, rest)) :
        taken ++ rest = t :: ts := by
      obtain ⟨_, hs, e⟩ := Option.map_eq_some_iff.1 h
      obtain ⟨rfl, rfl⟩ := Prod.mk.inj e
      exact congrArg (t :: ·) (ih hs)
    unfold expressionSpan? at h
    repeat' split at h
    · simp at h
    · exact here h
    · exact step h
    · exact here h
    · exact step h
    · exact step h

/-- Reads an expression that ends where `stop` says or at a closing delimiter. -/
def expression (stop : Char → Bool) : Reader Expr := fun ts =>
  match expressionSpan? stop 0 (skipDocs ts) with
  | none | some ([], _) => none
  | some (taken, rest) =>
    some ((literal? taken).getD (.raw (String.ofList (Token.span taken))), rest)

/-- A reader of an expression advances. -/
theorem advances_expression (stop : Char → Bool) : Advances (expression stop) := by
  intro ts e rest h
  unfold expression at h
  split at h
  · simp at h
  · simp at h
  · next taken mid hne hs =>
    obtain ⟨_, rfl⟩ : _ ∧ mid = rest := by simpa using h
    have := length_skipDocs_le ts
    have := congrArg List.length (append_of_expressionSpan? hs)
    have := List.length_pos_iff.2 hne
    rw [List.length_append] at *
    omega

/-- Reads what continues a type: names behind `|`, or behind `&` where a name follows it. -/
def typeNames (soFar : String) (ts : List Token) : Option (String × List Token) :=
  match _h : skipDocs ts with
  | [] => some (soFar, ts)
  | t :: rest =>
    let n := peek rest
    if t.isPunct '|' || (t.isPunct '&' && n.kind == .name) then
      if n.kind == .name then typeNames (soFar ++ t.source ++ n.source) (advance rest) else none
    else some (soFar, ts)
termination_by ts.length
decreasing_by
  have := length_skipDocs_le ts
  have := length_advance_le rest
  simp only [_h, List.length_cons] at *
  omega

/-- Reads a type: `?Foo`, `int|string`, `A&B`. -/
def typeHint : Reader TypeHint := do
  let nullable ← eatPunct '?'
  let first ← name
  let names ← typeNames first
  return ⟨nullable, names⟩

/-- Reading what continues a type takes nothing back. -/
theorem neverGrows_typeNames (soFar : String) : NeverGrows (typeNames soFar) := by
  intro ts names rest h
  unfold typeNames at h
  split at h
  · obtain ⟨_, rfl⟩ : _ ∧ ts = rest := by simpa using h
    exact Nat.le_refl _
  · next t mid e =>
    have : mid.length < ts.length := by
      have := length_skipDocs_le ts
      rw [e, List.length_cons] at this
      omega
    have := length_advance_le mid
    dsimp only at h
    split at h
    · split at h
      · have := neverGrows_typeNames _ h
        omega
      · simp at h
    · obtain ⟨_, rfl⟩ : _ ∧ ts = rest := by simpa using h
      exact Nat.le_refl _
termination_by ts => ts.length

/-- A reader of a type advances. -/
theorem advances_typeHint : Advances typeHint :=
  advances_bind_right (neverGrows_eat _) fun _ =>
    advances_bind_left advances_name fun _ =>
      neverGrows_bind (neverGrows_typeNames _) fun _ => neverGrows_pure _

end PhpGraft.Reader

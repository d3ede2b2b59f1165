import PhpGraft.Syntax.Comment
import PhpGraft.Syntax.Reader.Member

/-!
# Reading the items of a scope

The items of a class body or of a namespace block are read one after another. Ahead of each item,
and ahead of the end, the comments of the gap are placed: behind the item before, by themselves, or
above the item that follows.
-/

namespace PhpGraft.Reader

/-- Items of a scope that were read so far, the last one first. -/
abbrev Items := List Outline

namespace Items

/-- The items with the comments of a gap behind the last one of them and by themselves. -/
def settle (items : Items) (p : Placement) : Items :=
  let items :=
    match items, p.trailing? with
    | last :: before, some text => last.withTrailing (some (String.ofList text)) :: before
    | _, _ => items
  (p.detached.map Outline.verbatim).reverse ++ items

/-- The items with those of one statement or member behind them, of which the first takes the
comment above it. -/
def push (items : Items) (comment? : Option (List Char)) : List Outline → Items
  | [] => items
  | first :: more =>
    more.reverse ++ first.withComment (comment?.map String.ofList) :: items

end Items

/-- The comments ahead of the next item, placed. -/
def placement (afterItem : Bool) (ts : List Token) : Placement :=
  let ahead := peek ts
  Placement.ofGap ((ts.head?.map Token.gap).getD []) afterItem (ahead.isEnd || ahead.isPunct '}')

/-- Reads what a scope holds up to and including its closing brace. It is an error, `unclosed`, if
the source ends before. -/
def scopeItems (item : ItemReader) (hitem : ItemReader.Advances item) (unclosed : ParseError)
    (items : Items) (ts : List Token) : Except ParseError (List Outline × List Token) :=
  let place := placement (!items.isEmpty) ts
  let items := items.settle place
  if (peek ts).isPunct '}' then .ok (items.reverse, advance ts)
  else if (peek ts).isEnd then .error unclosed
  else
    match _h : item ts with
    | .error e => .error e
    | .ok (found, rest) => scopeItems item hitem unclosed (items.push place.leading? found) rest
termination_by ts.length
decreasing_by exact hitem _h

/-- Reading what a scope holds takes at least one token. -/
theorem length_lt_of_scopeItems {item : ItemReader} {hitem : ItemReader.Advances item}
    {unclosed : ParseError} {items : Items} {ts rest : List Token} {found : List Outline}
    (h : scopeItems item hitem unclosed items ts = .ok (found, rest)) :
    rest.length < ts.length := by
  unfold scopeItems at h
  dsimp only at h
  split at h
  · next hp =>
    obtain ⟨_, rfl⟩ := Prod.mk.inj (Except.ok.inj h)
    exact length_advance_lt_of (p := (·.isPunct '}')) rfl hp
  · split at h
    · simp at h
    · split at h
      · simp at h
      · next e =>
        have := hitem e
        have := length_lt_of_scopeItems h
        omega
termination_by ts.length

end PhpGraft.Reader

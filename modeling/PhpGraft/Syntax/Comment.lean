import PhpGraft.Syntax.Lexer

/-!
# Comments between items

The comments in a gap form runs: those of a run have no blank line between them. Comments that start
on the line of the item before trail that item, a run directly above an item leads it, and every
other run stands by itself. No comment of a gap is in two of these places, and none is lost.
-/

namespace PhpGraft

open Text

/-- A comment in a gap. -/
structure GapComment where
  /-- The white space ahead of the comment. -/
  lead : List Char
  /-- The comment itself. -/
  text : List Char

/-- The comments of a gap, and the white space behind the last one. -/
structure GapParts where
  /-- The comments in order. -/
  comments : List GapComment
  /-- What stands behind the last comment. -/
  tail : List Char

namespace GapParts

/-- The number of characters behind the first one of the comment that starts with `c`. -/
def commentLength? (c : Char) (cs : List Char) : Option Nat :=
  if c = '#' ∨ (c = '/' ∧ cs.head? = some '/') then some (Lexer.lineCommentLength cs)
  else if c = '/' ∧ cs.head? = some '*' then
    some (((indexOf? Lexer.starSlash (cs.drop 1)).map (· + 3)).getD cs.length)
  else none

/-- Takes a gap apart. -/
def ofGap (gap : List Char) : GapParts :=
  match _h : gap.dropWhile isBlank with
  | [] => ⟨[], gap⟩
  | c :: cs =>
    match commentLength? c cs with
    | none => ⟨[], gap⟩
    | some n =>
      let rest := ofGap (cs.drop n)
      ⟨⟨gap.takeWhile isBlank, c :: cs.take n⟩ :: rest.comments, rest.tail⟩
termination_by gap.length
decreasing_by
  have := length_dropWhile_le isBlank gap
  rw [_h] at this
  simp only [List.length_cons, List.length_drop] at *
  omega

end GapParts

/-- Comments without a blank line between them. -/
structure CommentRun where
  /-- The white space ahead of the first comment. -/
  lead : List Char
  /-- The comments, and the white space between them. -/
  text : List Char
  /-- Whether the run starts on the line of the token before. -/
  sameLine : Bool
  /-- Whether there is a blank line ahead of the run. -/
  blankBefore : Bool

namespace CommentRun

/-- The run of one comment; `first` says that no comment stands ahead of it in its gap. -/
def start (first : Bool) (c : GapComment) : CommentRun :=
  let newlines := newlineCount c.lead
  ⟨c.lead, c.text, first && newlines == 0, 1 < newlines⟩

/-- Whether a comment with `newlines` newlines ahead of it continues a run. A run that starts behind
an item ends with its line. -/
def takes (run : CommentRun) (newlines : Nat) : Bool :=
  newlines == 0 || (newlines == 1 && !run.sameLine)

/-- The runs of some comments that follow those of `run`. -/
def followedBy (run : CommentRun) : List GapComment → List CommentRun
  | [] => [run]
  | c :: cs =>
    if run.takes (newlineCount c.lead) then
      followedBy { run with text := run.text ++ c.lead ++ c.text } cs
    else run :: followedBy (start false c) cs

/-- The runs of the comments in a gap. -/
def ofComments : List GapComment → List CommentRun
  | [] => []
  | c :: cs => followedBy (start true c) cs

/-- Whether a run trails the item before it, given that all runs ahead of it do. At the end of a
scope a run trails unless a blank line stands ahead of it. -/
def trails (atEnd : Bool) (run : CommentRun) : Bool := run.sameLine || (atEnd && !run.blankBefore)

end CommentRun

/-- Where the comments of a gap belong. -/
structure Placement where
  /-- The text behind the item before the gap. -/
  trailing? : Option (List Char)
  /-- The runs that stand by themselves. -/
  detached : List (List Char)
  /-- The run above the item behind the gap. -/
  leading? : Option (List Char)

namespace Placement

/-- Places the comments of a gap. The gap may follow an item, and it may be the last of its scope.
-/
def ofGap (gap : List Char) (afterItem atEnd : Bool) : Placement :=
  let parts := GapParts.ofGap gap
  let runs := CommentRun.ofComments parts.comments
  let trailing := if afterItem then runs.takeWhile (CommentRun.trails atEnd) else []
  let rest := runs.drop trailing.length
  let trailing? :=
    if trailing.isEmpty then none else some (trailing.flatMap fun run => run.lead ++ run.text)
  match rest.getLast? with
  | none => ⟨trailing?, [], none⟩
  | some last =>
    if !atEnd && newlineCount parts.tail ≤ 1 then
      ⟨trailing?, rest.dropLast.map CommentRun.text, some last.text⟩
    else ⟨trailing?, rest.map CommentRun.text, none⟩

end Placement

end PhpGraft

import Mathlib.Data.List.Forall2
import PhpGraft.Proofs.Syntax.Comments

/-!
# Where the comments of a gap go

The comments of a gap are cut into runs, and each run goes to one place: behind the item before the
gap, by itself, or above the item behind the gap. The places hold the runs in their order
(`Placement.Splits`), so that no comment of the gap is in two of them and none is in no place at all.
-/

namespace PhpGraft

open Text

/-- Some runs of comments in a gap are placed: first those behind the item before the gap, then those
that stand by themselves, and last the one above the item behind the gap. -/
structure Placement.Splits (p : Placement) (gap : List Char)
    (trailing detached leading : List (List GapComment)) : Prop where
  /-- The gap is the comments of all runs, one after the other, with white space around them. -/
  comments : Commented gap (trailing ++ detached ++ leading).flatten
  /-- No run is without comments. -/
  ne_nil : ∀ us ∈ trailing ++ detached ++ leading, us ≠ []
  /-- The runs are those without a blank line between their comments. -/
  runs : (CommentRun.ofComments (trailing ++ detached ++ leading).flatten).map CommentRun.text =
    (trailing ++ detached ++ leading).map joinedComments
  /-- The first runs are behind the item before the gap, as they stand in the source. -/
  trailing? : p.trailing? =
    if trailing.isEmpty then none else some (spelledComments trailing.flatten)
  /-- The next runs stand by themselves. -/
  detached : p.detached = detached.map joinedComments
  /-- The last run is above the item behind the gap. -/
  leading? : p.leading? = leading.head?.map joinedComments
  /-- No more than one run is above the item behind the gap. -/
  leading_le_one : leading.length ≤ 1

namespace CommentRun

/-- A run that has certain comments. -/
structure Holds (run : CommentRun) (us : List GapComment) : Prop where
  ne_nil : us ≠ []
  text : run.text = joinedComments us
  spelled : run.lead ++ run.text = spelledComments us

/-- The run of one comment has it. -/
theorem holds_start (first : Bool) (c : GapComment) : (start first c).Holds [c] where
  ne_nil := List.cons_ne_nil _ _
  text := (List.append_nil c.text).symm
  spelled := (List.append_nil (c.lead ++ c.text)).symm

/-- A run that takes another comment has that one, too. -/
theorem Holds.take {run : CommentRun} {us : List GapComment} (h : run.Holds us) (c : GapComment) :
    Holds { run with text := run.text ++ c.lead ++ c.text } (us ++ [c]) where
  ne_nil := by simp
  text := by rw [joinedComments_append h.ne_nil, h.text]
  spelled :=
    calc run.lead ++ (run.text ++ c.lead ++ c.text)
        = (run.lead ++ run.text) ++ (c.lead ++ c.text) := by simp only [List.append_assoc]
      _ = spelledComments us ++ spelledComments [c] := by
          rw [h.spelled, spelledComments, spelledComments, List.flatMap_singleton]
      _ = spelledComments (us ++ [c]) := List.flatMap_append.symm

/-- The comments of a run and those that follow it are in the runs from that one on. -/
theorem exists_groups_followedBy {run : CommentRun} {us cs : List GapComment} (h : run.Holds us) :
    ∃ groups, List.Forall₂ Holds (followedBy run cs) groups ∧ groups.flatten = us ++ cs := by
  induction cs generalizing run us with
  | nil => exact ⟨[us], .cons h .nil, by simp⟩
  | cons c cs ih =>
    rw [followedBy]
    split
    · -- The comment continues the run.
      obtain ⟨groups, hgroups, hflat⟩ := ih (h.take c)
      refine ⟨groups, hgroups, ?_⟩
      rw [hflat, List.append_assoc, List.singleton_append]
    · -- The comment starts another run.
      obtain ⟨groups, hgroups, hflat⟩ := ih (holds_start false c)
      refine ⟨us :: groups, .cons h hgroups, ?_⟩
      rw [List.flatten_cons, hflat, List.singleton_append]

/-- Each comment of a gap is in exactly one run. -/
theorem exists_groups (cs : List GapComment) :
    ∃ groups, List.Forall₂ Holds (ofComments cs) groups ∧ groups.flatten = cs := by
  cases cs with
  | nil => exact ⟨[], .nil, rfl⟩
  | cons c cs => exact exists_groups_followedBy (holds_start true c)

variable {runs : List CommentRun} {groups : List (List GapComment)}

/-- The texts of some runs are their comments in a row. -/
theorem map_text (h : List.Forall₂ Holds runs groups) : runs.map text = groups.map joinedComments := by
  induction h with
  | nil => rfl
  | cons hrun _ ih => rw [List.map_cons, List.map_cons, hrun.text, ih]

/-- Some runs with the white space ahead of each are all of their comments as they stand. -/
theorem flatMap_spelled (h : List.Forall₂ Holds runs groups) :
    (runs.flatMap fun run => run.lead ++ run.text) = spelledComments groups.flatten := by
  induction h with
  | nil => rfl
  | @cons run us runs groups hrun _ ih =>
    calc ((run :: runs).flatMap fun run => run.lead ++ run.text)
        = (run.lead ++ run.text) ++ runs.flatMap fun run => run.lead ++ run.text :=
          List.flatMap_cons
      _ = spelledComments us ++ spelledComments groups.flatten := by rw [hrun.spelled, ih]
      _ = spelledComments (us :: groups).flatten := by
          rw [List.flatten_cons]
          exact List.flatMap_append.symm

/-- No run is without comments. -/
theorem ne_nil_of_holds (h : List.Forall₂ Holds runs groups) : ∀ us ∈ groups, us ≠ [] := by
  induction h with
  | nil => exact List.forall_mem_nil _
  | cons hrun _ ih => exact List.forall_mem_cons.2 ⟨hrun.ne_nil, ih⟩

/-- Runs in two parts have their comments in two parts. -/
theorem exists_holds_append {front back : List CommentRun}
    (h : List.Forall₂ Holds (front ++ back) groups) :
    ∃ us vs, groups = us ++ vs ∧ List.Forall₂ Holds front us ∧ List.Forall₂ Holds back vs := by
  refine ⟨groups.take front.length, groups.drop front.length, (List.take_append_drop _ _).symm,
    ?_, ?_⟩
  · have htake := List.forall₂_take front.length h
    rwa [List.take_left] at htake
  · have hdrop := List.forall₂_drop front.length h
    rwa [List.drop_left] at hdrop

end CommentRun

namespace Placement

/-- The runs of a gap are cut in three: those that trail the item before the gap, those that stand by
themselves, and the one that leads the item behind the gap. -/
theorem exists_ofGap (gap : List Char) (afterItem atEnd : Bool) :
    ∃ trailing detached leading,
      CommentRun.ofComments (GapParts.ofGap gap).comments = trailing ++ detached ++ leading ∧
        leading.length ≤ 1 ∧ (afterItem = false → trailing = []) ∧ (atEnd = true → leading = []) ∧
        ofGap gap afterItem atEnd =
          ⟨if trailing.isEmpty then none
            else some (trailing.flatMap fun run => run.lead ++ run.text),
            detached.map CommentRun.text, leading.head?.map CommentRun.text⟩ := by
  unfold ofGap
  dsimp only
  set runs := CommentRun.ofComments (GapParts.ofGap gap).comments with hruns
  set trailing := if afterItem then runs.takeWhile (CommentRun.trails atEnd) else [] with htrailing
  have hnone : afterItem = false → trailing = [] := fun hafter => by rw [htrailing, hafter]; rfl
  -- What trails the item is a front part of the runs.
  have hsplit : runs = trailing ++ runs.drop trailing.length := by
    have hprefix : trailing <+: runs := by
      rw [htrailing]
      split
      · exact List.takeWhile_prefix _
      · exact List.nil_prefix
    obtain ⟨rest, hrest⟩ := hprefix
    conv_rhs => rw [← hrest, List.drop_left]
    exact hrest.symm
  set rest := runs.drop trailing.length with hrest
  cases hlast : rest.getLast? with
  | none =>
    have hnil : rest = [] := List.getLast?_eq_none_iff.1 hlast
    rw [hnil] at hsplit
    exact ⟨trailing, [], [], by simpa using hsplit, Nat.zero_le _, hnone, fun _ => rfl, rfl⟩
  | some last =>
    dsimp only
    split
    · next hleads =>
      have hend : atEnd = false := by simpa using (Bool.and_eq_true_iff.1 hleads).1
      refine ⟨trailing, rest.dropLast, [last], ?_, Nat.le_refl _, hnone, ?_, rfl⟩
      · rw [List.append_assoc, List.dropLast_append_getLast? last hlast]
        exact hsplit
      · intro h
        rw [hend] at h
        cases h
    · exact ⟨trailing, rest, [], by simpa using hsplit, Nat.zero_le _, hnone, fun _ => rfl, rfl⟩

/-- Each comment of a gap goes to exactly one place: some to the item before the gap if there is one,
and none to an item behind it where the scope ends. -/
theorem exists_splits {gap : List Char} (h : Lexer.gapLength gap = .ok gap.length)
    (afterItem atEnd : Bool) :
    ∃ trailing detached leading,
      (ofGap gap afterItem atEnd).Splits gap trailing detached leading ∧
        (afterItem = false → trailing = []) ∧ (atEnd = true → leading = []) := by
  obtain ⟨trailing, detached, leading, hruns, hone, hfirst, hlast, hplaced⟩ :=
    exists_ofGap gap afterItem atEnd
  obtain ⟨groups, hgroups, hflat⟩ := CommentRun.exists_groups (GapParts.ofGap gap).comments
  have hall := hgroups
  rw [hruns] at hgroups
  obtain ⟨front, ls, rfl, hfront, hls⟩ := CommentRun.exists_holds_append hgroups
  obtain ⟨ts, ds, rfl, hts, hds⟩ := CommentRun.exists_holds_append hfront
  refine ⟨ts, ds, ls, ?_, fun hafter => ?_, fun hend => ?_⟩
  · refine
      { comments := hflat ▸ commented_of_gapLength h
        ne_nil := CommentRun.ne_nil_of_holds hall
        runs := by rw [hflat]; exact CommentRun.map_text hall
        trailing? := ?_
        detached := ?_
        leading? := ?_
        leading_le_one := hls.length_eq ▸ hone }
    · rw [hplaced]
      show (if trailing.isEmpty then none else _) = _
      rw [CommentRun.flatMap_spelled hts]
      cases hts <;> rfl
    · rw [hplaced]
      exact CommentRun.map_text hds
    · rw [hplaced]
      show leading.head?.map CommentRun.text = _
      rw [← List.head?_map, CommentRun.map_text hls, List.head?_map]
  · have hnil := hfirst hafter
    subst hnil
    cases hts
    rfl
  · have hnil := hlast hend
    subst hnil
    cases hls
    rfl

end Placement

end PhpGraft

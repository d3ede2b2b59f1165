import PhpGraft.Proofs.Syntax.Continuing
import PhpGraft.Syntax.Reader.Scope

/-!
# Comments that stand by themselves

A gap is taken apart into its comments, and these are put together again in runs. A run is some
comments in a row with the white space between them, so that it is a gap by itself: source that is a
run of comments has no tokens (`gapLength_of_detached`).
-/

namespace PhpGraft

open Lexer Text

/-- A gap that consists of certain comments, white space ahead of each of them, and white space behind
the last one. -/
inductive Commented : List Char → List GapComment → Prop where
  | blank {w : List Char} (hw : w.all isBlank = true) : Commented w []
  | cons {lead v : List Char} {c : Char} {n : Nat} {cs : List GapComment}
    (hlead : lead.all isBlank = true) (hc : isBlank c = false)
    (hcomment : plainComment? c v = .ok (some n)) (hn : n ≤ v.length)
    (hwhole : gapLength (v.drop n) = .ok (v.drop n).length) (h : Commented (v.drop n) cs) :
    Commented (lead ++ c :: v) (⟨lead, c :: v.take n⟩ :: cs)

/-- Comments in a row, with the white space ahead of each of them. -/
def spelledComments (cs : List GapComment) : List Char := cs.flatMap fun c => c.lead ++ c.text

/-- Comments in a row, without the white space ahead of the first one. -/
def joinedComments : List GapComment → List Char
  | [] => []
  | c :: cs => c.text ++ spelledComments cs

/-- A comment is put behind others with the white space ahead of it. -/
theorem joinedComments_append {us : List GapComment} (h : us ≠ []) (c : GapComment) :
    joinedComments (us ++ [c]) = joinedComments us ++ c.lead ++ c.text := by
  obtain ⟨u, us, rfl⟩ := List.exists_cons_of_ne_nil h
  simp [joinedComments, spelledComments]

/-- A plain comment is found as one where a gap is taken apart. -/
theorem commentLength?_of_plainComment? {c : Char} {cs : List Char} {n : Nat}
    (h : plainComment? c cs = .ok (some n)) : GapParts.commentLength? c cs = some n := by
  unfold plainComment? at h
  unfold GapParts.commentLength?
  by_cases hsharp : c = '#'
  · rw [if_pos hsharp] at h
    rw [if_pos (.inl hsharp)]
    split at h
    · cases h
    · exact Except.ok.inj h
  rw [if_neg hsharp] at h
  by_cases hslash : c = '/' ∧ cs.head? = some '/'
  · rw [if_pos hslash] at h
    rw [if_pos (.inr hslash)]
    exact Except.ok.inj h
  rw [if_neg hslash] at h
  rw [if_neg (not_or.2 ⟨hsharp, hslash⟩)]
  by_cases hstar : c = '/' ∧ cs.head? = some '*'
  · rw [if_pos hstar] at h ⊢
    split at h
    · cases h
    · split at h
      · next k hk =>
        rw [hk]
        exact Except.ok.inj h
      · cases h
  · rw [if_neg hstar] at h
    cases h

/-- White space has no comments. -/
theorem ofGap_blank {w : List Char} (hw : w.all isBlank = true) : GapParts.ofGap w = ⟨[], w⟩ := by
  unfold GapParts.ofGap
  split
  · rfl
  · next e => rw [dropWhile_blank hw] at e; cases e

/-- A gap that starts with a comment has the comments of what stands behind that one, too. -/
theorem ofGap_comment {w v : List Char} {c : Char} {n : Nat} (hw : w.all isBlank = true)
    (hc : isBlank c = false) (hcomment : plainComment? c v = .ok (some n)) :
    GapParts.ofGap (w ++ c :: v) = ⟨⟨w, c :: v.take n⟩ :: (GapParts.ofGap (v.drop n)).comments,
      (GapParts.ofGap (v.drop n)).tail⟩ := by
  have hfirst : (c :: v).dropWhile isBlank = c :: v := List.dropWhile_cons_of_neg (by simp [hc])
  have hdrop : (w ++ c :: v).dropWhile isBlank = c :: v := (dropWhile_blank_append hw _).trans hfirst
  have htake : (w ++ c :: v).takeWhile isBlank = w := by
    rw [takeWhile_blank_append hw, List.takeWhile_cons_of_neg (by simp [hc]), List.append_nil]
  conv => lhs; unfold GapParts.ofGap
  split
  · next e => rw [hdrop] at e; cases e
  · next e =>
    rw [hdrop] at e
    obtain ⟨rfl, rfl⟩ := List.cons.inj e
    rw [commentLength?_of_plainComment? hcomment, htake]

/-- A gap consists of the comments that it is taken apart into. -/
theorem commented_of_gapLength {g : List Char} (h : gapLength g = .ok g.length) :
    Commented g (GapParts.ofGap g).comments := by
  have hsplit := List.takeWhile_append_dropWhile (p := isBlank) (l := g)
  have hlength := congrArg List.length hsplit
  rw [List.length_append] at hlength
  rcases gapLength_cases h with ⟨hd, -⟩ | ⟨c, v, hd, -, hg⟩ | ⟨c, v, n, more, hd, hc, hm, hg⟩
  · rw [hd, List.append_nil] at hsplit
    have hblank : g.all isBlank = true := hsplit ▸ List.all_takeWhile
    rw [ofGap_blank hblank]
    exact .blank hblank
  · rw [hd, List.length_cons] at hlength
    omega
  · rw [hd, List.length_cons] at hlength
    have hn := plainComment?_le hc
    have hmore : (v.drop n).length = more := by
      rw [List.length_drop]
      omega
    have hparts := ofGap_comment (w := g.takeWhile isBlank) List.all_takeWhile (isBlank_of_dropWhile hd) hc
    rw [← hd, List.takeWhile_append_dropWhile] at hparts
    have hwhole : gapLength (v.drop n) = .ok (v.drop n).length := hmore ▸ hm
    have hshorter : v.length < g.length := by omega
    rw [hparts]
    conv => arg 1; rw [← hsplit, hd]
    exact .cons List.all_takeWhile (isBlank_of_dropWhile hd) hc hn hwhole (commented_of_gapLength hwhole)
termination_by g.length
decreasing_by
  rw [List.length_drop]
  omega

namespace Commented

variable {g : List Char} {us vs : List GapComment}

/-- The comments at the front of a gap stand at its front with the white space ahead of them. -/
theorem exists_spelled (h : Commented g (us ++ vs)) : ∃ s, g = spelledComments us ++ s := by
  induction us generalizing g with
  | nil => exact ⟨g, rfl⟩
  | cons u us ih =>
    cases h with
    | @cons lead v c n _ _ _ _ _ _ h =>
      obtain ⟨s, hs⟩ := ih h
      refine ⟨s, ?_⟩
      rw [spelledComments, List.flatMap_cons, ← spelledComments]
      simp only [List.append_assoc, List.cons_append]
      rw [← hs, List.take_append_drop]

/-- Comments behind others stand at the front of a gap, too. -/
theorem exists_behind (h : Commented g (us ++ vs)) : ∃ g', Commented g' vs := by
  induction us generalizing g with
  | nil => exact ⟨g, h⟩
  | cons u us ih =>
    cases h with
    | cons _ _ _ _ _ h => exact ih h

/-- Comments in a row are a gap with the white space ahead of each of them. -/
theorem gapLength_spelled (h : Commented g (us ++ vs)) :
    gapLength (spelledComments us) = .ok (spelledComments us).length := by
  induction us generalizing g with
  | nil => exact gapLength_blank rfl
  | cons u us ih =>
    cases h with
    | @cons lead v c n _ hlead hc hcomment hn hwhole h =>
      obtain ⟨s, hs⟩ := h.exists_spelled
      have hrest : gapLength ((v.take n ++ spelledComments us).drop n) =
          .ok (spelledComments us).length := by
        rw [List.drop_left' (List.length_take_of_le hn)]
        exact ih h
      have hcut : plainComment? c (v.take n ++ spelledComments us) = .ok (some n) := by
        have hv : v = v.take n ++ spelledComments us ++ s := by
          rw [List.append_assoc, ← hs, List.take_append_drop]
        rw [hv] at hcomment hwhole
        refine plainComment?_cut_gap hcomment ?_ hwhole ?_
        · rw [List.length_append, List.length_take_of_le hn]
          exact Nat.le_add_right _ _
        · have hlength := List.length_take_of_le hn
          simp only [List.length_drop, List.length_append]
          omega
      have hgap := gapLength_append hlead (gapLength_cons_comment hc hcut hrest)
      have hspelled : spelledComments (⟨lead, c :: v.take n⟩ :: us) =
          lead ++ c :: (v.take n ++ spelledComments us) := by
        simp [spelledComments]
      rw [hspelled, hgap]
      simp only [List.length_append, List.length_cons, List.length_take_of_le hn]
      exact congrArg _ (by omega)

/-- Comments in a row are a gap by themselves. -/
theorem gapLength_joined (h : Commented g (us ++ vs)) :
    gapLength (joinedComments us) = .ok (joinedComments us).length := by
  have hspelled := h.gapLength_spelled
  cases us with
  | nil => exact hspelled
  | cons u us =>
    have hlead : u.lead.all isBlank = true := by
      cases h
      assumption
    rw [spelledComments, List.flatMap_cons, List.append_assoc] at hspelled
    obtain ⟨k, hk, hlength⟩ := gapLength_of_append hlead hspelled
    obtain rfl : (joinedComments (u :: us)).length = k := by
      rw [List.length_append] at hlength
      exact Nat.add_left_cancel hlength
    exact hk

end Commented

namespace CommentRun

/-- A run has the comments of a part of a gap, in a row. -/
theorem exists_joined (pre us : List GapComment) {cs : List GapComment} {run r : CommentRun}
    (hus : us ≠ []) (htext : run.text = joinedComments us) (hr : r ∈ followedBy run cs) :
    ∃ pre' us' post, pre ++ us ++ cs = pre' ++ us' ++ post ∧ r.text = joinedComments us' := by
  induction cs generalizing pre us run with
  | nil =>
    obtain rfl := List.mem_singleton.1 hr
    exact ⟨pre, us, [], rfl, htext⟩
  | cons c cs ih =>
    rw [followedBy] at hr
    split at hr
    · obtain ⟨pre', us', post, hsplit, hr⟩ :=
        ih pre (us ++ [c]) (by simp) (by rw [joinedComments_append hus, ← htext]) hr
      exact ⟨pre', us', post, by rw [← hsplit]; simp, hr⟩
    · rcases List.mem_cons.1 hr with rfl | hr
      · exact ⟨pre, us, c :: cs, rfl, htext⟩
      · obtain ⟨pre', us', post, hsplit, hr⟩ :=
          ih (pre ++ us) [c] (by simp) (List.append_nil c.text).symm hr
        exact ⟨pre', us', post, by rw [← hsplit]; simp, hr⟩

/-- A run is a gap by itself. -/
theorem gapLength_text {g : List Char} {cs : List GapComment} (h : Commented g cs) {r : CommentRun}
    (hr : r ∈ ofComments cs) : gapLength r.text = .ok r.text.length := by
  cases cs with
  | nil => cases hr
  | cons c cs =>
    obtain ⟨pre, us, post, hsplit, htext⟩ := exists_joined [] [c] (by simp)
      (List.append_nil c.text).symm hr
    have hall : c :: cs = pre ++ (us ++ post) := by rw [← List.append_assoc, ← hsplit]; rfl
    obtain ⟨g', h'⟩ := Commented.exists_behind (hall ▸ h)
    rw [htext]
    exact h'.gapLength_joined

end CommentRun

/-- Comments that stand by themselves form a run. -/
theorem Placement.exists_run {gap text : List Char} {afterItem atEnd : Bool}
    (h : text ∈ (Placement.ofGap gap afterItem atEnd).detached) :
    ∃ r ∈ CommentRun.ofComments (GapParts.ofGap gap).comments, r.text = text := by
  unfold Placement.ofGap at h
  dsimp only at h
  split at h
  · cases h
  · split at h
    · obtain ⟨r, hr, htext⟩ := List.mem_map.1 h
      exact ⟨r, List.mem_of_mem_drop ((List.dropLast_sublist _).mem hr), htext⟩
    · obtain ⟨r, hr, htext⟩ := List.mem_map.1 h
      exact ⟨r, List.mem_of_mem_drop hr, htext⟩

/-- Comments that stand by themselves are a gap by themselves. -/
theorem gapLength_of_detached {start : Nat} {cs text : List Char} {before inner : List Token}
    (h : tokens start cs = .ok (before ++ inner)) {afterItem : Bool}
    (htext : text ∈ (Reader.placement afterItem inner).detached) :
    gapLength text = .ok text.length := by
  obtain ⟨r, hr, rfl⟩ := Placement.exists_run htext
  refine CommentRun.gapLength_text (commented_of_gapLength ?_) hr
  cases inner with
  | nil => exact gapLength_blank rfl
  | cons t inner =>
    obtain ⟨start', cs', hts⟩ := tokens_suffix h (by simp)
    exact gapLength_gap hts

end PhpGraft

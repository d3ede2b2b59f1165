import Mathlib.Data.List.TakeWhile
import PhpGraft.Graft.Member

/-!
# Where members go

The place of a member is found from the members that happen to be there (`Edit.insertIndex`). If the
ranked ones among them stand in order, then the place has a description that does not speak of the
search: it is the seam between members of ranks up to that of the new one and members of higher
ranks. Between the two there can be a stretch of members without a rank, and the seam is at its
front; if no member of a lower rank is there, it is at the end of the stretch (`Seam`). There is just
one seam (`insertIndex_of_seam`), and it does not move relative to other members when one of another
rank is placed. So members of different ranks can be placed in either order (`place_comm`).
-/

namespace PhpGraft

variable {α : Type} {rank? : α → Option Nat} {rank : Nat} {a b l : List α}

/-- The ranked members of a list stand in the order of their ranks. -/
def Graded (rank? : α → Option Nat) (l : List α) : Prop := (l.filterMap rank?).Pairwise (· ≤ ·)

/-- A list with a member of a rank at its place. -/
def place (rank? : α → Option Nat) (rank : Nat) (x : α) (l : List α) : List α :=
  l.take (Edit.insertIndex (l.map rank?) rank) ++ x :: l.drop (Edit.insertIndex (l.map rank?) rank)

/-- The place between two parts of a list where a member of a rank belongs. -/
structure Seam (rank? : α → Option Nat) (rank : Nat) (a b : List α) : Prop where
  /-- No member of a higher rank stands ahead of it. -/
  low : ∀ x ∈ a, ∀ k ∈ rank? x, k ≤ rank
  /-- All ranked members behind it have a higher rank. -/
  high : ∀ x ∈ b, ∀ k ∈ rank? x, rank < k
  /-- It stands right behind a ranked member; or there is none ahead of it, and then it stands right
  ahead of a ranked member or at the end. -/
  tight : (∃ front last, a = front ++ [last] ∧ (rank? last).isSome = true) ∨
    (∀ x ∈ a, rank? x = none) ∧
      (b = [] ∨ ∃ first back, b = first :: back ∧ (rank? first).isSome = true)

/-! ## The place is a seam -/

/-- The last element that satisfies a test is found where it stands. -/
theorem Edit.lastIndex?_append {p : α → Bool} {x : α} (hx : p x = true)
    (hb : ∀ y ∈ b, p y = false) : lastIndex? p (a ++ x :: b) = some a.length := by
  have hnone : b.reverse.findIdx? p = none := by
    rw [List.findIdx?_eq_none_iff]
    exact fun y hy => hb y (List.mem_reverse.1 hy)
  unfold lastIndex?
  rw [List.reverse_append, List.reverse_cons, List.append_assoc, List.findIdx?_append, hnone]
  simp [List.findIdx?_cons, hx]

/-- No element is found where none satisfies the test. -/
theorem Edit.lastIndex?_eq_none {p : α → Bool} (h : ∀ y ∈ l, p y = false) :
    lastIndex? p l = none := by
  unfold lastIndex?
  rw [Option.map_eq_none_iff, List.findIdx?_eq_none_iff]
  exact fun y hy => h y (List.mem_reverse.1 hy)

/-- Of several numbers, the search goes through the higher ones first. -/
theorem findSome?_range_reverse {β : Type} {f : Nat → Option β} {top n : Nat} {v : β}
    (hle : top ≤ n) (htop : f top = some v) (h : ∀ k, top < k → k ≤ n → f k = none) :
    (List.range (n + 1)).reverse.findSome? f = some v := by
  induction n with
  | zero =>
    obtain rfl := Nat.le_zero.1 hle
    simp [htop]
  | succ n ih =>
    rw [List.range_succ, List.reverse_append, List.reverse_singleton, List.singleton_append,
      List.findSome?_cons]
    rcases Nat.lt_or_ge n top with hn | hn
    · obtain rfl : top = n + 1 := by omega
      rw [htop]
    · rw [h (n + 1) (by omega) (Nat.le_refl _)]
      exact ih hn fun k hk hkn => h k hk (Nat.le_succ_of_le hkn)

/-- The search finds the seam. -/
theorem Edit.insertIndex_of_seam (hl : Graded rank? (a ++ b)) (h : Seam rank? rank a b) :
    insertIndex ((a ++ b).map rank?) rank = a.length := by
  have hhigh : ∀ k ≤ rank, ∀ r ∈ b.map rank?, (r == some k) = false := by
    intro k hk r hr
    obtain ⟨x, hx, rfl⟩ := List.mem_map.1 hr
    refine beq_false_of_ne fun he => ?_
    have := h.high x hx k he
    omega
  rcases h.tight with ⟨front, last, rfl, hlast⟩ | ⟨hnone, hback⟩
  · -- The last member ahead of the seam has the highest rank that is searched for with success.
    obtain ⟨top, htop⟩ := Option.isSome_iff_exists.1 hlast
    have hle : top ≤ rank := h.low last (by simp) top htop
    have hfront : ∀ x ∈ front ++ [last], ∀ k ∈ rank? x, k ≤ top := by
      intro x hx k hk
      rcases List.mem_append.1 hx with hx | hx
      · rw [Graded, List.filterMap_append, List.filterMap_append, List.pairwise_append,
          List.pairwise_append] at hl
        exact hl.1.2.2 k (List.mem_filterMap.2 ⟨x, hx, hk⟩) top
          (List.mem_filterMap.2 ⟨last, List.mem_singleton_self _, htop⟩)
      · rw [List.mem_singleton.1 hx, htop] at hk
        exact Nat.le_of_eq (Option.some.inj hk).symm
    have hfind : (List.range (rank + 1)).reverse.findSome?
        (fun r => lastIndex? (· == some r) ((front ++ [last] ++ b).map rank?)) =
          some front.length := by
      refine findSome?_range_reverse hle ?_ fun k hk hkr => lastIndex?_eq_none fun r hr => ?_
      · rw [List.map_append, List.map_append, List.append_assoc, List.map_singleton,
          List.singleton_append, lastIndex?_append (by simp [htop]) (hhigh top hle),
          List.length_map]
      · rw [List.map_append] at hr
        rcases List.mem_append.1 hr with hr | hr
        · obtain ⟨x, hx, rfl⟩ := List.mem_map.1 hr
          refine beq_false_of_ne fun he => ?_
          have := hfront x hx k he
          omega
        · exact hhigh k hkr r hr
    rw [insertIndex, hfind, List.length_append, List.length_singleton]
  · -- No member of a rank that is searched for is there, so the first one of a higher rank counts.
    have hunranked : ∀ r ∈ a.map rank?, r = none := by
      intro r hr
      obtain ⟨x, hx, rfl⟩ := List.mem_map.1 hr
      exact hnone x hx
    have hfind : (List.range (rank + 1)).reverse.findSome?
        (fun r => lastIndex? (· == some r) ((a ++ b).map rank?)) = none := by
      rw [List.findSome?_eq_none_iff]
      intro k hk
      have hkr : k ≤ rank := Nat.le_of_lt_succ (List.mem_range.1 (List.mem_reverse.1 hk))
      refine lastIndex?_eq_none fun r hr => ?_
      rw [List.map_append] at hr
      rcases List.mem_append.1 hr with hr | hr
      · rw [hunranked r hr]
        rfl
      · exact hhigh k hkr r hr
    have hskip : (a.map rank?).findIdx? (fun r => r.any (rank < ·)) = none := by
      rw [List.findIdx?_eq_none_iff]
      intro r hr
      rw [hunranked r hr]
      rfl
    rw [insertIndex, hfind, List.map_append, List.findIdx?_append, hskip]
    rcases hback with rfl | ⟨first, back, rfl, hfirst⟩
    · simp
    · obtain ⟨k, hk⟩ := Option.isSome_iff_exists.1 hfirst
      have hlt : rank < k := h.high first List.mem_cons_self k hk
      simp [List.findIdx?_cons, hk, hlt]

/-- Where members stand in the order of their ranks, there is a seam for every rank. -/
theorem exists_seam (rank : Nat) (hl : Graded rank? l) :
    ∃ a b, l = a ++ b ∧ Seam rank? rank a b := by
  cases hlast : l.reverse.find? (fun x => (rank? x).any (· ≤ rank)) with
  | some last =>
    -- The seam is right behind the last member of a rank that is not higher.
    obtain ⟨hp, behind, ahead, hrev, hbehind⟩ := List.find?_eq_some_iff_append.1 hlast
    obtain ⟨top, htop, hle⟩ := (Option.any_eq_true _ _).1 hp
    have hle : top ≤ rank := of_decide_eq_true hle
    have hsplit : l = (ahead.reverse ++ [last]) ++ behind.reverse := by
      have := congrArg List.reverse hrev
      simpa using this
    refine ⟨_, _, hsplit, ?_, ?_, .inl ⟨_, _, rfl, by rw [htop]; rfl⟩⟩
    · intro x hx k hk
      rcases List.mem_append.1 hx with hx | hx
      · rw [hsplit, Graded, List.filterMap_append, List.filterMap_append, List.pairwise_append,
          List.pairwise_append] at hl
        have := hl.1.2.2 k (List.mem_filterMap.2 ⟨x, hx, hk⟩) top
          (List.mem_filterMap.2 ⟨last, List.mem_singleton_self _, htop⟩)
        omega
      · rw [List.mem_singleton.1 hx, htop] at hk
        obtain rfl := Option.some.inj hk
        exact hle
    · intro x hx k hk
      have := hbehind x (List.mem_reverse.1 hx)
      rw [show rank? x = some k from hk] at this
      simpa using this
  | none =>
    -- No such member is there, and the seam is right ahead of the first one that has a rank.
    have hhigh : ∀ x ∈ l, ∀ k ∈ rank? x, rank < k := by
      intro x hx k hk
      have := List.find?_eq_none.1 hlast x (List.mem_reverse.2 hx)
      rw [show rank? x = some k from hk] at this
      simpa using this
    have hnone : ∀ x ∈ l.takeWhile fun x => (rank? x).isNone, rank? x = none := by
      intro x hx
      have := List.mem_takeWhile_imp hx
      exact Option.isNone_iff_eq_none.1 this
    refine ⟨_, _, List.takeWhile_append_dropWhile.symm, fun x hx k hk => ?_,
      fun x hx => hhigh x (List.dropWhile_subset _ hx), .inr ⟨hnone, ?_⟩⟩
    · rw [hnone x hx] at hk
      cases hk
    · cases hback : l.dropWhile fun x => (rank? x).isNone with
      | nil => exact .inl rfl
      | cons first back =>
        have := @List.head_dropWhile_not _ (fun x => (rank? x).isNone) l (by simp [hback])
        simp only [hback, List.head_cons] at this
        exact .inr ⟨first, back, rfl, by simpa using this⟩

/-- A member is placed at the seam. -/
theorem place_of_seam {x : α} (hl : Graded rank? (a ++ b)) (h : Seam rank? rank a b) :
    place rank? rank x (a ++ b) = a ++ x :: b := by
  rw [place, Edit.insertIndex_of_seam hl h, List.take_left, List.drop_left]

/-- Placing a member keeps the ranked members in order. -/
theorem graded_place {x : α} (hx : rank? x = some rank) (hl : Graded rank? l) :
    Graded rank? (place rank? rank x l) := by
  obtain ⟨a, b, rfl, hseam⟩ := exists_seam rank hl
  rw [place_of_seam hl hseam]
  unfold Graded at hl ⊢
  rw [List.filterMap_append, List.pairwise_append] at hl ⊢
  rw [List.filterMap_cons_some hx, List.pairwise_cons]
  refine ⟨hl.1, ⟨fun k hk => ?_, hl.2.1⟩, fun j hj k hk => ?_⟩
  · obtain ⟨y, hy, hk⟩ := List.mem_filterMap.1 hk
    exact Nat.le_of_lt (hseam.high y hy k hk)
  · rcases List.mem_cons.1 hk with rfl | hk
    · obtain ⟨y, hy, hj⟩ := List.mem_filterMap.1 hj
      exact hseam.low y hy j hj
    · exact hl.2.2 j hj k hk

/-! ## Two members -/

/-- The seam for a lower rank is not behind the one for a higher rank. -/
theorem Seam.exists_between {low high : Nat} {a' b' : List α} (hlt : low < high)
    (h : Seam rank? low a b) (h' : Seam rank? high a' b') (he : a ++ b = a' ++ b') :
    ∃ between, a' = a ++ between ∧ b = between ++ b' := by
  rcases List.append_eq_append_iff.1 he with hbetween | ⟨between, rfl, rfl⟩
  · exact hbetween
  · -- What stands between the seams has no rank, and so a seam would not leave it there.
    have hnone : ∀ x ∈ between, rank? x = none := by
      intro x hx
      refine Option.eq_none_iff_forall_not_mem.2 fun k hk => ?_
      have := h.low x (List.mem_append_right _ hx) k hk
      have := h'.high x (List.mem_append_left _ hx) k hk
      omega
    have hempty : between = [] := by
      by_contra hne
      have hunranked : ∀ x ∈ a', rank? x = none := by
        rcases h.tight with ⟨front, last, hlast, hsome⟩ | ⟨hnone', -⟩
        · obtain ⟨rest, z, rfl⟩ := List.eq_nil_or_concat between |>.resolve_left hne
          rw [List.concat_eq_append, ← List.append_assoc] at hlast
          obtain rfl := List.singleton_inj.1 (List.append_inj_right' hlast rfl)
          rw [hnone z (by simp)] at hsome
          cases hsome
        · exact fun x hx => hnone' x (List.mem_append_left _ hx)
      obtain ⟨x, rest, rfl⟩ := List.exists_cons_of_ne_nil hne
      rcases h'.tight with ⟨front, last, rfl, hsome⟩ | ⟨-, hnil | ⟨first, back, hfirst, hsome⟩⟩
      · rw [hunranked last (by simp)] at hsome
        cases hsome
      · cases hnil
      · obtain ⟨rfl, -⟩ := List.cons.inj hfirst
        rw [hnone x List.mem_cons_self] at hsome
        cases hsome
    exact ⟨[], by simp [hempty], by simp [hempty]⟩

/-- A member of a lower rank and one of a higher rank can be placed in either order. -/
theorem place_comm_of_lt {r s : Nat} {x y : α} (hx : rank? x = some r) (hy : rank? y = some s)
    (hlt : r < s) (hl : Graded rank? l) :
    place rank? s y (place rank? r x l) = place rank? r x (place rank? s y l) := by
  obtain ⟨a, b, rfl, hr⟩ := exists_seam r hl
  obtain ⟨a', b', he, hs⟩ := exists_seam s hl
  obtain ⟨between, rfl, rfl⟩ := hr.exists_between hlt hs he
  have hplacex := graded_place hx hl
  rw [place_of_seam hl hr] at hplacex ⊢
  rw [← List.append_assoc] at hl ⊢
  have hplacey := graded_place hy hl
  rw [place_of_seam hl hs] at hplacey ⊢
  -- Neither new member moves the other one's seam.
  have hs' : Seam rank? s (a ++ x :: between) b' := by
    refine ⟨fun z hz k hk => ?_, hs.high, .inl ?_⟩
    · rcases List.mem_append.1 hz with hz | hz
      · exact Nat.le_trans (hr.low z hz k hk) (Nat.le_of_lt hlt)
      · rcases List.mem_cons.1 hz with rfl | hz
        · rw [hx] at hk
          exact Option.some.inj hk ▸ Nat.le_of_lt hlt
        · exact hs.low z (List.mem_append_right _ hz) k hk
    · rcases List.eq_nil_or_concat between with rfl | ⟨rest, z, rfl⟩
      · exact ⟨a, x, rfl, by rw [hx]; rfl⟩
      · rw [List.concat_eq_append] at hs hr ⊢
        refine ⟨a ++ x :: rest, z, by simp, ?_⟩
        rcases hs.tight with ⟨front, last, hlast, hsome⟩ | ⟨hnone, -⟩
        · rw [← List.append_assoc] at hlast
          obtain rfl := List.singleton_inj.1 (List.append_inj_right' hlast rfl)
          exact hsome
        · rcases hr.tight with ⟨front, last, rfl, hsome⟩ | ⟨-, hnil | ⟨first, back, hfirst, hsome⟩⟩
          · rw [hnone last (by simp)] at hsome
            cases hsome
          · simp at hnil
          · have hmem : first ∈ a ++ (rest ++ [z]) := by
              cases rest <;> simp_all
            rw [hnone first hmem] at hsome
            cases hsome
  have hr' : Seam rank? r a (between ++ y :: b') := by
    refine ⟨hr.low, fun z hz k hk => ?_, hr.tight.imp_right fun ⟨hnone, hback⟩ => ⟨hnone, .inr ?_⟩⟩
    · rcases List.mem_append.1 hz with hz | hz
      · exact hr.high z (List.mem_append_left _ hz) k hk
      · rcases List.mem_cons.1 hz with rfl | hz
        · rw [hy] at hk
          exact Option.some.inj hk ▸ hlt
        · exact hr.high z (List.mem_append_right _ hz) k hk
    · cases between with
      | nil => exact ⟨y, b', rfl, by rw [hy]; rfl⟩
      | cons z rest =>
        rcases hback with hnil | ⟨first, back, hfirst, hsome⟩
        · cases hnil
        · obtain ⟨rfl, -⟩ := List.cons.inj hfirst
          exact ⟨z, rest ++ y :: b', rfl, hsome⟩
  rw [List.append_assoc] at hplacey ⊢
  rw [place_of_seam hplacey hr']
  have := @place_of_seam _ rank? s (a ++ x :: between) b' y
  simp only [List.append_assoc, List.cons_append] at this hplacex ⊢
  exact this hplacex hs'

/-- Members of different ranks can be placed in either order. -/
theorem place_comm {r s : Nat} {x y : α} (hx : rank? x = some r) (hy : rank? y = some s)
    (hne : r ≠ s) (hl : Graded rank? l) :
    place rank? s y (place rank? r x l) = place rank? r x (place rank? s y l) := by
  rcases Nat.lt_or_gt_of_ne hne with hlt | hgt
  · exact place_comm_of_lt hx hy hlt hl
  · exact (place_comm_of_lt hy hx hgt hl).symm

end PhpGraft

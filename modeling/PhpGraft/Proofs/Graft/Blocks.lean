import Mathlib.Data.Nat.Find
import PhpGraft.Proofs.Graft.Placing

/-!
# Members that were placed together

Members of one rank that are placed one after another, in a list in whatever order, end up side by
side, and right behind the last member of their rank that was there (`Together`): the first of them
goes there, and each further one is put right behind the one before it (`place_of_last`). A member of
a higher rank that is placed later goes right behind a member that is the last one of its rank
(`exists_place_behind`). If that is one of those that stand side by side, then it is the last of them;
so these stay side by side (`Together.place_of_lt`).
-/

namespace PhpGraft

variable {α : Type} {rank? : α → Option Nat} {rank k : Nat} {a b l old block : List α} {x : α}

/-- The members of a rank, in order. -/
def ofRank (rank? : α → Option Nat) (rank : Nat) (l : List α) : List α :=
  l.filter fun x => rank? x == some rank

/-- Members of a rank stand side by side in a list; all others of their rank stand ahead of them, and
the last one of these stands right ahead of them. -/
structure TogetherAt (rank? : α → Option Nat) (rank : Nat) (old block a b : List α) : Prop where
  /-- The members ahead of the block are those of the rank that were there. -/
  ahead : ofRank rank? rank a = ofRank rank? rank old
  /-- The members in the block have the rank. -/
  within : ∀ x ∈ block, rank? x = some rank
  /-- No member of the rank stands behind the block. -/
  behind : ∀ x ∈ b, rank? x ≠ some rank
  /-- If there are members of the rank ahead of the block, then one of them stands right ahead. -/
  adjacent : ofRank rank? rank old ≠ [] → ∃ front last, a = front ++ [last] ∧ rank? last = some rank

/-- A list holds members of a rank side by side, right behind the last one of those that were there
before them. -/
def Together (rank? : α → Option Nat) (rank : Nat) (old block l : List α) : Prop :=
  ∃ a b, l = a ++ block ++ b ∧ TogetherAt rank? rank old block a b

/-! ## Places in lists in whatever order -/

/-- There are no members of a rank in a list in which none has it. -/
theorem ofRank_eq_nil_iff : ofRank rank? rank l = [] ↔ ∀ x ∈ l, rank? x ≠ some rank := by
  simp [ofRank, List.filter_eq_nil_iff]

/-- The members of a rank of two lists, one behind the other. -/
theorem ofRank_append : ofRank rank? rank (a ++ b) = ofRank rank? rank a ++ ofRank rank? rank b :=
  List.filter_append ..

/-- A member of another rank is not among those of a rank. -/
theorem ofRank_cons_of_ne (h : rank? x ≠ some rank) :
    ofRank rank? rank (x :: l) = ofRank rank? rank l :=
  List.filter_cons_of_neg (by simpa using h)

/-- A list with a member of a rank ends, up to its last one, with it. -/
theorem exists_last_ofRank (h : ofRank rank? rank l ≠ []) :
    ∃ front last back, l = front ++ last :: back ∧ rank? last = some rank ∧
      ∀ x ∈ back, rank? x ≠ some rank := by
  cases hlast : l.reverse.find? (fun x => rank? x == some rank) with
  | none =>
    refine absurd (ofRank_eq_nil_iff.2 fun x hx he => ?_) h
    have := List.find?_eq_none.1 hlast x (List.mem_reverse.2 hx)
    simp [he] at this
  | some last =>
    obtain ⟨hp, behind, ahead, hrev, hbehind⟩ := List.find?_eq_some_iff_append.1 hlast
    refine ⟨ahead.reverse, last, behind.reverse, ?_, eq_of_beq hp, fun x hx => ?_⟩
    · have := congrArg List.reverse hrev
      simpa using this
    · have := hbehind x (List.mem_reverse.1 hx)
      simpa using this

/-- A member is put between two parts of a list. -/
theorem exists_place (rank? : α → Option Nat) (rank : Nat) (x : α) (l : List α) :
    ∃ a b, l = a ++ b ∧ place rank? rank x l = a ++ x :: b :=
  ⟨_, _, (List.take_append_drop (Edit.insertIndex (l.map rank?) rank) l).symm, rfl⟩

/-- A member is placed right behind the last one of the highest rank up to its own. -/
theorem place_of_top {top : Nat} {front : List α} {last : α} (hle : top ≤ rank)
    (hlast : rank? last = some top) (hb : ∀ y ∈ b, rank? y ≠ some top)
    (htop : ∀ r, top < r → r ≤ rank → ofRank rank? r (front ++ last :: b) = []) :
    place rank? rank x (front ++ last :: b) = front ++ last :: x :: b := by
  have hfound : Edit.lastIndex? (· == some top) ((front ++ last :: b).map rank?) =
      some front.length := by
    rw [List.map_append, List.map_cons, hlast, Edit.lastIndex?_append (by simp), List.length_map]
    intro r hr
    obtain ⟨y, hy, rfl⟩ := List.mem_map.1 hr
    exact beq_false_of_ne (hb y hy)
  have hnone : ∀ r, top < r → r ≤ rank →
      Edit.lastIndex? (· == some r) ((front ++ last :: b).map rank?) = none := by
    intro r hlt hr
    refine Edit.lastIndex?_eq_none fun s hs => ?_
    obtain ⟨y, hy, rfl⟩ := List.mem_map.1 hs
    exact beq_false_of_ne (ofRank_eq_nil_iff.1 (htop r hlt hr) y hy)
  have hindex : Edit.insertIndex ((front ++ last :: b).map rank?) rank = front.length + 1 := by
    rw [Edit.insertIndex, findSome?_range_reverse hle hfound hnone]
  have hsplit : front ++ last :: b = (front ++ [last]) ++ b := by simp
  have hlen : (front ++ [last]).length = front.length + 1 := by simp
  rw [place, hindex, hsplit, List.take_left' hlen, List.drop_left' hlen, List.append_assoc,
    List.singleton_append]

/-- A member is placed right behind the last one of its rank. -/
theorem place_of_last {front : List α} {last : α} (hlast : rank? last = some rank)
    (hb : ∀ y ∈ b, rank? y ≠ some rank) :
    place rank? rank x (front ++ last :: b) = front ++ last :: x :: b :=
  place_of_top (Nat.le_refl _) hlast hb fun _ hlt hle => absurd hle (Nat.not_le.2 hlt)

/-- Where there are members of a rank that is not higher, a member is placed right behind one that is
the last of its rank. -/
theorem exists_place_behind (hk : k ≤ rank) (h : ofRank rank? k l ≠ []) (x : α) :
    ∃ front last back top, l = front ++ last :: back ∧ rank? last = some top ∧
      (∀ y ∈ back, rank? y ≠ some top) ∧ place rank? rank x l = front ++ last :: x :: back := by
  let P := fun r => (ofRank rank? r l).isEmpty = false
  have hP : ∀ r, P r ↔ ofRank rank? r l ≠ [] := fun r => List.isEmpty_eq_false_iff
  have htop := (hP _).1 (Nat.findGreatest_spec hk ((hP k).2 h))
  obtain ⟨front, last, back, hl, hlast, hback⟩ := exists_last_ofRank htop
  refine ⟨front, last, back, Nat.findGreatest P rank, hl, hlast, hback, ?_⟩
  subst hl
  refine place_of_top (Nat.findGreatest_le rank) hlast hback fun r hlt hle => ?_
  by_contra hne
  exact Nat.findGreatest_is_greatest hlt hle ((hP r).2 hne)

/-! ## Placing members of the rank -/

/-- No members stand together in a list in which those of the rank are the ones that were there. -/
theorem Together.nil (h : ofRank rank? rank l = ofRank rank? rank old) :
    Together rank? rank old [] l := by
  by_cases hnone : ofRank rank? rank l = []
  · refine ⟨l, [], by simp, h, List.forall_mem_nil _, List.forall_mem_nil _, fun hne => ?_⟩
    exact absurd (h ▸ hnone) hne
  · obtain ⟨front, last, back, rfl, hlast, hback⟩ := exists_last_ofRank hnone
    refine ⟨front ++ [last], back, by simp, ?_, List.forall_mem_nil _, hback,
      fun _ => ⟨front, last, rfl, hlast⟩⟩
    have hsplit : front ++ last :: back = (front ++ [last]) ++ back := by simp
    rw [← h, hsplit, ofRank_append (b := back), ofRank_eq_nil_iff.2 hback, List.append_nil]

/-- The members of the rank in a list with a block are those that were there and the block. -/
theorem TogetherAt.ofRank_eq (h : TogetherAt rank? rank old block a b) :
    ofRank rank? rank (a ++ block ++ b) = ofRank rank? rank old ++ block := by
  have hblock : ofRank rank? rank block = block :=
    List.filter_eq_self.2 fun x hx => by simp [h.within x hx]
  rw [ofRank_append, ofRank_append, h.ahead, hblock, ofRank_eq_nil_iff.2 h.behind, List.append_nil]

/-- What ends with the block, or ahead of an empty one, ends with a member of the rank. -/
theorem TogetherAt.exists_last (h : TogetherAt rank? rank old block a b)
    (hne : ofRank rank? rank (a ++ block ++ b) ≠ []) :
    ∃ front last, a ++ block = front ++ [last] ∧ rank? last = some rank := by
  rcases List.eq_nil_or_concat block with rfl | ⟨front, last, rfl⟩
  · rw [h.ofRank_eq, List.append_nil] at hne
    obtain ⟨front, last, rfl, hlast⟩ := h.adjacent hne
    exact ⟨front, last, List.append_nil _, hlast⟩
  · rw [List.concat_eq_append] at h ⊢
    exact ⟨a ++ front, last, (List.append_assoc ..).symm, h.within last (by simp)⟩

/-- A further member of the rank is placed at the end of the block. -/
theorem Together.place_self (h : Together rank? rank old block l) (hx : rank? x = some rank) :
    Together rank? rank old (block ++ [x]) (place rank? rank x l) := by
  obtain ⟨a, b, rfl, hat⟩ := h
  have hwithin : ∀ y ∈ block ++ [x], rank? y = some rank := by
    rw [List.forall_mem_append, List.forall_mem_singleton]
    exact ⟨hat.within, hx⟩
  by_cases hnone : ofRank rank? rank (a ++ block ++ b) = []
  · -- There is no member of the rank yet, so the new one is the block, wherever it goes.
    have hnil := hat.ofRank_eq.symm.trans hnone
    obtain ⟨hold, rfl⟩ := List.append_eq_nil_iff.1 hnil
    obtain ⟨a', b', hl, hplace⟩ := exists_place rank? rank x (a ++ [] ++ b)
    rw [hl, ofRank_append, List.append_eq_nil_iff] at hnone
    refine ⟨a', b', by simpa using hplace, hnone.1.trans hold.symm, hwithin, ofRank_eq_nil_iff.1 hnone.2,
      fun hne => absurd hold hne⟩
  · obtain ⟨front, last, he, hlast⟩ := hat.exists_last hnone
    refine ⟨a, b, ?_, hat.ahead, hwithin, hat.behind, hat.adjacent⟩
    rw [he, List.append_assoc, List.singleton_append, place_of_last hlast hat.behind,
      ← List.append_assoc a, he]
    simp

/-! ## Placing members of other ranks -/

/-- Members of other ranks are not among those of the rank. -/
theorem ofRank_place_of_ne {r : Nat} (hx : rank? x ≠ some rank) :
    ofRank rank? rank (place rank? r x l) = ofRank rank? rank l := by
  obtain ⟨a, b, rfl, hplace⟩ := exists_place rank? r x l
  rw [hplace, ofRank_append, ofRank_append, ofRank_cons_of_ne hx]

/-- A member of another rank can be put anywhere behind the block. -/
theorem TogetherAt.insert_back {back : List α}
    (h : TogetherAt rank? rank old block a (b ++ back)) (hx : rank? x ≠ some rank) :
    Together rank? rank old block (a ++ block ++ (b ++ x :: back)) := by
  refine ⟨a, b ++ x :: back, rfl, h.ahead, h.within, ?_, h.adjacent⟩
  have hbehind := h.behind
  rw [List.forall_mem_append] at hbehind ⊢
  exact ⟨hbehind.1, List.forall_mem_cons.2 ⟨hx, hbehind.2⟩⟩

/-- Up to the end of the block, a member of another rank can be put behind any member that has not
the rank either. -/
theorem TogetherAt.insert_front {front c : List α} {last : α}
    (h : TogetherAt rank? rank old block a b) (hx : rank? x ≠ some rank)
    (hlast : rank? last ≠ some rank) (he : a ++ block = front ++ [last] ++ c) :
    Together rank? rank old block (front ++ [last] ++ x :: (c ++ b)) := by
  have hsplit : ∃ e, a = front ++ [last] ++ e ∧ c = e ++ block := by
    rcases List.append_eq_append_iff.1 he with ⟨e, ha, hblock⟩ | hsplit
    · rcases List.eq_nil_or_concat e with rfl | ⟨e', y, rfl⟩
      · exact ⟨[], by simpa using ha.symm, by simpa using hblock.symm⟩
      · -- The member would stand in the block, and have the rank.
        rw [List.concat_eq_append] at ha hblock
        rw [← List.append_assoc] at ha
        obtain ⟨-, hy⟩ := List.append_inj' ha rfl
        have hrank := h.within y (by simp [hblock])
        exact absurd (List.singleton_inj.1 hy ▸ hrank) hlast
    · exact hsplit
  obtain ⟨e, rfl, rfl⟩ := hsplit
  refine ⟨front ++ [last] ++ x :: e, b, by simp, ?_, h.within, h.behind, fun hne => ?_⟩
  · rw [← h.ahead, ofRank_append, ofRank_cons_of_ne hx, ← ofRank_append]
  · obtain ⟨front', y, hy, hrank⟩ := h.adjacent hne
    rcases List.eq_nil_or_concat e with rfl | ⟨e', z, rfl⟩
    · rw [List.append_nil] at hy
      obtain ⟨-, hy⟩ := List.append_inj' hy rfl
      exact absurd (List.singleton_inj.1 hy ▸ hrank) hlast
    · rw [List.concat_eq_append, ← List.append_assoc] at hy
      obtain ⟨-, hz⟩ := List.append_inj' hy rfl
      exact ⟨front ++ [last] ++ x :: e', z, by simp, List.singleton_inj.1 hz ▸ hrank⟩

/-- A member of a higher rank does not part the block, and does not come between the block and the
member of the rank right ahead of it. -/
theorem Together.place_of_lt {r : Nat} (h : Together rank? rank old block l) (hlt : rank < r)
    (hx : rank? x = some r) : Together rank? rank old block (place rank? r x l) := by
  have hother : rank? x ≠ some rank := by
    rw [hx]
    exact fun he => Nat.ne_of_gt hlt (Option.some.inj he)
  obtain ⟨a, b, rfl, hat⟩ := h
  by_cases hnone : ofRank rank? rank (a ++ block ++ b) = []
  · obtain ⟨hold, rfl⟩ := List.append_eq_nil_iff.1 (hat.ofRank_eq.symm.trans hnone)
    exact .nil ((ofRank_place_of_ne hother).trans (hnone.trans hold.symm))
  · obtain ⟨front, last, back, top, hl, hlast, hback, hplace⟩ :=
      exists_place_behind (Nat.le_of_lt hlt) hnone x
    have hl : (a ++ block) ++ b = (front ++ [last]) ++ back := by simpa using hl
    have hplace : place rank? r x (a ++ block ++ b) = front ++ [last] ++ x :: back := by
      simpa using hplace
    rw [hplace]
    rcases List.append_eq_append_iff.1 hl with ⟨c, hc, rfl⟩ | ⟨c, hc, rfl⟩
    · rw [hc, List.append_assoc]
      exact hat.insert_back hother
    · by_cases htop : top = rank
      · -- Behind a member of the rank there is none, so it is the last one of the block.
        subst htop
        obtain ⟨front', z, hend, hz⟩ := hat.exists_last hnone
        have hnil : c = [] := by
          rcases List.eq_nil_or_concat c with rfl | ⟨c', y, rfl⟩
          · rfl
          · rw [hend, List.concat_eq_append, ← List.append_assoc] at hc
            obtain ⟨-, hy⟩ := List.append_inj' hc rfl
            exact absurd (List.singleton_inj.1 hy ▸ hz) (hback y (by simp))
        subst hnil
        rw [List.append_nil] at hc
        rw [← hc]
        exact hat.insert_back (b := []) hother
      · have hne : rank? last ≠ some rank := by
          rw [hlast]
          exact fun he => htop (Option.some.inj he)
        exact hat.insert_front hother hne hc

end PhpGraft

import Mathlib.Data.List.Basic
import PhpGraft.Proofs.Syntax.Dedenting
import PhpGraft.Proofs.Syntax.Laying

/-!
# Lines set behind margins

Lines that are set in another layout and put together again are the text in another layout. A newline
stays as it is where nothing is dropped ahead of it and nothing is put behind it, and in a body it does
so between the lines of a heredoc (`exists_lays_ofSource`).
-/

namespace PhpGraft.Body

open Text

variable {m f : List Char}

/-! ## Lines -/

/-- A line in another layout, split in such a way that what is unchanged at its front or at its end is
the same text. -/
theorem Reset.exists_split {l l' : List Char} (h : Reset l l') :
    ∃ b b' c e, b.all isSpace = true ∧ b'.all isSpace = true ∧ e.all isSpace = true ∧
      l = b ++ (c ++ e) ∧ l' = b' ++ c ∧
      ((∃ e, e.all isSpace = true ∧ l = l' ++ e) → b = [] ∧ b' = []) ∧
      ((l = l' ∨ ∀ c ∈ l.getLast?, isSpace c = false) → e = []) := by
  have htight {l k e : List Char} (he : e.all isSpace = true) (hl : l = k ++ e)
      (hlast : ∀ c ∈ l.getLast?, isSpace c = false) : e = [] := by
    by_contra hne
    have hin := hlast (e.getLast hne) (by
      rw [hl, List.getLast?_append, List.getLast?_eq_some_getLast hne]
      rfl)
    rw [List.all_eq_true.1 he _ (List.getLast_mem hne)] at hin
    cases hin
  by_cases heq : l = l'
  · exact ⟨[], [], l, [], rfl, rfl, rfl, (List.append_nil l).symm, heq.symm, fun _ => ⟨rfl, rfl⟩,
      fun _ => rfl⟩
  by_cases hfront : ∃ e, e.all isSpace = true ∧ l = l' ++ e
  · obtain ⟨e, he, hl⟩ := hfront
    exact ⟨[], [], l', e, rfl, rfl, he, hl, rfl, fun _ => ⟨rfl, rfl⟩,
      fun hend => htight he hl (hend.resolve_left heq)⟩
  · obtain ⟨b, b', c, e, hb, hb', he, hl, hl'⟩ := h
    exact ⟨b, b', c, e, hb, hb', he, hl, hl', fun hsame => absurd hsame hfront, fun hend =>
      htight he (hl.trans (List.append_assoc ..).symm) (hend.resolve_left heq)⟩

/-- A newline between two lines stays as it is in another layout: nothing is dropped ahead of it, and
what is behind it starts in the same way. -/
def Bridged (x y : List Char × List Char) : Prop :=
  (x.1 = x.2 ∨ ∀ c ∈ x.1.getLast?, isSpace c = false) ∧
    ∃ e, e.all isSpace = true ∧ y.1 = y.2 ++ e

/-- Lines that are put together again in another layout, with white space behind the last one. -/
theorem lays_lines {keep : List Char → Prop} {T w : List Char} (hw : w.all isSpace = true)
    {x : List Char × List Char} {ps : List (List Char × List Char)} (hx : Reset x.1 x.2)
    (hps : ∀ p ∈ ps, Reset p.1 p.2) (hn : ∀ p ∈ x :: ps, '\n' ∉ p.1)
    (hkeep : ∀ front y z back, x :: ps = front ++ y :: z :: back →
      keep (joinWith ['\n'] ((z :: back).map Prod.fst) ++ w) → Bridged y z) :
    ∃ b b' cs ds, b.all isSpace = true ∧ b'.all isSpace = true ∧ '\n' ∉ b ∧
      ((∃ e, e.all isSpace = true ∧ x.1 = x.2 ++ e) → b = [] ∧ b' = []) ∧
      joinWith ['\n'] ((x :: ps).map Prod.fst) ++ w = b ++ cs ∧
      (x :: ps).flatMap (·.2 ++ ['\n']) ++ T = b' ++ ds ∧ Lays keep ('\n' :: T) cs ds := by
  induction ps generalizing x with
  | nil =>
    obtain ⟨b, b', c, e, hb, hb', he, hl, hl', hfront, -⟩ := hx.exists_split
    have hnb : '\n' ∉ b := fun hmem => hn x (List.mem_cons_self ..) (by
      rw [hl]
      exact List.mem_append_left _ hmem)
    refine ⟨b, b', c ++ (e ++ w), c ++ '\n' :: T, hb, hb', hnb, hfront, ?_, ?_,
      .append_left c (.nil ?_)⟩
    · simp [joinWith, hl]
    · simp [hl']
    · rw [List.all_append, he, hw]
      rfl
  | cons y ps ih =>
    obtain ⟨b, b', c, e, hb, hb', he, hl, hl', hfront, hend⟩ := hx.exists_split
    obtain ⟨hnb, hne⟩ : '\n' ∉ b ∧ '\n' ∉ e := by
      have hnone := hn x (List.mem_cons_self ..)
      rw [hl, List.mem_append, List.mem_append, not_or, not_or] at hnone
      exact ⟨hnone.1, hnone.2.2⟩
    obtain ⟨d, d', cs, ds, hd, hd', hnd, hstart, htext, htext', hi⟩ := ih (hps y (List.mem_cons_self ..))
      (fun p hp => hps p (List.mem_cons_of_mem _ hp)) (fun p hp => hn p (List.mem_cons_of_mem _ hp))
      fun front u v back hsplit => hkeep (x :: front) u v back (congrArg _ hsplit)
    have hsource : joinWith ['\n'] ((x :: y :: ps).map Prod.fst) ++ w =
        b ++ (c ++ (e ++ '\n' :: (d ++ cs))) := by
      rw [List.map_cons, List.map_cons, joinWith_cons_cons, ← List.map_cons (f := Prod.fst), hl,
        ← htext]
      simp only [List.append_assoc, List.cons_append, List.nil_append]
    have hwritten : (x :: y :: ps).flatMap (·.2 ++ ['\n']) ++ T = b' ++ (c ++ '\n' :: (d' ++ ds)) := by
      rw [List.flatMap_cons, hl', List.append_assoc, htext']
      simp only [List.append_assoc, List.cons_append, List.nil_append]
    by_cases hkept : keep (joinWith ['\n'] ((y :: ps).map Prod.fst) ++ w)
    · obtain ⟨hlast, hfirst⟩ := hkeep [] x y ps rfl hkept
      obtain ⟨rfl, rfl⟩ := hstart hfirst
      obtain rfl := hend hlast
      exact ⟨b, b', c ++ '\n' :: cs, c ++ '\n' :: ds, hb, hb', hnb, hfront, hsource, hwritten,
        .append_left c (.cons _ hi)⟩
    · have hbreak : IsBreak (e ++ '\n' :: d) := IsBreak.extend he .single hd
      refine ⟨b, b', c ++ (e ++ '\n' :: d ++ cs), c ++ ('\n' :: d' ++ ds), hb, hb', hnb, hfront, ?_,
        hwritten, .append_left c (.gap hbreak (.cons hd') (fun a r hsplit => ?_) hi)⟩
      · rw [hsource, List.append_assoc, List.cons_append]
      · -- the break has one newline, as lines have none
        obtain ⟨-, -, rfl⟩ := (List.append_cons_inj_of_notMem hne hnd).1 hsplit
        rwa [← htext]

/-- Blank lines put together with newlines are white space. -/
theorem spaces_flatMap {ls : List (List Char)} (h : ∀ l ∈ ls, l.all isSpace = true) :
    (ls.flatMap (['\n'] ++ ·)).all isSpace = true ∧ (ls.flatMap (· ++ ['\n'])).all isSpace = true := by
  have hnewline : ['\n'].all isSpace = true := rfl
  induction ls with
  | nil => exact ⟨rfl, rfl⟩
  | cons l ls ih =>
    obtain ⟨h₁, h₂⟩ := ih fun l hl => h l (List.mem_cons_of_mem _ hl)
    simp only [List.flatMap_cons, List.all_append, hnewline, h l (List.mem_cons_self ..), h₁, h₂, Bool.and_self,
      and_self]

/-- Text in which some lines are set in another layout, and blank ones around them are dropped, is the
text in another layout, white space at the front apart. The newlines that are kept are told by what
stands ahead of them. -/
theorem exists_lays {kept : List Char → Prop} {before behind : List (List Char)}
    {ps : List (List Char × List Char)} {e : List Char} (T : List Char)
    (htext : f = joinWith ['\n'] (before ++ (ps.map Prod.fst ++ behind)) ++ e)
    (hbefore : ∀ l ∈ before, l.all isSpace = true) (hbehind : ∀ l ∈ behind, l.all isSpace = true)
    (he : e.all isSpace = true) (hps : ∀ p ∈ ps, Reset p.1 p.2) (hn : ∀ p ∈ ps, '\n' ∉ p.1)
    (hkept : ∀ front y z back, ps = front ++ y :: z :: back →
      kept ((before ++ front.map Prod.fst).flatMap (· ++ ['\n']) ++ y.1) → Bridged y z) :
    ∃ u p cs ds, f = u ++ cs ∧ u.all isSpace = true ∧
      '\n' :: (ps.flatMap (·.2 ++ ['\n']) ++ T) = p ++ ds ∧ p.all isSpace = true ∧
      Lays (fun r => ∃ front, f = front ++ '\n' :: r ∧ kept front) ('\n' :: T) cs ds := by
  cases ps with
  | nil =>
    have hall : f.all isSpace = true := by
      rw [htext, List.all_append, he, Bool.and_true]
      have hlines : ∀ l ∈ before ++ behind, l.all isSpace = true := fun l hl =>
        (List.mem_append.1 hl).elim (hbefore l) (hbehind l)
      change (joinWith ['\n'] (before ++ behind)).all isSpace = true
      cases h : before ++ behind with
      | nil => rfl
      | cons l ls =>
        rw [h] at hlines
        have hrest := (spaces_flatMap fun k hk => hlines k (List.mem_cons_of_mem _ hk)).1
        rw [joinWith_cons, List.all_append, hlines l (List.mem_cons_self ..), hrest]
        rfl
    exact ⟨f, [], [], '\n' :: T, (List.append_nil f).symm, hall, rfl, rfl, .nil rfl⟩
  | cons x ps =>
    have hw : (behind.flatMap (['\n'] ++ ·) ++ e).all isSpace = true := by
      rw [List.all_append, (spaces_flatMap hbehind).1, he]
      rfl
    have hjoin (ls : List (List Char × List Char)) (q : List Char × List Char) :
        joinWith ['\n'] (q.1 :: (ls.map Prod.fst ++ behind)) ++ e =
          joinWith ['\n'] ((q :: ls).map Prod.fst) ++ (behind.flatMap (['\n'] ++ ·) ++ e) := by
      rw [List.map_cons, joinWith_cons, joinWith_cons, List.flatMap_append]
      simp only [List.append_assoc]
    obtain ⟨b, b', cs, ds, hb, hb', -, -, hsource, hwritten, hi⟩ := @lays_lines
      (fun r => ∃ front, f = front ++ '\n' :: r ∧ kept front) T _ hw _ _ (hps x (List.mem_cons_self ..))
      (fun p hp => hps p (List.mem_cons_of_mem _ hp)) hn fun front y z back hsplit hkeep => by
        obtain ⟨ahead, hahead, hk⟩ := hkeep
        refine hkept front y z back hsplit ?_
        have hlines : before ++ ((x :: ps).map Prod.fst ++ behind) =
            (before ++ front.map Prod.fst) ++ y.1 :: z.1 :: (back.map Prod.fst ++ behind) := by
          rw [hsplit]
          simp only [List.map_append, List.map_cons, List.append_assoc, List.cons_append]
        rw [htext, hlines, joinWith_append_cons, joinWith_cons_cons, List.append_assoc, List.append_assoc,
          List.append_assoc, hjoin, ← List.append_assoc] at hahead
        obtain ⟨rfl, -⟩ := List.append_inj' hahead rfl
        exact hk
    refine ⟨before.flatMap (· ++ ['\n']) ++ b, '\n' :: b', cs, ds, ?_, ?_, ?_, ?_, hi⟩
    · rw [htext, List.map_cons, List.cons_append, joinWith_append_cons, List.append_assoc, hjoin, hsource,
        List.append_assoc]
    · rw [List.all_append, (spaces_flatMap hbefore).2, hb]
      rfl
    · rw [hwritten]
      rfl
    · rw [List.all_cons, hb']
      rfl

/-! ## Bodies -/

/-- A newline of a fragment that stays as it is in the body: it is ahead of a raw line, and the line that
it ends is raw too, without a carriage return, or does not end in white space. The newline is told by
what stands ahead of it. -/
def KeepsNewline (f front : List Char) : Prop :=
  (rawFlags (Text.lines f))[newlineCount front + 1]? = some true ∧
    ∀ c ∈ front.getLast?, isBlank c = true →
      c ≠ '\r' ∧ (rawFlags (Text.lines f))[newlineCount front]? = some true

/-- A fragment is its lines, each with its flag and as it stands there. -/
theorem exists_flagged_rows (f : List Char) : ∃ (qs : List ((List Char × Bool) × List Char)) (e : List Char),
    e.all isSpace = true ∧ qs.map Prod.fst = flagged f ∧ (∀ q ∈ qs, IsRowOf q.1.1 q.2) ∧
      f = joinWith ['\n'] (qs.map Prod.snd) ++ e := by
  obtain ⟨qs, e, he, hlines, hrows, htext⟩ := exists_rows f
  have hlength : (flagged f).length = (qs.map Prod.snd).length := by
    rw [← List.length_map (f := Prod.fst), (map_flagged f).1, ← hlines, List.length_map,
      List.length_map]
  have hfst := List.map_fst_zip (Nat.le_of_eq hlength)
  have hsnd := List.map_snd_zip (Nat.le_of_eq hlength.symm)
  refine ⟨(flagged f).zip (qs.map Prod.snd), e, ?_, hfst, fun q hq => hrows (q.1.1, q.2) ?_,
    by rw [hsnd]; exact htext⟩
  · rcases he with rfl | rfl <;> rfl
  · have hzip : qs = (Text.lines f).zip (qs.map Prod.snd) := List.zip_of_prod hlines rfl
    rw [hzip, ← (map_flagged f).1, List.zip_map_left]
    exact List.mem_map.2 ⟨q, hq, rfl⟩

/-- A line as it stands in its text is set in another layout as the line is. -/
theorem Reset.of_isRowOf {l l' r : List Char} (h : Reset l l') (hr : IsRowOf l r) : Reset r l' := by
  obtain ⟨b, b', c, e, hb, hb', he, hl, hl'⟩ := h
  rcases hr with rfl | rfl
  · exact ⟨b, b', c, e, hb, hb', he, hl, hl'⟩
  · refine ⟨b, b', c, e ++ ['\r'], hb, hb', ?_, ?_, hl'⟩
    · rw [List.all_append, he]
      rfl
    · rw [hl, List.append_assoc, List.append_assoc]

/-- A raw line is written as it is. -/
theorem written_raw {p : List Char × Bool} (w : Nat) (h : p.2 = true) : written m (cutLine w p) = p.1 := by
  obtain ⟨l, raw⟩ := p
  obtain rfl : raw = true := h
  exact String.toList_ofList

/-- A newline that a body keeps stays as it is between the lines that are written. -/
theorem bridged_of_keepsNewline {qs front back : List ((List Char × Bool) × List Char)}
    {y z : (List Char × Bool) × List Char} (hfst : qs.map Prod.fst = flagged f)
    (hrows : ∀ q ∈ qs, IsRowOf q.1.1 q.2) (hsplit : qs = front ++ y :: z :: back)
    (h : KeepsNewline f ((front.map Prod.snd).flatMap (· ++ ['\n']) ++ y.2)) :
    Bridged (y.2, written m (cutLine (margin f) y.1)) (z.2, written m (cutLine (margin f) z.1)) := by
  have hnone : ∀ q ∈ qs, '\n' ∉ q.2 := fun q hq =>
    not_mem_of_isRowOf (hrows q hq)
      (not_mem_of_mem_lines (List.of_mem_zip (hfst ▸ List.mem_map_of_mem hq : q.1 ∈ flagged f)).1)
  have hflags : rawFlags (Text.lines f) = (front ++ y :: z :: back).map (·.1.2) := by
    rw [← (map_flagged f).2, ← hfst, hsplit, List.map_map]
    rfl
  subst hsplit
  have hcount : newlineCount ((front.map Prod.snd).flatMap (· ++ ['\n']) ++ y.2) = front.length := by
    rw [newlineCount_flatMap ?_ (hnone y (by simp)), List.length_map]
    intro l hl
    obtain ⟨q, hq, rfl⟩ := List.mem_map.1 hl
    exact hnone q (List.mem_append_left _ hq)
  obtain ⟨hbehind, hahead⟩ := h
  rw [hcount, hflags] at hbehind hahead
  have hy : ((front ++ y :: z :: back).map (·.1.2))[front.length]? = some y.1.2 := by simp
  have hz : ((front ++ y :: z :: back).map (·.1.2))[front.length + 1]? = some z.1.2 := by simp
  rw [hy] at hahead
  rw [hz] at hbehind
  constructor
  · by_cases hlast : ∀ c ∈ y.2.getLast?, isSpace c = false
    · exact .inr hlast
    · obtain ⟨c, hc, hspace⟩ := not_forall₂.1 hlast
      obtain ⟨hne, hraw⟩ := hahead c (by rw [List.getLast?_append, Option.mem_def.1 hc]; rfl)
        (isBlank_of_isSpace (by simpa using hspace))
      refine .inl ?_
      rw [written_raw _ (Option.some.inj hraw)]
      refine (hrows y (by simp)).resolve_right fun hrow => hne ?_
      rw [hrow, List.getLast?_concat] at hc
      exact (Option.some.inj hc).symm
  · rw [written_raw _ (Option.some.inj hbehind)]
    rcases hrows z (by simp) with hrow | hrow
    · exact ⟨[], rfl, by rw [hrow, List.append_nil]⟩
    · exact ⟨['\r'], rfl, hrow⟩

/-- Written line by line behind margins, the body of a fragment is the fragment in another layout, white
space at the front apart. -/
theorem exists_lays_ofSource (hf : HasPlainEnds f) (hm : IsMargin m) (T : List Char) :
    ∃ u p cs ds, f = u ++ cs ∧ u.all isSpace = true ∧
      '\n' :: ((ofSource f).lines.flatMap (fun l => written m l ++ ['\n']) ++ T) = p ++ ds ∧
      p.all isSpace = true ∧
      Lays (fun r => ∃ front, f = front ++ '\n' :: r ∧ KeepsNewline f front) ('\n' :: T) cs ds := by
  obtain ⟨before, kept, behind, hflagged, hlines, hblank, -, -⟩ := exists_kept f
  obtain ⟨qs, e, he, hfst, hrows, htext⟩ := exists_flagged_rows f
  obtain ⟨qb, qs', rfl, hqb, hrest⟩ := List.map_eq_append_iff.1 (hfst.trans hflagged)
  obtain ⟨qk, qd, rfl, hqk, hqd⟩ := List.map_eq_append_iff.1 hrest
  have hmem {q : (List Char × Bool) × List Char} (hq : q ∈ qb ++ (qk ++ qd)) : q.1 ∈ flagged f :=
    hfst ▸ List.mem_map_of_mem hq
  have hspaces {q : (List Char × Bool) × List Char} (hq : q ∈ qb ++ (qk ++ qd))
      (hin : q.1 ∈ before ++ behind) : q.2.all isSpace = true := by
    have hline := hf.front (List.of_mem_zip (hmem hq)).1 (List.append_nil _).symm (hblank _ hin).2
    rcases hrows q hq with hrow | hrow
    · rw [hrow, hline]
    · rw [hrow, List.all_append, hline]
      rfl
  let pair (q : (List Char × Bool) × List Char) : List Char × List Char :=
    (q.2, written m (cutLine (margin f) q.1))
  have hpair : (qk.map pair).map Prod.fst = qk.map Prod.snd := by rw [List.map_map]; rfl
  have hlays := @exists_lays f (KeepsNewline f) (qb.map Prod.snd) (qd.map Prod.snd) (qk.map pair) e T
    (by rw [hpair, ← List.map_append, ← List.map_append]; exact htext) ?_ ?_ he ?_ ?_ ?_
  · have hwritten : (qk.map pair).flatMap (·.2 ++ ['\n']) =
        (ofSource f).lines.flatMap fun l => written m l ++ ['\n'] := by
      rw [hlines, ← hqk, List.map_map, List.flatMap_map, List.flatMap_map]
      rfl
    rwa [hwritten] at hlays
  · intro l hl
    obtain ⟨q, hq, rfl⟩ := List.mem_map.1 hl
    exact hspaces (List.mem_append_left _ hq)
      (List.mem_append_left _ (hqb ▸ List.mem_map_of_mem hq))
  · intro l hl
    obtain ⟨q, hq, rfl⟩ := List.mem_map.1 hl
    exact hspaces (List.mem_append_right _ (List.mem_append_right _ hq))
      (List.mem_append_right _ (hqd ▸ List.mem_map_of_mem hq))
  · intro p hp
    obtain ⟨q, hq, rfl⟩ := List.mem_map.1 hp
    have hin := List.mem_append_right qb (List.mem_append_left qd hq)
    exact (reset_written hf hm (hmem hin)).of_isRowOf (hrows q hin)
  · intro p hp
    obtain ⟨q, hq, rfl⟩ := List.mem_map.1 hp
    have hin := List.mem_append_right qb (List.mem_append_left qd hq)
    exact not_mem_of_isRowOf (hrows q hin) (not_mem_of_mem_lines (List.of_mem_zip (hmem hin)).1)
  · intro front y z back hsplit hkept
    obtain ⟨qf, ahead, rfl, rfl, hahead⟩ := List.map_eq_append_iff.1 hsplit
    obtain ⟨qy, next, rfl, rfl, hnext⟩ := List.map_eq_cons_iff.1 hahead
    obtain ⟨qz, last, rfl, rfl, rfl⟩ := List.map_eq_cons_iff.1 hnext
    refine @bridged_of_keepsNewline _ _ _ (qb ++ qf) (last ++ qd) _ _ hfst hrows ?_ ?_
    · simp only [List.append_assoc, List.cons_append]
    · rw [List.map_map] at hkept
      rw [List.map_append]
      exact hkept

/-- Written line by line behind margins, the body of a plain fragment is the fragment with other
breaks, white space at the front apart. -/
theorem exists_reflows (hf : IsPlainText f) (hm : IsMargin m) (T : List Char) :
    ∃ u p cs ds, f = u ++ cs ∧ u.all isSpace = true ∧
      '\n' :: ((ofSource f).lines.flatMap (fun l => written m l ++ ['\n']) ++ T) = p ++ ds ∧
      p.all isSpace = true ∧ Reflows ('\n' :: T) cs ds := by
  obtain ⟨u, p, cs, ds, hsource, hu, hwritten, hp, hi⟩ := exists_lays_ofSource hf.hasPlainEnds hm T
  exact ⟨u, p, cs, ds, hsource, hu, hwritten, hp, hi.reflows⟩

end PhpGraft.Body

import PhpGraft.Proofs.Syntax.Blocks
import PhpGraft.Proofs.Syntax.Continuing
import PhpGraft.Proofs.Syntax.Framing
import PhpGraft.Proofs.Syntax.Statements

/-!
# Bodies in a class and bodies by themselves

A body is read twice: from a file, up to the brace that closes the method, and from a fragment, whose
brackets have to be balanced. Both readers cut the source into the same tokens and count the same
brackets, but for the openings of attribute lists, which only the first one counts.
-/

namespace PhpGraft

open Lexer Text

namespace Reader

variable {t e close : Token} {ts us openers rest : List Token}

/-! ## Brackets -/

section Steps

variable (htag : (t.kind == .closeTag) = false)

include htag

/-- An opener is put ahead of the others. -/
theorem balanced_open (hopen : (t.isPunct '(' || t.isPunct '[' || t.isPunct '{') = true) :
    balanced openers (t :: ts) = balanced (t :: openers) ts := by
  conv => lhs; unfold balanced
  rw [if_neg (by simp [htag]), if_pos hopen]

/-- A token that is no bracket is passed over. -/
theorem balanced_plain (hopen : (t.isPunct '(' || t.isPunct '[' || t.isPunct '{') = false)
    (hclose : t.closer? = none) : balanced openers (t :: ts) = balanced openers ts := by
  rw [balanced, if_neg (by simp [htag]), if_neg (by simp [hopen])]
  exact hclose

/-- A closer takes the last opener away. -/
theorem balanced_close {c : Char}
    (hopen : (t.isPunct '(' || t.isPunct '[' || t.isPunct '{') = false) (hclose : t.closer? = some c)
    (o : Token) : balanced (o :: openers) (t :: ts) = balanced openers ts := by
  conv => lhs; unfold balanced
  rw [if_neg (by simp [htag]), if_neg (by simp [hopen]), hclose]

/-- A closer without an opener ahead of it is an error. -/
theorem balanced_unmatched {c : Char}
    (hopen : (t.isPunct '(' || t.isPunct '[' || t.isPunct '{') = false)
    (hclose : t.closer? = some c) :
    balanced [] (t :: ts) = .error ⟨.unmatchedInBody c, t.start, 1⟩ := by
  unfold balanced
  rw [if_neg (by simp [htag]), if_neg (by simp [hopen]), hclose]

end Steps

/-- Whether brackets are balanced depends on what the tokens are, and on how many openers there are
ahead of them. -/
theorem balanced_congr {ts' openers' : List Token} (hkinds : ts'.map Token.kind = ts.map Token.kind)
    (hlength : openers'.length = openers.length) (h : balanced openers ts = .ok ()) :
    balanced openers' ts' = .ok () := by
  induction ts generalizing ts' openers openers' with
  | nil =>
    obtain rfl := List.map_eq_nil_iff.1 hkinds
    cases openers with
    | nil =>
      obtain rfl := List.eq_nil_of_length_eq_zero hlength
      exact h
    | cons o openers => cases h
  | cons t ts ih =>
    obtain ⟨t', ts', rfl, hkind, hkinds⟩ := List.map_eq_cons_iff.1 hkinds
    have hpunct (c : Char) : t'.isPunct c = t.isPunct c := by rw [Token.isPunct, hkind]; rfl
    have hcloser : t'.closer? = t.closer? := by rw [Token.closer?, hkind]; rfl
    have htag : (t.kind == .closeTag) = false := Bool.eq_false_iff.2 fun htag => by
      unfold balanced at h
      rw [if_pos htag] at h
      cases h
    have htag' : (t'.kind == .closeTag) = false := by rw [hkind, htag]
    cases hopen : (t.isPunct '(' || t.isPunct '[' || t.isPunct '{') with
    | true =>
      rw [balanced_open htag hopen] at h
      rw [balanced_open htag' (by rw [hpunct, hpunct, hpunct, hopen])]
      exact ih hkinds (by rw [List.length_cons, List.length_cons, hlength]) h
    | false =>
      have hopen' : (t'.isPunct '(' || t'.isPunct '[' || t'.isPunct '{') = false := by
        rw [hpunct, hpunct, hpunct, hopen]
      cases hclose : t.closer? with
      | none =>
        rw [balanced_plain htag hopen hclose] at h
        rw [balanced_plain htag' hopen' (hcloser.trans hclose)]
        exact ih hkinds hlength h
      | some c =>
        cases openers with
        | nil =>
          rw [balanced_unmatched htag hopen hclose] at h
          cases h
        | cons o openers =>
          obtain ⟨o', openers', rfl⟩ := List.exists_cons_of_length_pos
            (by rw [hlength, List.length_cons]; omega : 0 < openers'.length)
          rw [balanced_close htag hopen hclose] at h
          rw [balanced_close htag' hopen' (hcloser.trans hclose)]
          exact ih hkinds (Nat.succ.inj hlength) h

/-- There is no close tag in balanced source. -/
theorem ne_closeTag_of_balanced (h : balanced openers ts = .ok ()) :
    ∀ t ∈ ts, t.kind ≠ .closeTag := by
  induction ts generalizing openers with
  | nil => exact List.forall_mem_nil _
  | cons t ts ih =>
    have htag : (t.kind == .closeTag) = false := Bool.eq_false_iff.2 fun htag => by
      unfold balanced at h
      rw [if_pos htag] at h
      cases h
    refine List.forall_mem_cons.2 ⟨by simpa using htag, ?_⟩
    cases hopen : (t.isPunct '(' || t.isPunct '[' || t.isPunct '{') with
    | true => exact ih (balanced_open htag hopen ▸ h)
    | false =>
      cases hclose : t.closer? with
      | none => exact ih (balanced_plain htag hopen hclose ▸ h)
      | some c =>
        cases openers with
        | nil =>
          rw [balanced_unmatched htag hopen hclose] at h
          cases h
        | cons o openers => exact ih (balanced_close htag hopen hclose o ▸ h)

/-- At the end of the source the brackets are balanced if none is open. -/
theorem balanced_end (he : e.kind = .eof) : balanced openers [e] = .ok () ↔ openers = [] := by
  obtain ⟨kind, gap, text, start⟩ := e
  obtain rfl := he
  cases openers with
  | nil => exact ⟨fun _ => rfl, fun _ => rfl⟩
  | cons o openers => exact ⟨nofun, nofun⟩

/-- The brackets of a block are balanced by themselves, unless there is an attribute list: its opening
counts in the block, but not by itself. -/
theorem exists_of_blockSource? {depth : Nat} {source : List Char}
    (h : blockSource? depth ts = some (source, rest)) :
    ∃ us close, ts = us ++ close :: rest ∧ source = Token.spelled us ++ close.gap ∧
      close.closer?.isSome = true ∧ (∀ t ∈ us, t.isEnd = false) ∧
      ∀ openers e, e.kind = .eof → openers.length ≤ depth →
        (balanced openers (us ++ [e]) = .ok () ↔
          openers.length = depth ∧ ∀ t ∈ us, t.kind ≠ .attributeOpen) := by
  induction ts generalizing depth source with
  | nil => cases h
  | cons t ts ih =>
    unfold blockSource? at h
    split at h
    · cases h
    next hend =>
    have hgoes : t.isEnd = false := by simpa using hend
    have htag : (t.kind == .closeTag) = false :=
      Bool.eq_false_iff.2 fun htag => hend (by rw [Token.isEnd, htag, Bool.or_true])
    -- what the search does behind this token
    have hstep {d : Nat} (hrest : (blockSource? d ts).map (consSource t) = some (source, rest))
        (hbalanced : ∀ openers e us, e.kind = .eof → openers.length ≤ depth →
          (∀ openers e, e.kind = .eof → openers.length ≤ d →
            (balanced openers (us ++ [e]) = .ok () ↔
              openers.length = d ∧ ∀ t ∈ us, t.kind ≠ .attributeOpen)) →
          (balanced openers (t :: (us ++ [e])) = .ok () ↔
            openers.length = depth ∧ t.kind ≠ .attributeOpen ∧ ∀ t ∈ us, t.kind ≠ .attributeOpen)) :
        ∃ us close, t :: ts = us ++ close :: rest ∧ source = Token.spelled us ++ close.gap ∧
          close.closer?.isSome = true ∧ (∀ t ∈ us, t.isEnd = false) ∧
          ∀ openers e, e.kind = .eof → openers.length ≤ depth →
            (balanced openers (us ++ [e]) = .ok () ↔
              openers.length = depth ∧ ∀ t ∈ us, t.kind ≠ .attributeOpen) := by
      obtain ⟨⟨inner, behind⟩, hinner, he⟩ := Option.map_eq_some_iff.1 hrest
      obtain ⟨rfl, rfl⟩ := Prod.mk.inj he
      obtain ⟨us, close, rfl, rfl, hclose, hus, hiff⟩ := ih hinner
      refine ⟨t :: us, close, rfl, ?_, hclose, List.forall_mem_cons.2 ⟨hgoes, hus⟩,
        fun openers e he hlength => ?_⟩
      · simp only [Token.spelled_cons, List.append_assoc]
      · rw [List.cons_append, hbalanced openers e us he hlength hiff, List.forall_mem_cons]
    split at h
    · next hopener =>
      refine hstep h fun openers e us he hlength hiff => ?_
      by_cases hattribute : t.kind = .attributeOpen
      · -- the opening of an attribute list counts for the depth only
        obtain ⟨kind, gap, text, start⟩ := t
        obtain rfl := hattribute
        rw [balanced_plain rfl rfl rfl]
        refine ⟨fun h => ?_, fun h => absurd rfl h.2.1⟩
        have := ((hiff openers e he (Nat.le_succ_of_le hlength)).1 h).1
        omega
      · have hopen : (t.isPunct '(' || t.isPunct '[' || t.isPunct '{') = true := by
          rw [Token.isOpener, beq_false_of_ne hattribute, Bool.or_false] at hopener
          exact hopener
        rw [balanced_open htag hopen, hiff (t :: openers) e he (Nat.succ_le_succ hlength), List.length_cons,
          Nat.add_right_cancel_iff]
        exact ⟨fun h => ⟨h.1, hattribute, h.2⟩, fun h => ⟨h.1, h.2.2⟩⟩
    · next hopener =>
      have hopen : (t.isPunct '(' || t.isPunct '[' || t.isPunct '{') = false :=
        Bool.eq_false_iff.2 fun hopen => hopener (by rw [Token.isOpener, hopen, Bool.true_or])
      have hattribute : t.kind ≠ .attributeOpen := fun he =>
        hopener (by rw [Token.isOpener, he]; simp)
      split at h
      · next hcloser =>
        obtain ⟨c, hc⟩ := Option.isSome_iff_exists.1 hcloser
        split at h
        · next hdepth =>
          obtain ⟨rfl, rfl⟩ := Prod.mk.inj (Option.some.inj h)
          refine ⟨[], t, rfl, rfl, hcloser, List.forall_mem_nil _, fun openers e he hlength => ?_⟩
          rw [List.nil_append, balanced_end he, ← List.length_eq_zero_iff, hdepth]
          exact ⟨fun h => ⟨h, List.forall_mem_nil _⟩, fun h => h.1⟩
        · next hdepth =>
          refine hstep h fun openers e us he hlength hiff => ?_
          cases openers with
          | nil =>
            rw [balanced_unmatched htag hopen hc]
            exact ⟨fun h => (by cases h), fun h => absurd h.1.symm hdepth⟩
          | cons o openers =>
            rw [balanced_close htag hopen hc]
            rw [List.length_cons] at hlength ⊢
            refine (hiff openers e he (by omega)).trans ?_
            exact ⟨fun h => ⟨by omega, hattribute, h.2⟩, fun h => ⟨by omega, h.2.2⟩⟩
      · next hcloser =>
        refine hstep h fun openers e us he hlength hiff => ?_
        have hnone : t.closer? = none := by simpa using hcloser
        rw [balanced_plain htag hopen hnone]
        exact (hiff openers e he hlength).trans
          ⟨fun h => ⟨h.1, hattribute, h.2⟩, fun h => ⟨h.1, h.2.2⟩⟩

/-- Balanced tokens without attribute lists are a block up to a brace behind them. -/
theorem blockSource?_of_balanced (he : e.kind = .eof) (heof : ∀ t ∈ us, t.kind ≠ .eof)
    (hattribute : ∀ t ∈ us, t.kind ≠ .attributeOpen) (hclose : close.kind = .punct '}')
    (h : balanced openers (us ++ [e]) = .ok ()) (rest : List Token) :
    blockSource? openers.length (us ++ close :: rest) =
      some (Token.spelled us ++ close.gap, rest) := by
  refine blockSource?_of_depth (depthBehind?_of_balanced he heof hattribute h) ?_ rest
  rw [Token.closer?, hclose]
  rfl

end Reader

namespace Body

/-! ## The two readers of a body -/

/-- The class with a method of which a fragment is the body. -/
def host (fragment : String) : String :=
  "<?php class A \x7b function m() \x7b\n" ++ fragment ++ "\n\x7d \x7d"

/-- What the class is read as if the method has a given body. -/
def hosted (b : Body) : Outline :=
  .file [.mk { kind := .classDecl ⟨some "A", .none, none, []⟩ }
    [.leaf { kind := .methodDecl { name := "m", body? := some b } }]]

/-- A fragment that is all of the body of the method in its class, read as the body `b`. -/
structure Captures (fragment : String) (b : Body) : Prop where
  /-- The class is read with the method in it. -/
  outline : Outline.parse (host fragment) = .ok (hosted b)
  /-- The block behind the head of the method ends behind the fragment. -/
  extent : ∃ before inner rest, Lexer.file (host fragment) = .ok (before ++ inner) ∧
    Token.spelled before = "<?php class A \x7b function m() \x7b".toList ∧
    Reader.blockSource? 0 inner = some ('\n' :: (fragment.toList ++ ['\n']), rest)

/-- A fragment with an attribute list. -/
def HasAttributes (fragment : String) : Prop :=
  ∃ ts, Lexer.fragment fragment = .ok ts ∧ ∃ t ∈ ts, t.kind = .attributeOpen

variable {us before inner rest : List Token} {e : Token} {f : List Char} {start : Nat}

/-- A fragment is read as a body if its brackets are balanced. -/
theorem parse_eq_ok_iff {fragment : String} {b : Body} : Body.parse fragment = .ok b ↔
    (∃ ts, Lexer.fragment fragment = .ok ts ∧ Reader.balanced [] ts = .ok ()) ∧
      b = ofSource fragment.toList := by
  rw [Body.parse]
  cases hts : Lexer.fragment fragment with
  | error fault => exact ⟨nofun, fun h => absurd h.1.choose_spec.1 nofun⟩
  | ok ts =>
    cases hb : Reader.balanced [] ts with
    | error fault =>
      refine ⟨fun h => ?_, fun ⟨⟨us, hus, hbalanced⟩, _⟩ => ?_⟩
      · simp [Bind.bind, Except.bind, hb] at h
      · obtain rfl := Except.ok.inj hus
        exact absurd (hb.symm.trans hbalanced) nofun
    | ok _ =>
      simp only [Bind.bind, Except.bind, hb, Pure.pure, Except.pure, Except.ok.injEq]
      exact ⟨fun h => ⟨⟨ts, rfl, hb⟩, h.symm⟩, fun h => h.2.symm⟩

/-- The source of a block has the tokens of the block, whatever it was taken from. -/
theorem tokens_of_block {cs source : List Char} (h : tokens start cs = .ok (before ++ inner))
    (hblock : Reader.blockSource? 0 inner = some (source, rest)) (start' : Nat) :
    ∃ us e, tokens start' source = .ok (us ++ [e]) ∧ e.kind = .eof ∧
      (∀ t ∈ us, t.kind ≠ .closeTag) ∧
      (Reader.balanced [] (us ++ [e]) = .ok () ↔ ∀ t ∈ us, t.kind ≠ .attributeOpen) := by
  obtain ⟨us, close, rfl, rfl, -, hend, hiff⟩ := Reader.exists_of_blockSource? hblock
  obtain ⟨start₁, cs₁, htokens⟩ := tokens_suffix h (by simp)
  obtain ⟨start₂, cs₂, hbehind⟩ := tokens_suffix htokens (by simp)
  have hclose : ∀ t ∈ us, t.kind ≠ .closeTag := by
    intro t ht hkind
    have := hend t ht
    rw [Token.isEnd, hkind] at this
    exact absurd this (by simp)
  have hlast : ∃ e, tokens (start' + byteLength (Token.spelled us)) (close.gap ++ []) = .ok [e] ∧
      e.kind = .eof := by
    rw [List.append_nil, tokens_end (gapLength_gap hbehind) (List.drop_length ..)]
    exact ⟨_, rfl, rfl⟩
  obtain ⟨e, hlast, he⟩ := hlast
  obtain ⟨us', hsame, -, hwhole⟩ :=
    tokens_continue htokens (Token.spelled_cons close rest) (by simp) hclose ends_nil hlast
  have hkinds := kinds_same hsame
  have hforall (kind : TokenKind) : (∀ t ∈ us', t.kind ≠ kind) ↔ ∀ t ∈ us, t.kind ≠ kind := by
    rw [← List.forall_mem_map (f := Token.kind) (P := fun k => k ≠ kind), hkinds, List.forall_mem_map]
  rw [List.append_nil] at hwhole
  refine ⟨us', e, hwhole, he, (hforall _).2 hclose, ?_⟩
  rw [hforall]
  have hsame : (us' ++ [e]).map Token.kind = (us ++ [e]).map Token.kind := by
    rw [List.map_append, List.map_append, hkinds]
  have hbrackets := hiff [] e he (Nat.le_refl 0)
  refine Iff.trans ?_ (hbrackets.trans (and_iff_right rfl))
  exact ⟨Reader.balanced_congr hsame.symm rfl, Reader.balanced_congr hsame rfl⟩

/-- By itself, the source of a block is read as the body that the block is, unless it has an attribute
list: then it is refused. -/
theorem parse_of_block {cs source : List Char} (h : tokens start cs = .ok (before ++ inner))
    (hblock : Reader.blockSource? 0 inner = some (source, rest)) :
    Body.parse (String.ofList source) = .ok (ofSource source) ↔ ¬ HasAttributes (String.ofList source) := by
  obtain ⟨us, e, hts, he, -, hiff⟩ := tokens_of_block h hblock 0
  have hfragment : Lexer.fragment (String.ofList source) = .ok (us ++ [e]) := by
    rw [Lexer.fragment, String.toList_ofList, hts]
  rw [parse_eq_ok_iff, String.toList_ofList]
  constructor
  · rintro ⟨⟨ts, hts', hbalanced⟩, -⟩ ⟨ts'', hts'', t, ht, hkind⟩
    obtain rfl := Except.ok.inj (hfragment.symm.trans hts')
    obtain rfl := Except.ok.inj (hfragment.symm.trans hts'')
    rcases List.mem_append.1 ht with ht | ht
    · exact hiff.1 hbalanced t ht hkind
    · rw [List.mem_singleton.1 ht, he] at hkind
      exact absurd hkind nofun
  · refine fun hnone => ⟨⟨us ++ [e], hfragment, hiff.2 fun t ht hkind => hnone ?_⟩, rfl⟩
    exact ⟨us ++ [e], hfragment, t, List.mem_append_left _ ht, hkind⟩

/-- Without the newlines around it a fragment has tokens of the same kinds. -/
theorem tokens_of_newlines {ts : List Token} (h : tokens start ('\n' :: (f ++ ['\n'])) = .ok ts)
    (hclose : ∀ t ∈ ts, t.kind ≠ .closeTag) :
    ∃ ts', tokens 0 f = .ok ts' ∧ ts'.map Token.kind = ts.map Token.kind := by
  obtain ⟨t, more, rfl, hbehind⟩ := tokens_of_blank_append (b := ['\n']) rfl h
  obtain ⟨us, e, husplit, he, htext, heof⟩ := tokens_last hbehind
  rw [husplit] at hbehind
  have hkinds : (us ++ [e]).map Token.kind =
      (({ t with gap := ['\n'] ++ t.gap } : Token) :: more).map Token.kind := by rw [← husplit]; rfl
  have hnotag : ∀ t ∈ us, t.kind ≠ .closeTag := by
    intro t ht hkind
    have hmem : TokenKind.closeTag ∈ (us ++ [e]).map Token.kind :=
      hkind ▸ List.mem_map_of_mem (List.mem_append_left _ ht)
    rw [hkinds] at hmem
    obtain ⟨t', ht', hkind'⟩ := List.mem_map.1 hmem
    exact hclose t' ht' hkind'
  have hspelled : Token.spelled us ++ e.gap = f ++ ['\n'] := by
    have := spelled_tokens hbehind
    simpa [Token.spelled, htext] using this
  obtain ⟨start₁, cs₁, hend⟩ := tokens_suffix hbehind (List.cons_ne_nil _ _)
  have hgap := gapLength_gap hend
  -- the newline behind the fragment is a part of the last gap, as no token ends with it
  rcases List.eq_nil_or_concat e.gap with hnil | ⟨w, x, hw⟩
  · rw [hnil, List.append_nil] at hspelled
    rcases List.eq_nil_or_concat us with rfl | ⟨init, last, rfl⟩
    · exact absurd hspelled (by simp [Token.spelled])
    · rw [List.concat_eq_append] at hspelled hbehind heof
      obtain ⟨start₂, cs₂, hlast⟩ := @tokens_suffix _ _ init [last, e]
        (by rw [hbehind, List.append_assoc]; rfl) (List.cons_ne_nil _ _)
      obtain ⟨d, hd, hne⟩ := exists_getLast?_text hlast (heof last (by simp))
      have := congrArg List.getLast? hspelled
      simp [Token.spelled, List.getLast?_append, hd] at this
      exact absurd this hne
  · rw [List.concat_eq_append] at hw
    rw [hw, ← List.append_assoc] at hspelled
    obtain ⟨rfl, hx⟩ := List.append_inj' hspelled rfl
    obtain rfl : x = '\n' := by simpa using hx
    rw [hw] at hgap
    have hwhole : gapLength w = .ok w.length :=
      gapLength_whole hgap (.inr ⟨by simp, [], rfl⟩)
    obtain ⟨us', hsame, -, htokens⟩ := @tokens_continue us [e] _ _ 0 _ w ['\n'] [] hbehind
      (by simp [Token.spelled, hw, htext]) (List.cons_ne_nil _ _) hnotag ends_nil
      (by rw [List.append_nil]; exact tokens_end hwhole (List.drop_length ..))
    rw [List.append_nil] at htokens
    refine ⟨_, htokens, ?_⟩
    rw [← hkinds, List.map_append, List.map_append, kinds_same hsame, List.map_singleton,
      List.map_singleton, he]

/-- Between newlines, and ahead of a brace, a fragment has the tokens that it has by itself. -/
theorem exists_enclosed {qs : List Part} {r : List Char} (h : tokens 0 f = .ok (us ++ [e]))
    (he : e.text = []) (hclose : ∀ t ∈ us, t.kind ≠ .closeTag) (hr : Scans r qs) (start : Nat) :
    ∃ us' close fs, tokens start ('\n' :: (f ++ '\n' :: '}' :: r)) = .ok (us' ++ close :: fs) ∧
      Spells fs qs ∧ close.kind = .punct '}' ∧
      Token.spelled us' ++ close.gap = '\n' :: (f ++ ['\n']) ∧
      us'.map Token.kind = us.map Token.kind := by
  obtain ⟨start₁, cs₁, hend⟩ := tokens_suffix h (List.cons_ne_nil _ _)
  have hbrace : gapLength ('\n' :: '}' :: r) = .ok 1 := gapLength_token rfl rfl
  have hgap := gapLength_newline (gapLength_gap hend) hbrace
  have hspelled : f = Token.spelled us ++ e.gap := by
    rw [← spelled_tokens h]
    simp [Token.spelled, he]
  have htake : (e.gap ++ '\n' :: '}' :: r).take (e.gap.length + 1) = e.gap ++ ['\n'] :=
    List.take_length_add_append 1
  have hdrop : (e.gap ++ '\n' :: '}' :: r).drop (e.gap.length + 1) = '}' :: r :=
    List.drop_length_add_append 1
  have hlast (start : Nat) : ∃ fs, tokens start (e.gap ++ '\n' :: '}' :: r) =
      .ok (⟨.punct '}', e.gap ++ ['\n'], ['}'], start + byteLength (e.gap ++ ['\n'])⟩ :: fs) ∧
      Spells fs qs := by
    obtain ⟨fs, hfs, hspells⟩ := hr (start + byteLength (e.gap ++ ['\n']) + byteLength ['}'])
    have := @tokens_cons start _ _ r '}' 0 (.punct '}') fs hgap hdrop (scan_sign rfl r)
      (by rw [htake]; exact hfs)
    rw [htake] at this
    exact ⟨fs, this, hspells⟩
  obtain ⟨fs, hfs, hspells⟩ := hlast (start + byteLength ['\n'] + byteLength (Token.spelled us))
  obtain ⟨us', hsame, -, htokens⟩ := @tokens_continue us [e] _ _ (start + byteLength ['\n']) _ e.gap []
    ('\n' :: '}' :: r) h (by simp [Token.spelled, he]) (List.cons_ne_nil _ _) hclose
    (ends_cons rfl _) hfs
  obtain ⟨t, more, hfirst, hwhole⟩ := tokens_blank_append (b := ['\n']) rfl htokens
  have hsource : ['\n'] ++ (Token.spelled us ++ (e.gap ++ '\n' :: '}' :: r)) =
      '\n' :: (f ++ '\n' :: '}' :: r) := by
    rw [hspelled, List.append_assoc]
    rfl
  rw [hsource] at hwhole
  have hinner := spelled_same hsame
  cases us' with
  | nil =>
    obtain ⟨rfl, rfl⟩ := List.cons.inj hfirst
    refine ⟨[], _, fs, hwhole, hspells, rfl, ?_, kinds_same hsame⟩
    rw [hspelled, ← hinner]
    simp [Token.spelled]
  | cons u us' =>
    obtain ⟨rfl, rfl⟩ := List.cons.inj hfirst
    refine ⟨{ u with gap := ['\n'] ++ u.gap } :: us', _, fs, hwhole, hspells, rfl, ?_, ?_⟩
    · rw [hspelled, ← hinner]
      simp [Token.spelled]
    · rw [← kinds_same hsame]
      rfl

/-- The head of the class and of its method, up to the brace that opens the body. -/
def hostHead : List Token :=
  [⟨.name, [' '], "class".toList, 6⟩, ⟨.name, [' '], "A".toList, 12⟩, ⟨.punct '{', [' '], ['{'], 14⟩,
    ⟨.name, [' '], "function".toList, 16⟩, ⟨.name, [' '], "m".toList, 25⟩, ⟨.punct '(', [], ['('], 26⟩,
    ⟨.punct ')', [], [')'], 27⟩, ⟨.punct '{', [' '], ['{'], 29⟩]

/-- A result that is there is no error. -/
theorem eq_ok_of_toOption {ε α : Type} {e : Except ε α} {a : α} (h : e.toOption = some a) :
    e = .ok a := by
  cases e with
  | error fault => exact absurd h nofun
  | ok b => exact congrArg _ (Option.some.inj h)

/-- The head is cut into its tokens. -/
theorem tokens_hostHead : tokens 5 (Token.spelled hostHead) = .ok (hostHead ++ [⟨.eof, [], [], 30⟩]) := by
  have hread : (tokens 5 (Token.spelled hostHead)).toOption =
      some (hostHead ++ [⟨.eof, [], [], 30⟩]) := by decide +kernel
  exact eq_ok_of_toOption hread

/-- The head of the class and of its method, behind the open tag. -/
theorem toList_head : "<?php class A \x7b function m() \x7b\n".toList =
    openTag ++ (Token.spelled hostHead ++ ['\n']) := by decide +kernel

/-- The class with a fragment as the body of its method. -/
theorem toList_host (fragment : String) : (host fragment).toList =
    openTag ++ (Token.spelled hostHead ++ '\n' :: (fragment.toList ++ '\n' :: '}' :: [' ', '}'])) := by
  have htail : "\n\x7d \x7d".toList = '\n' :: '}' :: [' ', '}'] := by decide
  unfold host
  rw [String.toList_append, String.toList_append, toList_head, htail]
  rw [List.append_assoc, List.append_assoc, List.append_assoc]
  rfl

/-- The class is read with the body that its block is. -/
theorem statements_host {b : Body} {inner fs : List Token} (hinner : Encloses inner b)
    (hfs : Spells fs [.sign '}', .word .eof ""]) :
    Reader.statements ⟨[], none⟩ (hostHead ++ (inner ++ fs)) =
      .ok [.mk { kind := .classDecl ⟨some "A", .none, none, []⟩ }
        [.leaf { kind := .methodDecl { name := "m", body? := some b } }]] := by
  let file : PlainFile :=
    ⟨[.classDecl ⟨none, "A", .none, none, [], [⟨none, .methodDecl { name := "m", body? := some b }⟩]⟩], none⟩
  have hfile : file.IsRead :=
    ⟨List.forall_mem_singleton.2 ⟨fun m hm => by cases m <;> exact absurd hm Bool.false_ne_true,
      List.forall_mem_singleton.2 fun p hp => absurd hp nofun⟩, nofun⟩
  refine Reader.statements_parts hfile ?_
  have hword {t : Token} {ts : List Token} {ps : List Part} {kind : TokenKind} {text : String}
      (ht : t.kind = kind ∧ t.text = text.toList ∧ t.gap.all isBlank = true) (h : Spells ts ps) :
      Spells (t :: ts) (.word kind text :: ps) := .word ht.1 ht.2.1 ht.2.2 h
  have hblock : Spells (⟨.punct '{', [' '], ['{'], 29⟩ :: (inner ++ fs))
      [.block b, .sign '}', .word .eof ""] := .block rfl hinner rfl hfs
  exact hword ⟨rfl, rfl, rfl⟩ <| hword ⟨rfl, rfl, rfl⟩ <| hword ⟨rfl, rfl, rfl⟩ <|
    hword ⟨rfl, rfl, rfl⟩ <| hword ⟨rfl, rfl, rfl⟩ <| hword ⟨rfl, rfl, rfl⟩ <|
      hword ⟨rfl, rfl, rfl⟩ hblock

/-- A fragment is the body of the method in its class if its tokens are a block. -/
theorem captures_of_block {fragment : String} {close : Token} {fs : List Token}
    (hinner : tokens 30 ('\n' :: (fragment.toList ++ '\n' :: '}' :: [' ', '}'])) = .ok (us ++ close :: fs))
    (hfs : Spells fs [.sign '}', .word .eof ""])
    (hblock : ∀ rest, Reader.blockSource? 0 (us ++ close :: rest) =
      some ('\n' :: (fragment.toList ++ ['\n']), rest)) :
    Captures fragment (ofSource ('\n' :: (fragment.toList ++ ['\n']))) := by
  obtain ⟨_, -, hsame, htokens⟩ := @tokens_continue hostHead [⟨.eof, [], [], 30⟩] _ 5 5 _ [] []
    _ tokens_hostHead rfl (List.cons_ne_nil _ _) (by decide) (ends_cons rfl _) hinner
  obtain rfl := hsame rfl
  have hfile := Lexer.file_of_tokens (toList_host fragment) htokens
  constructor
  · refine Outline.parse_of_tokens hfile ?_
    rw [List.append_cons]
    refine statements_host ⟨_, fun rest => ?_, rfl⟩ hfs
    rw [List.append_assoc]
    exact hblock rest
  · exact ⟨⟨.openTag, [], openTag, 0⟩ :: hostHead, us ++ close :: fs, fs, hfile, by decide +kernel, hblock fs⟩

/-- A fragment that is read as a body by itself is the body of the method in its class. -/
theorem captures_of_parse {fragment : String} (hnone : ¬ HasAttributes fragment)
    {b : Body} (h : Body.parse fragment = .ok b) :
    Captures fragment (ofSource ('\n' :: (fragment.toList ++ ['\n']))) := by
  obtain ⟨⟨ts, hts, hbalanced⟩, -⟩ := parse_eq_ok_iff.1 h
  obtain ⟨us, e, rfl, he, htext, heof⟩ := tokens_last hts
  have hattribute : ∀ t ∈ us, t.kind ≠ .attributeOpen := fun t ht hkind =>
    hnone ⟨_, hts, t, List.mem_append_left _ ht, hkind⟩
  have hclose : ∀ t ∈ us, t.kind ≠ .closeTag := fun t ht =>
    Reader.ne_closeTag_of_balanced hbalanced t (List.mem_append_left _ ht)
  have hbehind : Scans [' ', '}'] [.sign '}', .word .eof ""] :=
    Scans.blank_append (g := [' ']) rfl (Lexes.sign (c := '}') rfl [] _ trivial .nil)
  obtain ⟨us', close, fs, hinner, hfs, hkind, hsource, hkinds⟩ :=
    exists_enclosed hts htext hclose hbehind 30
  have hforall {kind : TokenKind} (h : ∀ t ∈ us, t.kind ≠ kind) : ∀ t ∈ us', t.kind ≠ kind := by
    rw [← List.forall_mem_map (f := Token.kind) (P := fun k => k ≠ kind)] at h ⊢
    rwa [hkinds]
  refine captures_of_block hinner hfs fun rest => ?_
  rw [← hsource]
  refine @Reader.blockSource?_of_balanced e close us' [] he (hforall heof) (hforall hattribute) hkind ?_ rest
  refine Reader.balanced_congr ?_ rfl hbalanced
  rw [List.map_append, List.map_append, hkinds]

/-- The tokens of a file behind its open tag are those of the code behind it. -/
theorem exists_of_file {source : String} (h : Lexer.file source = .ok (before ++ inner))
    (hbefore : before ≠ []) (hinner : inner ≠ []) :
    ∃ start cs before, tokens start cs = .ok (before ++ inner) := by
  obtain ⟨first, before, rfl⟩ := List.exists_cons_of_ne_nil hbefore
  obtain ⟨start, cs, hcode⟩ := Lexer.exists_of_file h (List.append_ne_nil_of_right_ne_nil before hinner)
  exact ⟨start, cs, before, hcode⟩

/-- A fragment that is the body of the method in its class has tokens, and their brackets are balanced
unless there is an attribute list among them. -/
theorem Captures.balanced_iff {fragment : String} {b : Body} (h : Captures fragment b) :
    ∃ ts, Lexer.fragment fragment = .ok ts ∧
      (Reader.balanced [] ts = .ok () ↔ ∀ t ∈ ts, t.kind ≠ .attributeOpen) := by
  obtain ⟨before, inner, rest, hfile, hbefore, hblock⟩ := h.extent
  obtain ⟨start, cs, front, hts⟩ := exists_of_file hfile
    (by rintro rfl; exact absurd hbefore (by decide)) (by rintro rfl; exact absurd hblock nofun)
  obtain ⟨us, e, hframed, he, hclose, hiff⟩ := tokens_of_block hts hblock 0
  have hclose' : ∀ t ∈ us ++ [e], t.kind ≠ .closeTag := by
    intro t ht
    rcases List.mem_append.1 ht with ht | ht
    · exact hclose t ht
    · rw [List.mem_singleton.1 ht, he]
      exact nofun
  obtain ⟨ts, htokens, hkinds⟩ := tokens_of_newlines hframed hclose'
  refine ⟨ts, htokens, ?_⟩
  have hbrackets : Reader.balanced [] ts = .ok () ↔ Reader.balanced [] (us ++ [e]) = .ok () :=
    ⟨Reader.balanced_congr hkinds.symm rfl, Reader.balanced_congr hkinds rfl⟩
  rw [hbrackets, hiff, ← List.forall_mem_map (f := Token.kind) (P := fun k => k ≠ .attributeOpen),
    ← List.forall_mem_map (f := Token.kind) (P := fun k => k ≠ .attributeOpen), hkinds,
    List.map_append, List.forall_mem_append, List.map_singleton, he]
  exact (and_iff_left (List.forall_mem_singleton.2 nofun)).symm

/-- The two readers of a body.

* A fragment with an attribute list is refused by itself, or it is not all of the body in its class.
* Any other fragment is read as a body by itself just if it is the body of the method in its class.
* The two bodies are the same, unless the fragment ends in a raw line and a carriage return behind it.
* A block from any file is read by itself as the same body, just if it holds no attribute list. -/
theorem parse_iff_captures (fragment : String) :
    (HasAttributes fragment →
      ¬ ((∃ b, Body.parse fragment = .ok b) ∧ ∃ b, Captures fragment b)) ∧
    (¬ HasAttributes fragment →
      ((∃ b, Body.parse fragment = .ok b) ↔ ∃ b, Captures fragment b)) ∧
    (∀ b b', Body.parse fragment = .ok b → Captures fragment b' →
      (b = b' ↔ ¬ (fragment.toList.getLast? = some '\r' ∧
        (rawFlags (Text.lines fragment.toList)).getLast? = some true))) ∧
    ∀ (file : String) (before inner rest : List Token) (block : List Char),
      Lexer.file file = .ok (before ++ inner) → before ≠ [] →
      Reader.blockSource? 0 inner = some (block, rest) →
      (Body.parse (String.ofList block) = .ok (ofSource block) ↔
        ¬ HasAttributes (String.ofList block)) := by
  have hnone {b b' : Body} (h : Body.parse fragment = .ok b) (hb' : Captures fragment b') :
      ¬ HasAttributes fragment := by
    rintro ⟨ts, hts, t, ht, hkind⟩
    obtain ⟨⟨ts', hts', hbalanced⟩, -⟩ := parse_eq_ok_iff.1 h
    obtain ⟨ts'', hts'', hiff⟩ := hb'.balanced_iff
    obtain rfl := Except.ok.inj (hts.symm.trans hts')
    obtain rfl := Except.ok.inj (hts.symm.trans hts'')
    exact hiff.1 hbalanced t ht hkind
  refine ⟨?_, ?_, ?_, ?_⟩
  · rintro hattributes ⟨⟨b, hb⟩, b', hb'⟩
    exact hnone hb hb' hattributes
  · intro hattributes
    constructor
    · rintro ⟨b, hb⟩
      exact ⟨_, captures_of_parse hattributes hb⟩
    · rintro ⟨b, hb⟩
      obtain ⟨ts, hts, hiff⟩ := hb.balanced_iff
      refine ⟨_, parse_eq_ok_iff.2 ⟨⟨ts, hts, hiff.2 fun t ht hkind => hattributes ?_⟩, rfl⟩⟩
      exact ⟨ts, hts, t, ht, hkind⟩
  · intro b b' hb hb'
    have hframed := captures_of_parse (hnone hb hb') hb
    have hsame : hosted b' = hosted (ofSource ('\n' :: (fragment.toList ++ ['\n']))) :=
      Except.ok.inj (hb'.outline.symm.trans hframed.outline)
    have hbody : b' = ofSource ('\n' :: (fragment.toList ++ ['\n'])) := by
      simpa [hosted, Outline.file, Outline.leaf] using hsame
    rw [hbody, (parse_eq_ok_iff.1 hb).2]
    exact ofSource_newlines fragment.toList
  · intro file before inner rest block hfile hbefore hblock
    obtain ⟨start, cs, front, hts⟩ := exists_of_file hfile hbefore
      (by rintro rfl; exact absurd hblock nofun)
    exact parse_of_block hts hblock

/-- A fragment without attribute lists is read by both readers. -/
theorem captures_return : (∃ b, Body.parse "return $x;" = .ok b) ∧ ∃ b, Captures "return $x;" b := by
  have htokens : (Lexer.fragment "return $x;").toOption.map (·.map Token.kind) =
      some [.name, .var, .punct ';', .eof] := by decide +kernel
  have hnone : ¬ HasAttributes "return $x;" := by
    rintro ⟨ts, hts, t, ht, hkind⟩
    rw [hts] at htokens
    have hkinds : ts.map Token.kind = [.name, .var, .punct ';', .eof] := Option.some.inj htokens
    have hmem : TokenKind.attributeOpen ∈ ts.map Token.kind := hkind ▸ List.mem_map_of_mem ht
    rw [hkinds] at hmem
    exact absurd hmem (by decide)
  have hparse : ∃ b, Body.parse "return $x;" = .ok b := by
    have hok : (Body.parse "return $x;").isOk = true := by decide +kernel
    cases h : Body.parse "return $x;" with
    | error fault => rw [h] at hok; exact absurd hok nofun
    | ok b => exact ⟨b, rfl⟩
  exact ⟨hparse, ((parse_iff_captures "return $x;").2.1 hnone).1 hparse⟩

/-- An attribute list closes with a bracket that only one of the readers has seen open: the fragment is
the body of the method in its class, and it is refused by itself. -/
theorem captures_attribute : (¬ ∃ b, Body.parse "$f = #[Pure] fn() => 1;" = .ok b) ∧
    ∃ b, Captures "$f = #[Pure] fn() => 1;" b := by
  constructor
  · rintro ⟨b, h⟩
    have hfails : (Body.parse "$f = #[Pure] fn() => 1;").isOk = false := by decide +kernel
    rw [h] at hfails
    exact absurd hfails nofun
  · let us : List Token :=
      [⟨.var, ['\n'], "$f".toList, 31⟩, ⟨.punct '=', [' '], ['='], 34⟩,
        ⟨.attributeOpen, [' '], "#[".toList, 36⟩, ⟨.name, [], "Pure".toList, 38⟩,
        ⟨.punct ']', [], [']'], 42⟩, ⟨.name, [' '], "fn".toList, 44⟩, ⟨.punct '(', [], ['('], 46⟩,
        ⟨.punct ')', [], [')'], 47⟩, ⟨.doubleArrow, [' '], "=>".toList, 49⟩, ⟨.int 1, [' '], ['1'], 52⟩,
        ⟨.punct ';', [], [';'], 53⟩]
    let close : Token := ⟨.punct '}', ['\n'], ['}'], 55⟩
    let fs : List Token := [⟨.punct '}', [' '], ['}'], 57⟩, ⟨.eof, [], [], 58⟩]
    have hread : (tokens 30 ('\n' :: ("$f = #[Pure] fn() => 1;".toList ++
        '\n' :: '}' :: [' ', '}']))).toOption = some (us ++ close :: fs) := by decide +kernel
    have hinner : tokens 30 ('\n' :: ("$f = #[Pure] fn() => 1;".toList ++
        '\n' :: '}' :: [' ', '}'])) = .ok (us ++ close :: fs) := eq_ok_of_toOption hread
    exact ⟨_, captures_of_block hinner (.word rfl rfl rfl (.word rfl rfl rfl .nil)) fun rest => rfl⟩

end Body

end PhpGraft

import PhpGraft.Proofs.Syntax.Items
import PhpGraft.Proofs.Syntax.Nesting
import PhpGraft.Proofs.Syntax.Scopes

/-!
# Members one after another

What a scope holds is read member by member. Where no comments stand, the members at its front are read in
the same way whatever follows them, if those that are kept as source text are closed and nothing continues
the last one (`scopeItems_front`). The members behind are read in the same way wherever they stand and
whatever was read ahead of them (`scopeItems_alike`).
-/

namespace PhpGraft

open Text

/-- Whether a token is no doc comment and has no comments ahead of it. -/
def Token.isBare (t : Token) : Bool := t.gap.all isBlank && t.kind != .docComment

namespace Token

variable {t : Token}

/-- The gap ahead of a bare token is blank. -/
theorem blank_of_isBare (h : t.isBare = true) : t.gap.all isBlank = true := (Bool.and_eq_true_iff.1 h).1

/-- A bare token is no doc comment. -/
theorem noDoc_of_isBare (h : t.isBare = true) : t.kind ≠ .docComment := by
  have hkind := (Bool.and_eq_true_iff.1 h).2
  simpa using hkind

/-- Tokens are as bare at another place. -/
theorem bare_same {ts ts' : List Token} (h : List.Forall₂ Same ts ts') (hbare : ∀ t ∈ ts, t.isBare = true) :
    ∀ t ∈ ts', t.isBare = true := by
  induction h with
  | nil => exact hbare
  | cons ht _ ih =>
    obtain ⟨hfirst, hmore⟩ := List.forall_mem_cons.1 hbare
    refine List.forall_mem_cons.2 ⟨?_, ih hmore⟩
    rwa [isBare, ht.1, ht.2.1]

end Token

namespace Reader

/-- The tokens of each member of a scope that is kept as source text. -/
def keptMembers (ts : List Token) : List (List Token) :=
  if scopeEnds ts then []
  else
    match _h : member ts with
    | .error _ => []
    | .ok (_, rest) =>
      (if (knownMember ts).isNone then [ts.take (ts.length - rest.length)] else []) ++ keptMembers rest
termination_by ts.length
decreasing_by exact advances_member _h

variable {unclosed : ParseError} {items : Items} {ts rest : List Token} {found : List Outline}

/-- Ahead of a bare token nothing is placed. -/
theorem placement_bare (h : ∀ t ∈ ts, t.isBare = true) (afterItem : Bool) :
    placement afterItem ts = ⟨none, [], none⟩ :=
  placement_blank (fun t ht => Token.blank_of_isBare (h t (List.mem_of_mem_head? ht))) afterItem

/-- The items of a scope are over at its closing brace. Ahead of it, another member is read. -/
theorem scopeItems_cases (hbare : ∀ t ∈ ts, t.isBare = true)
    (h : scopeItems member advances_member unclosed items ts = .ok (found, rest)) :
    ((peek ts).isPunct '}' = true ∧ found = items.reverse ∧ rest = advance ts) ∨
      scopeEnds ts = false ∧ ∃ read mid, member ts = .ok (read, mid) ∧
        scopeItems member advances_member unclosed (items.push none read) mid = .ok (found, rest) := by
  rw [scopeItems, placement_bare hbare, settle_blank] at h
  dsimp only at h
  split at h
  · next hclose =>
    obtain ⟨rfl, rfl⟩ := Prod.mk.inj (Except.ok.inj h)
    exact .inl ⟨hclose, rfl, rfl⟩
  next hclose =>
  split at h
  · cases h
  next hend =>
  have hmore : scopeEnds ts = false :=
    Bool.or_eq_false_iff.2 ⟨Bool.eq_false_iff.2 hend, Bool.eq_false_iff.2 hclose⟩
  split at h
  · cases h
  · next read mid hread => exact .inr ⟨hmore, read, mid, hread, h⟩

/-- The items of a scope are over at its closing brace. -/
theorem scopeItems_close (hbare : ∀ t ∈ ts, t.isBare = true) (h : (peek ts).isPunct '}' = true) :
    scopeItems member advances_member unclosed items ts = .ok (items.reverse, advance ts) := by
  rw [scopeItems, placement_bare hbare, settle_blank]
  exact if_pos h

/-- Ahead of the closing brace of a scope another member is read. -/
theorem scopeItems_member {read : List Outline} {mid : List Token} (hbare : ∀ t ∈ ts, t.isBare = true)
    (hmore : scopeEnds ts = false) (hread : member ts = .ok (read, mid)) :
    scopeItems member advances_member unclosed items ts =
      scopeItems member advances_member unclosed (items.push none read) mid := by
  obtain ⟨hend, hclose⟩ := Bool.or_eq_false_iff.1 hmore
  conv_lhs => unfold scopeItems
  dsimp only
  rw [placement_bare hbare, settle_blank, if_neg (Bool.eq_false_iff.1 hclose),
    if_neg (Bool.eq_false_iff.1 hend)]
  split
  · next hfail => cases hread.symm.trans hfail
  · next hfound =>
    obtain ⟨rfl, rfl⟩ := Prod.mk.inj (Except.ok.inj (hread.symm.trans hfound))
    rfl

/-- Members are put behind items in the same way whatever these are. -/
theorem Items.push_eq (items : Items) (comment? : Option (List Char)) (found : List Outline) :
    items.push comment? found = Items.push [] comment? found ++ items := by
  cases found with
  | nil => rfl
  | cons first more => simp [Items.push]

/-- The items of a scope end with its closing brace. -/
theorem exists_close {items : Items} {ts : List Token} (hbare : ∀ t ∈ ts, t.isBare = true)
    (h : scopeItems member advances_member unclosed items ts = .ok (found, rest)) :
    ∃ Q b, ts = Q ++ b :: rest ∧ b.isPunct '}' = true := by
  obtain ⟨hclose, -, rfl⟩ | ⟨-, read, mid, hread, hgo⟩ := scopeItems_cases hbare h
  · exact exists_of_peek (p := (·.isPunct '}')) rfl hclose
  · have hshorter := advances_member hread
    obtain ⟨W, rfl, -⟩ := exists_of_member hread
    obtain ⟨Q, b, rfl, hb⟩ := exists_close (fun t ht => hbare t (List.mem_append_right _ ht)) hgo
    exact ⟨W ++ Q, b, (List.append_assoc ..).symm, hb⟩
termination_by ts.length

/-- What a scope holds starts with no end of the source. -/
theorem isEnd_of_scopeItems (hbare : ∀ t ∈ ts, t.isBare = true)
    (h : scopeItems member advances_member unclosed items ts = .ok (found, rest)) :
    (peek ts).isEnd = false := by
  obtain ⟨hclose, -, -⟩ | ⟨hmore, -⟩ := scopeItems_cases hbare h
  · rw [Token.isEnd, eq_of_beq hclose]
    rfl
  · exact (Bool.or_eq_false_iff.1 hmore).1

/-- A member that is closed if it is kept as source text ends with a token that can end one. -/
theorem exists_last_of_member {W : List Token} (hread : member (W ++ rest) = .ok (found, rest))
    (hclosed : knownMember (W ++ rest) = none → isClosed W = true) :
    ∃ e ∈ W.getLast?, e.isStop = true := by
  cases hknown : knownMember (W ++ rest) with
  | some result =>
    rw [member, hknown] at hread
    obtain rfl : result = (found, rest) := Except.ok.inj hread
    obtain ⟨front, e, hfront, he⟩ := stops_knownMember hknown
    rw [← List.singleton_append, ← List.append_assoc] at hfront
    exact ⟨e, by rw [List.append_cancel_right hfront]; exact List.getLast?_concat, he⟩
  | none =>
    obtain ⟨valued, ⟨e, he, hlast⟩, -⟩ := exists_of_isClosed (hclosed hknown)
    refine ⟨e, he, Bool.or_eq_true_iff.2 ?_⟩
    cases valued with
    | true => exact .inl hlast
    | false => exact .inr (Option.isSome_of_mem (closer?_eq_some.2 ⟨hlast, .inr (.inr rfl)⟩))

/-- The members that are kept as source text are the first one, if it is, and those behind it. -/
theorem keptMembers_append {W : List Token} (hmore : scopeEnds (W ++ rest) = false)
    (hread : member (W ++ rest) = .ok (found, rest)) : keptMembers (W ++ rest) =
      (if (knownMember (W ++ rest)).isNone then [W] else []) ++ keptMembers rest := by
  conv_lhs => unfold keptMembers
  rw [if_neg (Bool.eq_false_iff.1 hmore)]
  split
  · next hfail => cases hread.symm.trans hfail
  · next hfound =>
    obtain ⟨rfl, rfl⟩ := Prod.mk.inj (Except.ok.inj (hread.symm.trans hfound))
    rw [List.length_append, Nat.add_sub_cancel, List.take_left]

/-- A member that is read ahead of a closing brace ends ahead of it, if there is more to be read then. -/
theorem exists_of_append_cons {W Q mid : List Token} {b : Token} (h : Q ++ b :: rest = W ++ mid)
    (hmore : rest.length < mid.length) : ∃ Q', Q = W ++ Q' ∧ mid = Q' ++ b :: rest := by
  obtain ⟨Q', hQ, hmid⟩ | ⟨front, hfront, hmid⟩ := List.append_eq_append_iff.1 h.symm
  · exact ⟨Q', hQ, hmid⟩
  · have := congrArg List.length hmid
    rw [List.length_append, List.length_cons] at this
    obtain rfl : front = [] := List.eq_nil_of_length_eq_zero (by omega)
    exact ⟨[], by rw [hfront, List.append_nil, List.append_nil], hmid.symm⟩

/-- What does not continue a statement does not do so at the end of other tokens. -/
theorem EndsSpan.append {afterDo : Bool} {Q X Y : List Token} (hdoc : ∀ t ∈ Q, t.kind ≠ .docComment)
    (hY : EndsSpan afterDo Y) (h : EndsSpan afterDo (Q ++ X)) : EndsSpan afterDo (Q ++ Y) := by
  cases Q with
  | nil => exact hY
  | cons q Q =>
    have hq := hdoc q (List.mem_cons_self ..)
    rw [EndsSpan, List.cons_append, peek_cons hq] at h ⊢
    exact h

/-- The end of a scope is where it is by its first token. -/
theorem scopeEnds_append {W X Y : List Token} (hne : W ≠ []) (hdoc : ∀ t ∈ W, t.kind ≠ .docComment) :
    scopeEnds (W ++ Y) = scopeEnds (W ++ X) := by
  obtain ⟨w, W, rfl⟩ := List.exists_cons_of_ne_nil hne
  have hw := hdoc w (List.mem_cons_self ..)
  rw [scopeEnds, scopeEnds, List.cons_append, List.cons_append, peek_cons hw, peek_cons hw]

/-- Members that are closed if they are kept as source text are read ahead of anything that does not
continue the last one. -/
theorem scopeItems_front {Q : List Token} {b : Token} {items : Items} {found : List Outline}
    (hbare : ∀ t ∈ Q ++ b :: rest, t.isBare = true)
    (hclosed : ∀ W ∈ keptMembers (Q ++ b :: rest), isClosed W = true)
    (h : scopeItems member advances_member unclosed items (Q ++ b :: rest) = .ok (found, rest)) :
    ∃ members, found = items.reverse ++ members ∧ (∀ t ∈ Q.getLast?, t.isStop = true) ∧
      ∀ Y, (∀ t ∈ Y, t.isBare = true) → (∀ afterDo, EndsSpan afterDo Y) → ∀ items',
        scopeItems member advances_member unclosed items' (Q ++ Y) =
          scopeItems member advances_member unclosed (members.reverse ++ items') Y := by
  obtain ⟨hclose, hfound, hrest⟩ | ⟨hmore, read, mid, hread, hgo⟩ := scopeItems_cases hbare h
  · cases Q with
    | nil => exact ⟨[], by rw [hfound, List.append_nil], nofun, fun _ _ _ _ => rfl⟩
    | cons q Q =>
      -- the brace would leave more behind it
      rw [List.cons_append, advance_cons (Token.noDoc_of_isBare (hbare q (List.mem_cons_self ..)))] at hrest
      have := congrArg List.length hrest
      rw [List.length_append, List.length_cons] at this
      omega
  · obtain ⟨W, hW, hne⟩ := exists_of_member hread
    obtain ⟨Q', hQ, rfl⟩ := exists_of_append_cons hW (length_lt_of_scopeItems hgo)
    have hshorter : Q'.length < Q.length := by
      have := List.length_pos_of_ne_nil hne
      rw [hQ, List.length_append]
      omega
    subst hQ
    rw [List.append_assoc] at hbare hclosed hread hmore
    rw [keptMembers_append hmore hread] at hclosed
    obtain ⟨hbareW, hbehind⟩ := List.forall_mem_append.1 hbare
    have hdoc : ∀ t ∈ W, t.kind ≠ .docComment := fun t ht => Token.noDoc_of_isBare (hbareW t ht)
    have hkept : knownMember (W ++ (Q' ++ b :: rest)) = none → isClosed W = true := fun hnone =>
      hclosed W (by rw [hnone]; exact List.mem_cons_self ..)
    have hbareQ := (List.forall_mem_append.1 hbehind).1
    obtain ⟨members, hfound, hlast, hrun⟩ := scopeItems_front hbehind
      (fun W' hW' => hclosed W' (List.mem_append_right _ hW')) hgo
    refine ⟨(Items.push [] none read).reverse ++ members, ?_, ?_, fun Y hY hends items' => ?_⟩
    · rw [hfound, Items.push_eq, List.reverse_append, List.append_assoc]
    · -- the last token is that of the first member only if no other one is behind it
      cases Q' with
      | nil =>
        obtain ⟨e, he, hstop⟩ := exists_last_of_member hread hkept
        rw [List.append_nil]
        intro t ht
        obtain rfl := Option.some.inj (Eq.trans (Eq.symm he) ht)
        exact hstop
      | cons q Q' =>
        rw [List.getLast?_append_of_ne_nil _ (List.cons_ne_nil _ _)]
        exact hlast
    · -- the first member is read ahead of `Y` as it is ahead of the brace
      have hmember : member (W ++ (Q' ++ Y)) = .ok (read, Q' ++ Y) := by
        refine member_window (.refl W) hdoc (fun hclose => ?_)
          (fun afterDo => (hends afterDo).append fun t ht => Token.noDoc_of_isBare (hbareQ t ht))
          (fun hnone => knownMember_closed hdoc (hkept hnone) hnone) hread
        have hend := isEnd_of_scopeItems hbehind hgo
        rw [Token.isEnd, hclose] at hend
        cases hend
      have hall : ∀ t ∈ W ++ (Q' ++ Y), t.isBare = true :=
        List.forall_mem_append.2 ⟨hbareW, List.forall_mem_append.2 ⟨hbareQ, hY⟩⟩
      rw [List.append_assoc, scopeItems_member hall ((scopeEnds_append hne hdoc).trans hmore) hmember,
        hrun Y hY hends, Items.push_eq, List.reverse_append, List.reverse_reverse, List.append_assoc]
termination_by Q.length

/-- What is left of tokens that differ only in where they start differs only in where it starts. -/
theorem advance_alike {ts ts' : List Token} (h : Token.Alike ts ts') (hbare : ∀ t ∈ ts, t.isBare = true) :
    Token.Alike (advance ts) (advance ts') := by
  obtain ⟨hecho, hsame⟩ := h
  cases hecho with
  | nil => exact .refl _
  | @cons t t' us us' ht hus =>
    have hdoc := Token.noDoc_of_isBare (hbare t (List.mem_cons_self ..))
    rw [advance_cons hdoc, advance_cons (ht.kind ▸ hdoc)]
    exact .of_same hsame

/-- The members of a scope are read in the same way at another place, whatever was read ahead of them. -/
theorem scopeItems_alike {ts ts' : List Token} {items : Items} (hts : Token.Alike ts ts')
    (hbare : ∀ t ∈ ts, t.isBare = true) (hbare' : ∀ t ∈ ts', t.isBare = true)
    (h : scopeItems member advances_member unclosed items ts = .ok (found, rest)) :
    ∃ members rest', found = items.reverse ++ members ∧ Token.Alike rest rest' ∧
      ∀ items', scopeItems member advances_member unclosed items' ts' =
        .ok (items'.reverse ++ members, rest') := by
  have hpeek := peek_alike hts fun t ht => Token.noDoc_of_isBare (hbare t ht)
  have hclose' : (peek ts').isPunct '}' = (peek ts).isPunct '}' := blind_isPunct '}' hpeek
  obtain ⟨hclose, rfl, rfl⟩ | ⟨hmore, read, mid, hread, hgo⟩ := scopeItems_cases hbare h
  · refine ⟨[], advance ts', by rw [List.append_nil], advance_alike hts hbare, fun items' => ?_⟩
    rw [scopeItems_close hbare' (hclose'.trans hclose), List.append_nil]
  · have hshorter := advances_member hread
    obtain ⟨W, rfl, -⟩ := exists_of_member hread
    have hbehind : ∀ t ∈ mid, t.isBare = true := fun t ht => hbare t (List.mem_append_right _ ht)
    have hend := isEnd_of_scopeItems hbehind hgo
    obtain ⟨mid', hread', hmid⟩ := member_alike hts (fun t ht => Token.noDoc_of_isBare (hbare t ht))
      (fun hclose => by rw [Token.isEnd, hclose] at hend; cases hend) hread
    obtain ⟨W', rfl, -⟩ := exists_of_member hread'
    obtain ⟨members, rest', hfound, hrest, hrun⟩ := scopeItems_alike hmid hbehind
      (fun t ht => hbare' t (List.mem_append_right _ ht)) hgo
    have hmore' : scopeEnds (W' ++ mid') = false := by
      rw [scopeEnds, hclose', Token.isEnd, hpeek.kind]
      exact hmore
    refine ⟨(Items.push [] none read).reverse ++ members, rest', ?_, hrest, fun items' => ?_⟩
    · rw [hfound, Items.push_eq, List.reverse_append, List.append_assoc]
    · rw [scopeItems_member hbare' hmore' hread', hrun, Items.push_eq, List.reverse_append, List.append_assoc]
termination_by ts.length

end Reader

end PhpGraft

import PhpGraft.Proofs.Syntax.Agreement
import PhpGraft.Proofs.Syntax.Continuing

/-!
# Literals wherever they stand

A literal is found by the kinds and the texts of its tokens: the same tokens at another place, or behind
other gaps, are the same literal (`literal?_echoing`). Literals and the entries of arrays are made of one
another, so both are shown at once, by induction on the number of tokens.
-/

namespace PhpGraft.Reader

/-- Tokens of the same kinds and texts. -/
abbrev Echoing (ts ts' : List Token) : Prop := List.Forall₂ Token.Echoes ts ts'

/-- What was read and what is left behind it. -/
theorem eq_of_read {α : Type} {p : List Token → Prop} {x y : α} {us rest : List Token} {hus : p us}
    {hrest : p rest}
    (h : (some (x, ⟨us, hus⟩) : Option (α × { l : List Token // p l })) = some (y, ⟨rest, hrest⟩)) :
    x = y ∧ us = rest := by
  obtain ⟨he, hl⟩ := Prod.mk.inj (Option.some.inj h)
  exact ⟨he, congrArg Subtype.val hl⟩

/-- A constant is read in the same way from tokens of the same kinds and texts. -/
theorem constantOf_echoing {name : String} {ts ts' : List Token} (hts : Echoing ts ts') :
    (constantOf name ts').1 = (constantOf name ts).1 ∧
      Echoing (constantOf name ts).2.1 (constantOf name ts').2.1 := by
  by_cases hcolon : ∃ gap text start gap₂ text₂ start₂ more,
      ts = ⟨.doubleColon, gap, text, start⟩ :: ⟨.name, gap₂, text₂, start₂⟩ :: more
  · obtain ⟨gap, text, start, gap₂, text₂, start₂, more, rfl⟩ := hcolon
    cases hts with
    | @cons _ t' _ us' h₁ hus =>
      cases hus with
      | @cons _ v' _ vs' h₂ hvs =>
        obtain ⟨kind, gap', text', start'⟩ := t'
        obtain ⟨kind', gap₂', text₂', start₂'⟩ := v'
        obtain rfl : kind = .doubleColon := h₁.kind
        obtain rfl : kind' = .name := h₂.kind
        obtain rfl : text₂' = text₂ := h₂.text
        exact ⟨rfl, hvs⟩
  · -- nothing is taken, here or there
    have hnone {us us' : List Token} (hus : Echoing us us')
        (h : ¬ ∃ gap text start gap₂ text₂ start₂ more,
          us = ⟨.doubleColon, gap, text, start⟩ :: ⟨.name, gap₂, text₂, start₂⟩ :: more) :
        constantOf name us = (.const name, ⟨us, Nat.le_refl _⟩) := by
      unfold constantOf
      split
      · next gap text start gap₂ text₂ start₂ more =>
        exact absurd ⟨gap, text, start, gap₂, text₂, start₂, more, rfl⟩ h
      · rfl
    have hback : Echoing ts' ts := (hts.imp fun _ _ he => he.symm).flip
    rw [hnone hts hcolon, hnone hback ?_]
    · exact ⟨rfl, hts⟩
    rintro ⟨gap, text, start, gap₂, text₂, start₂, more, rfl⟩
    -- the tokens of the other list are of the same kinds
    obtain ⟨t, us, h₁, hus, rfl⟩ := List.forall₂_cons_right_iff.1 hts
    obtain ⟨v, vs, h₂, -, rfl⟩ := List.forall₂_cons_right_iff.1 hus
    obtain ⟨kind, gap', text', start'⟩ := t
    obtain ⟨kind', gap₂', text₂', start₂'⟩ := v
    obtain rfl : kind = .doubleColon := h₁.kind.symm
    obtain rfl : kind' = .name := h₂.kind.symm
    exact hcolon ⟨_, _, _, _, _, _, _, rfl⟩

/-- Literals of fewer than `n` tokens are read in the same way from tokens of the same kinds and texts. -/
def EchoesLiterals (n : Nat) : Prop :=
  ∀ ⦃ts ts' rest : List Token⦄ ⦃e : Expr⦄, ts.length < n → Echoing ts ts' → Gives (literal ts) e rest →
    ∃ rest', Gives (literal ts') e rest' ∧ Echoing rest rest'

/-- Entries of arrays of fewer than `n` tokens are read in the same way from tokens of the same kinds
and texts. -/
def EchoesEntries (n : Nat) : Prop :=
  ∀ ⦃ts ts' rest : List Token⦄ ⦃close : Char⦄ ⦃items : List ArrayItem⦄, ts.length < n → Echoing ts ts' →
    Gives (entries close ts) items rest →
    ∃ rest', Gives (entries close ts') items rest' ∧ Echoing rest rest'

variable {n : Nat}

/-- A minus sign belongs to the number behind it. -/
theorem minus_echoing {gap gap' text : List Char} {start start' : Nat} {us us' rest : List Token} {e : Expr}
    (hus : Echoing us us') (h : Gives (literal (⟨.punct '-', gap, text, start⟩ :: us)) e rest) :
    ∃ rest', Gives (literal (⟨.punct '-', gap', text, start'⟩ :: us')) e rest' ∧ Echoing rest rest' := by
  obtain ⟨hlt, h⟩ := h
  unfold literal at h
  cases hus with
  | nil => cases h
  | @cons v v' vs vs' hecho hvs =>
    obtain ⟨kind, gap, text, start⟩ := v
    obtain ⟨kind', gap', text', start'⟩ := v'
    obtain rfl : kind' = kind := hecho.kind
    cases kind' with
    | int n =>
      obtain ⟨rfl, rfl⟩ := eq_of_read h
      exact ⟨vs', ⟨_, by unfold literal; rfl⟩, hvs⟩
    | float x =>
      obtain ⟨rfl, rfl⟩ := eq_of_read h
      exact ⟨vs', ⟨_, by unfold literal; rfl⟩, hvs⟩
    | _ => cases h

/-- A name is a constant, a value or the head of an array by its text and by what is behind it. -/
theorem name_echoing (hentries : EchoesEntries n) {gap gap' text : List Char} {start start' : Nat}
    {us us' rest : List Token} {e : Expr} (hn : us.length < n) (hus : Echoing us us')
    (h : Gives (literal (⟨.name, gap, text, start⟩ :: us)) e rest) :
    ∃ rest', Gives (literal (⟨.name, gap', text, start'⟩ :: us')) e rest' ∧ Echoing rest rest' := by
  obtain ⟨hlt, h⟩ := h
  unfold literal at h ⊢
  dsimp only at h ⊢
  have hkeyword (keyword : String) : (Token.mk .name gap' text start').isKeyword keyword =
      (Token.mk .name gap text start).isKeyword keyword := rfl
  have hparen : us'.head?.any (·.isPunct '(') = us.head?.any (·.isPunct '(') := by
    cases hus with
    | nil => rfl
    | cons hecho => exact blind_isPunct '(' hecho
  -- every test that the reader makes on the name has the same outcome, so the branches are the same
  rw [hkeyword, hkeyword, hkeyword, hkeyword, hparen]
  split at h
  · next hnull =>
    obtain ⟨rfl, rfl⟩ := eq_of_read h
    rw [if_pos hnull]
    exact ⟨us', ⟨_, rfl⟩, hus⟩
  next hnull =>
  rw [if_neg hnull]
  split at h
  · next htrue =>
    obtain ⟨rfl, rfl⟩ := eq_of_read h
    rw [if_pos htrue]
    exact ⟨us', ⟨_, rfl⟩, hus⟩
  next htrue =>
  rw [if_neg htrue]
  split at h
  · next hfalse =>
    obtain ⟨rfl, rfl⟩ := eq_of_read h
    rw [if_pos hfalse]
    exact ⟨us', ⟨_, rfl⟩, hus⟩
  next hfalse =>
  rw [if_neg hfalse]
  split at h
  · next harray =>
    rw [if_pos harray]
    have htail : Echoing us.tail us'.tail := by
      cases hus with
      | nil => exact .nil
      | cons _ htail => exact htail
    cases hitems : entries ')' us.tail with
    | none => rw [hitems] at h; cases h
    | some found =>
      obtain ⟨items, more, hmore⟩ := found
      rw [hitems] at h
      obtain ⟨rfl, rfl⟩ := eq_of_read h
      have hshorter := (List.tail_sublist us).length_le
      obtain ⟨rest', ⟨hlt', hitems'⟩, hrest⟩ := hentries (Nat.lt_of_le_of_lt hshorter hn) htail ⟨hmore, hitems⟩
      have := (List.tail_sublist us').length_le
      refine ⟨rest', ⟨by rw [List.length_cons]; omega, ?_⟩, hrest⟩
      rw [hitems']
  · next harray =>
    rw [if_neg harray]
    obtain ⟨he, hl⟩ := @constantOf_echoing (Token.mk .name gap text start).source _ _ hus
    obtain ⟨rfl, rfl⟩ := eq_of_read h
    have hsource : (Token.mk .name gap' text start').source = (Token.mk .name gap text start).source := rfl
    rw [hsource]
    refine ⟨_, ⟨Nat.lt_succ_of_le (constantOf _ us').2.2, ?_⟩, hl⟩
    rw [← he]

/-- A literal is read by means of the entries of arrays of fewer tokens. -/
theorem echoesLiterals_succ (hentries : EchoesEntries n) : EchoesLiterals (n + 1) := by
  intro ts ts' rest e hn hts h
  cases hts with
  | nil =>
    obtain ⟨_, h⟩ := h
    simp [literal] at h
  | @cons t t' us us' hecho hus =>
    obtain ⟨kind, gap, text, start⟩ := t
    obtain ⟨kind₂, gap', text₂, start'⟩ := t'
    obtain ⟨hk, ht⟩ := hecho
    obtain rfl : kind = kind₂ := hk.symm
    obtain rfl : text = text₂ := ht.symm
    have hus_lt : us.length < n := Nat.lt_of_succ_lt_succ hn
    have hgives := h
    obtain ⟨hlt, h⟩ := h
    unfold literal at h
    cases kind with
    | int n =>
      obtain ⟨rfl, rfl⟩ := eq_of_read h
      exact ⟨us', ⟨_, by unfold literal; rfl⟩, hus⟩
    | float x =>
      obtain ⟨rfl, rfl⟩ := eq_of_read h
      exact ⟨us', ⟨_, by unfold literal; rfl⟩, hus⟩
    | string value =>
      cases value with
      | none => cases h
      | some s =>
        obtain ⟨rfl, rfl⟩ := eq_of_read h
        exact ⟨us', ⟨_, by unfold literal; rfl⟩, hus⟩
    | punct c =>
      by_cases hminus : c = '-'
      · subst hminus
        exact minus_echoing hus hgives
      by_cases hopen : c = '['
      · subst hopen
        cases hitems : entries ']' us with
        | none => rw [hitems] at h; cases h
        | some found =>
          obtain ⟨items, more, hmore⟩ := found
          rw [hitems] at h
          obtain ⟨rfl, rfl⟩ := eq_of_read h
          obtain ⟨rest', ⟨hlt', hitems'⟩, hrest⟩ := hentries hus_lt hus ⟨hmore, hitems⟩
          exact ⟨rest', literal_array ⟨hlt', hitems'⟩, hrest⟩
      · -- no other sign starts a literal
        dsimp only at h
        split at h
        all_goals simp_all
    | name => exact name_echoing hentries hus_lt hus hgives
    | _ => cases h

/-- The value behind a key is a literal of fewer tokens. -/
theorem exists_entry (hliterals : EchoesLiterals n) {ts ts' rest : List Token} {first : Expr}
    {item : ArrayItem} (hn : ts.length ≤ n) (hts : Echoing ts ts')
    (h : ∃ hle, entry first ts = some (item, ⟨rest, hle⟩)) :
    ∃ rest', (∃ hle, entry first ts' = some (item, ⟨rest', hle⟩)) ∧ Echoing rest rest' := by
  obtain ⟨hle, h⟩ := h
  cases hts with
  | nil =>
    unfold entry at h ⊢
    obtain ⟨rfl, rfl⟩ := eq_of_read h
    exact ⟨[], ⟨Nat.le_refl _, rfl⟩, .nil⟩
  | @cons t t' us us' hecho hus =>
    by_cases harrow : t.kind = .doubleArrow
    · obtain ⟨kind, gap, text, start⟩ := t
      obtain ⟨kind', gap', text', start'⟩ := t'
      obtain rfl : kind = .doubleArrow := harrow
      obtain rfl : kind' = .doubleArrow := hecho.kind
      unfold entry at h
      cases hv : literal us with
      | none => rw [hv] at h; cases h
      | some found =>
        obtain ⟨v, more, hmore⟩ := found
        rw [hv] at h
        obtain ⟨rfl, rfl⟩ := eq_of_read h
        obtain ⟨rest', hv', hrest'⟩ := hliterals hn hus ⟨hmore, hv⟩
        exact ⟨rest', entry_keyed hv', hrest'⟩
    · rw [entry_value harrow] at h
      obtain ⟨rfl, rfl⟩ := eq_of_read h
      exact ⟨t' :: us', ⟨Nat.le_refl _, entry_value (hecho.kind ▸ harrow)⟩, .cons hecho hus⟩

/-- The entries of an array are literals of no more tokens, with entries of fewer tokens behind them. -/
theorem echoesEntries_succ (hliterals : EchoesLiterals (n + 1)) (hentries : EchoesEntries n) :
    EchoesEntries (n + 1) := by
  intro ts ts' rest close items hn hts h
  cases hts with
  | nil =>
    obtain ⟨_, h⟩ := h
    unfold entries at h
    cases h
  | @cons t t' us us' hecho hus =>
    obtain ⟨hlt, h⟩ := h
    have hclose' : t'.isPunct close = t.isPunct close := blind_isPunct close hecho
    unfold entries at h
    split at h
    · next hclose =>
      obtain ⟨rfl, rfl⟩ := eq_of_read h
      exact ⟨us', entries_close (hclose'.trans hclose), hus⟩
    next hclose =>
    cases hl : literal (t :: us) with
    | none => rw [hl] at h; cases h
    | some found =>
    obtain ⟨first, behind, hbehind⟩ := found
    rw [hl] at h
    dsimp only at h
    obtain ⟨behind', hl', hechoes⟩ := hliterals hn (.cons hecho hus) ⟨hbehind, hl⟩
    cases hi : entry first behind with
    | none => rw [hi] at h; cases h
    | some found =>
    obtain ⟨item, more, hmore⟩ := found
    rw [hi] at h
    have hfewer : behind.length ≤ n + 1 := Nat.le_of_lt (Nat.lt_trans hbehind hn)
    obtain ⟨more', hi', hechoes⟩ := exists_entry hliterals hfewer hechoes ⟨hmore, hi⟩
    cases hechoes with
    | nil => cases h
    | @cons separator separator' more more' hseparator hechoes =>
    have hcomma' : separator'.isPunct ',' = separator.isPunct ',' := blind_isPunct ',' hseparator
    have hlast' : separator'.isPunct close = separator.isPunct close := blind_isPunct close hseparator
    have hnot : t'.isPunct close = false := hclose'.trans (Bool.eq_false_iff.2 hclose)
    dsimp only at h
    split at h
    · next hcomma =>
      cases hr : entries close more with
      | none => rw [hr] at h; cases h
      | some found =>
      obtain ⟨others, last, hlast⟩ := found
      have hshorter : more.length < n :=
        Nat.lt_trans (Nat.lt_of_lt_of_le hmore (Nat.le_of_lt_succ hbehind)) (Nat.lt_of_succ_lt_succ hn)
      rw [hr] at h
      obtain ⟨rfl, rfl⟩ := eq_of_read h
      obtain ⟨rest', hr', hrest⟩ := hentries hshorter hechoes ⟨hlast, hr⟩
      exact ⟨rest', entries_cons hnot hl' hi' (hcomma'.trans hcomma) hr', hrest⟩
    next hcomma =>
    split at h
    · next hlast =>
      obtain ⟨rfl, rfl⟩ := eq_of_read h
      exact ⟨more', entries_last hnot hl' hi' (hcomma'.trans (Bool.eq_false_iff.2 hcomma))
        (hlast'.trans hlast), hechoes⟩
    · cases h

/-- Literals and entries of arrays are read in the same way from tokens of the same kinds and texts. -/
theorem echoes_literals_entries (n : Nat) : EchoesLiterals n ∧ EchoesEntries n := by
  induction n with
  | zero =>
    exact ⟨fun _ _ _ _ hn => absurd hn (Nat.not_lt_zero _), fun _ _ _ _ _ hn => absurd hn (Nat.not_lt_zero _)⟩
  | succ n ih =>
    have hliterals := echoesLiterals_succ ih.2
    exact ⟨hliterals, echoesEntries_succ hliterals ih.2⟩

/-- Tokens of the same kinds and texts are the same literal, or none of them is one. -/
theorem literal?_echoing {ts ts' : List Token} (hts : Echoing ts ts') : literal? ts' = literal? ts := by
  have hsome {us us' : List Token} {e : Expr} (hus : Echoing us us') (h : literal? us = some e) :
      literal? us' = some e := by
    unfold literal? at h
    split at h
    · next first hlt hread =>
      obtain rfl : first = e := Option.some.inj h
      obtain ⟨rest', ⟨hlt', hread'⟩, hrest⟩ :=
        (echoes_literals_entries (us.length + 1)).1 (Nat.lt_succ_self _) hus ⟨hlt, hread⟩
      cases hrest
      rw [literal?, hread']
    · cases h
  have hback : Echoing ts' ts := (hts.imp fun _ _ he => he.symm).flip
  cases h : literal? ts with
  | some e => exact hsome hts h
  | none =>
    cases h' : literal? ts' with
    | none => rfl
    | some e =>
      rw [hsome hback h'] at h
      cases h

end PhpGraft.Reader

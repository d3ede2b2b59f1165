import PhpGraft.Proofs.Syntax.Literal

/-!
# What readers read

`Reads r ps x next` says that a reader takes the tokens of some parts and answers `x`, whatever
tokens stand behind them as long as `next` allows those. Readers one after the other read parts one
after the other (`Reads.bind`), if what the second one reads is allowed behind the first one.
-/

namespace PhpGraft.Reader

open Text

variable {α β : Type}

/-- A reader that takes the tokens of some parts, with its answer and the tokens that may follow. -/
def Reads (r : Reader α) (ps : List Part) (x : α) (next : List Token → Prop) : Prop :=
  ∀ ts rest, Spells ts ps → next rest → r (ts ++ rest) = some (x, rest)

/-- Any tokens may follow. -/
def Whatever (_ : List Token) : Prop := True

/-- The tokens of some parts are allowed if those behind them are. -/
def Meets (ps : List Part) (next allowed : List Token → Prop) : Prop :=
  ∀ ts rest, Spells ts ps → next rest → allowed (ts ++ rest)

/-- The next token of a list that starts with a token that is no doc comment. -/
theorem peek_cons {t : Token} {ts : List Token} (h : t.kind ≠ .docComment) :
    peek (t :: ts) = t := by
  rw [peek, skipDocs, List.dropWhile_cons_of_neg (by simp [isDoc, h])]
  rfl

/-- What stands behind the next token of such a list. -/
theorem advance_cons {t : Token} {ts : List Token} (h : t.kind ≠ .docComment) :
    advance (t :: ts) = ts := by
  rw [advance, skipDocs, List.dropWhile_cons_of_neg (by simp [isDoc, h])]
  rfl

namespace Meets

variable {ps : List Part} {next allowed : List Token → Prop}

/-- Everything is allowed. -/
theorem whatever : Meets ps next Whatever := fun _ _ _ _ => trivial

/-- Where nothing is read, what follows has to be allowed. -/
theorem nil (h : ∀ rest, next rest → allowed rest) : Meets [] next allowed := by
  intro ts rest hts hrest
  rw [hts.eq_nil, List.nil_append]
  exact h rest hrest

/-- A word is allowed if its token is, whatever stands behind it. -/
theorem cons {kind : TokenKind} {text : String}
    (h : ∀ gap start rest, allowed (⟨kind, gap, text.toList, start⟩ :: rest)) :
    Meets (.word kind text :: ps) next allowed := by
  intro ts rest hts _
  obtain ⟨gap, start, us, rfl, -, -⟩ := hts.exists_word
  exact h gap start (us ++ rest)

end Meets

namespace Reads

variable {r : Reader α} {f : α → Reader β} {ps qs : List Part} {x : α} {y : β}
  {next allowed : List Token → Prop}

/-- Readers one after the other. -/
theorem bind (hr : Reads r ps x allowed) (hf : Reads (f x) qs y next)
    (h : Meets qs next allowed) : Reads (r >>= f) (ps ++ qs) y next := by
  intro ts rest hts hrest
  obtain ⟨us, vs, rfl, hus, hvs⟩ := hts.exists_of_append
  have h₁ := hr us (vs ++ rest) hus (h vs rest hvs hrest)
  have h₂ := hf vs rest hvs hrest
  rw [List.append_assoc]
  simp only [Bind.bind, StateT.bind, h₁, Option.bind_some]
  exact h₂

/-- Readers one after the other, of which the first one allows everything behind it. -/
theorem bind_whatever (hr : Reads r ps x Whatever) (hf : Reads (f x) qs y next) :
    Reads (r >>= f) (ps ++ qs) y next := hr.bind hf .whatever

/-- An answer without reading. -/
theorem pure : Reads (Pure.pure x : Reader α) [] x Whatever := by
  intro ts rest hts _
  rw [hts.eq_nil]
  rfl

/-- A change of the answer. -/
theorem bind_pure (hr : Reads r ps x next) {g : α → β} :
    Reads (r >>= fun x => Pure.pure (g x)) ps (g x) next := by
  intro ts rest hts hrest
  simp only [Bind.bind, StateT.bind, hr ts rest hts hrest, Option.bind_some]
  rfl

/-- A reader that allows less behind it than it could. -/
theorem mono (hr : Reads r ps x allowed) (h : ∀ rest, next rest → allowed rest) :
    Reads r ps x next := fun ts rest hts hrest => hr ts rest hts (h rest hrest)

end Reads

variable {p : Token → Bool} {kind : TokenKind} {text : String}

/-! ## Single tokens -/

/-- An optional token that is there. -/
theorem reads_eat (hd : kind ≠ .docComment)
    (hp : ∀ gap start, p ⟨kind, gap, text.toList, start⟩ = true) :
    Reads (eat p) [.word kind text] true Whatever := by
  intro ts rest hts _
  obtain ⟨gap, start, us, rfl, -, hus⟩ := hts.exists_word
  obtain rfl := hus.eq_nil
  rw [eat, List.singleton_append, peek_cons hd, advance_cons hd, if_pos (hp gap start)]

/-- An optional token that is not there. -/
theorem reads_eat_none : Reads (eat p) [] false fun rest => p (peek rest) = false := by
  intro ts rest hts hrest
  rw [hts.eq_nil, List.nil_append, eat, if_neg (by simp [hrest])]

/-- A mark that is there or not, ahead of what is no such mark. -/
theorem reads_mark {f : Bool → Reader β} {qs : List Part} {y : β} {next : List Token → Prop}
    {b : Bool} (hd : kind ≠ .docComment)
    (hp : ∀ gap start, p ⟨kind, gap, text.toList, start⟩ = true) (hf : Reads (f b) qs y next)
    (h : b = false → Meets qs next fun rest => p (peek rest) = false) :
    Reads (eat p >>= f) ((if b then [.word kind text] else []) ++ qs) y next := by
  cases b with
  | true => exact (reads_eat hd hp).bind_whatever hf
  | false => exact reads_eat_none.bind hf (h rfl)

/-- A token that has to be there. -/
theorem expect_cons {t : Token} {rest : List Token} (hd : t.kind ≠ .docComment) (hp : p t = true) :
    expect p (t :: rest) = some (t, rest) := by
  rw [expect, peek_cons hd, advance_cons hd, if_pos hp]

/-- A token that has to be there and of which only the rest of a reader is left. -/
theorem reads_expect_bind {f : Token → Reader β} {qs : List Part} {y : β}
    {next : List Token → Prop} (hd : kind ≠ .docComment)
    (hp : ∀ gap start, p ⟨kind, gap, text.toList, start⟩ = true)
    (hf : ∀ gap start, Reads (f ⟨kind, gap, text.toList, start⟩) qs y next) :
    Reads (expect p >>= f) (.word kind text :: qs) y next := by
  intro ts rest hts hrest
  obtain ⟨gap, start, us, rfl, -, hus⟩ := hts.exists_word
  have hexpect := @expect_cons p ⟨kind, gap, text.toList, start⟩ (us ++ rest) hd (hp gap start)
  simp only [Bind.bind, StateT.bind, List.cons_append, hexpect, Option.bind_some]
  exact hf gap start us rest hus hrest

/-- A character that has to be there. -/
theorem reads_expectPunct (c : Char) : Reads (expectPunct c) [.sign c] () Whatever :=
  reads_expect_bind nofun (fun _ _ => beq_self_eq_true _) fun _ _ => .pure

/-- A character that may be there. -/
theorem reads_eatPunct (c : Char) : Reads (eatPunct c) [.sign c] true Whatever :=
  reads_eat nofun fun _ _ => beq_self_eq_true _

/-- A keyword is one in its own spelling. -/
theorem isKeyword_self {s keyword : String} {gap : List Char} {start : Nat} :
    (Token.mk .name gap s.toList start).isKeyword keyword = eqIgnoreCase s keyword := by
  rw [Token.isKeyword, Token.source, String.ofList_toList]
  rfl

/-- A keyword that may be there. -/
theorem reads_eatKeyword (keyword : String) :
    Reads (eatKeyword keyword) [.name keyword] true Whatever :=
  reads_eat nofun fun _ _ => isKeyword_self.trans (beq_self_eq_true _)

/-- A name. -/
theorem reads_name (s : String) : Reads name [.name s] s Whatever := by
  refine reads_expect_bind nofun (fun _ _ => rfl) fun gap start => ?_
  have : (Token.mk .name gap s.toList start).source = s := String.ofList_toList
  rw [this]
  exact .pure

/-- A variable. -/
theorem reads_variableName (s : String) : Reads variableName [.var s] s Whatever := by
  refine reads_expect_bind nofun (fun _ _ => rfl) fun gap start => ?_
  have : (Token.mk .var gap ("$" ++ s).toList start).varName = s := by
    rw [Token.varName, String.toList_append]
    exact String.ofList_toList
  rw [this]
  exact .pure

end PhpGraft.Reader

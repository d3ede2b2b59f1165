import PhpGraft.Proofs.Syntax.Tokens
import PhpGraft.Syntax.Reader.File

/-!
# Texts and what they show

What is written is described by its parts: tokens of a kind and a text, doc comments and blocks.
`Spells` relates tokens to parts, `Scans` a whole text, and `Lexes` a piece of text that is
continued. Where a token ends depends on what follows it, so a piece says which continuations it
allows. Pieces are put together by `Lexes.append`; white space between them counts for nothing.
-/

namespace PhpGraft

open Text

/-- Tokens that stand between the brace that opens a block and what follows it. -/
def Encloses (inner : List Token) (body : Body) : Prop :=
  ∃ source, (∀ rest, Reader.blockSource? 0 (inner ++ rest) = some (source, rest)) ∧
    Body.ofSource source = body

/-- What a text shows. -/
inductive Part where
  /-- A token of a kind and a text. -/
  | word (kind : TokenKind) (text : String)
  /-- A doc comment, given as it is stored. -/
  | doc (stored : String)
  /-- A block of statements in braces. -/
  | block (body : Body)

namespace Part

/-- A character as a part. -/
def sign (c : Char) : Part := .word (.punct c) (String.ofList [c])

/-- A name or a keyword as a part. -/
def name (s : String) : Part := .word .name s

/-- A variable as a part. -/
def var (s : String) : Part := .word .var ("$" ++ s)

end Part

/-- Tokens without comments ahead of them that show some parts. -/
inductive Spells : List Token → List Part → Prop where
  | nil : Spells [] []
  | word {t : Token} {ts : List Token} {kind : TokenKind} {text : String} {ps : List Part}
      (hk : t.kind = kind) (ht : t.text = text.toList) (hg : t.gap.all isBlank = true)
      (h : Spells ts ps) : Spells (t :: ts) (.word kind text :: ps)
  | doc {t : Token} {ts : List Token} {stored : String} {ps : List Part}
      (hk : t.kind = .docComment) (ht : String.ofList (DocComment.normalize t.text) = stored)
      (hg : t.gap.all isBlank = true) (h : Spells ts ps) : Spells (t :: ts) (.doc stored :: ps)
  | block {t : Token} {inner ts : List Token} {body : Body} {ps : List Part}
      (hk : t.kind = .punct '{') (hb : Encloses inner body) (hg : t.gap.all isBlank = true)
      (h : Spells ts ps) : Spells (t :: (inner ++ ts)) (.block body :: ps)

namespace Spells

variable {ts us : List Token} {ps qs : List Part}

/-- Tokens that show some parts, and tokens that show others behind them. -/
theorem append (h₁ : Spells ts ps) (h₂ : Spells us qs) : Spells (ts ++ us) (ps ++ qs) := by
  induction h₁ with
  | nil => exact h₂
  | word hk ht hg _ ih => exact .word hk ht hg ih
  | doc hk ht hg _ ih => exact .doc hk ht hg ih
  | block hk hb hg _ ih =>
    rw [List.cons_append, List.cons_append, List.append_assoc]
    exact .block hk hb hg ih

/-- Tokens come apart where their parts do. -/
theorem exists_of_append (h : Spells ts (ps ++ qs)) :
    ∃ us vs, ts = us ++ vs ∧ Spells us ps ∧ Spells vs qs := by
  induction ps generalizing ts with
  | nil => exact ⟨[], ts, rfl, .nil, h⟩
  | cons p ps ih =>
    rw [List.cons_append] at h
    cases h with
    | word hk ht hg h =>
      obtain ⟨us, vs, rfl, hu, hv⟩ := ih h
      exact ⟨_ :: us, vs, rfl, .word hk ht hg hu, hv⟩
    | doc hk ht hg h =>
      obtain ⟨us, vs, rfl, hu, hv⟩ := ih h
      exact ⟨_ :: us, vs, rfl, .doc hk ht hg hu, hv⟩
    | @block t inner _ _ _ hk hb hg h =>
      obtain ⟨us, vs, rfl, hu, hv⟩ := ih h
      exact ⟨t :: (inner ++ us), vs, by simp, .block hk hb hg hu, hv⟩

/-- The token that shows a word. -/
theorem exists_word {kind : TokenKind} {text : String} (h : Spells ts (.word kind text :: ps)) :
    ∃ gap start rest, ts = ⟨kind, gap, text.toList, start⟩ :: rest ∧ gap.all isBlank = true ∧
      Spells rest ps := by
  cases h with
  | @word t rest _ _ _ hk ht hg h =>
    obtain ⟨kind, gap, text, start⟩ := t
    obtain rfl := hk
    obtain rfl := ht
    exact ⟨gap, start, rest, rfl, hg, h⟩

/-- No tokens show no parts. -/
theorem eq_nil (h : Spells ts []) : ts = [] := by
  cases h
  rfl

/-- More white space ahead of the first token changes nothing. -/
theorem widen {t : Token} {g : List Char} (hg : g.all isBlank = true) (h : Spells (t :: ts) ps) :
    Spells ({ t with gap := g ++ t.gap } :: ts) ps := by
  have hall {gap : List Char} (h : gap.all isBlank = true) : (g ++ gap).all isBlank = true := by
    rw [List.all_append, hg, h, Bool.and_self]
  cases h with
  | word hk ht hgap h => exact .word hk ht (hall hgap) h
  | doc hk ht hgap h => exact .doc hk ht (hall hgap) h
  | block hk hb hgap h => exact .block hk hb (hall hgap) h

end Spells

/-! ## Whole texts -/

/-- A text whose tokens show some parts. -/
def Scans (cs : List Char) (ps : List Part) : Prop :=
  ∀ start, ∃ ts, Lexer.tokens start cs = .ok ts ∧ Spells ts ps

namespace Scans

open Lexer

/-- Where a text ends there is the end of the source. -/
theorem nil : Scans [] [.word .eof ""] := fun _ =>
  ⟨_, tokens_end (gapLength_blank rfl) rfl, .word rfl String.toList_empty.symm rfl .nil⟩

/-- White space at the front shows nothing. -/
theorem blank_append {g cs : List Char} {ps : List Part} (hg : g.all isBlank = true)
    (h : Scans cs ps) : Scans (g ++ cs) ps := by
  intro start
  obtain ⟨ts, hts, hs⟩ := h (start + byteLength g)
  obtain ⟨t, more, rfl, hwide⟩ := tokens_blank_append hg hts
  exact ⟨_, hwide, hs.widen hg⟩

/-- The token at the front of a text, given by its scan. -/
theorem exists_tokens_cons {c : Char} {cs f : List Char} {kind : TokenKind} {ps : List Part}
    (hb : isBlank c = false) (hc : plainComment? c (cs ++ f) = .ok none)
    (hs : scan c (cs ++ f) = .ok (kind, cs.length)) (h : Scans f ps) (start : Nat) :
    ∃ ts, tokens start (c :: (cs ++ f)) = .ok (⟨kind, [], c :: cs, start⟩ :: ts) ∧ Spells ts ps := by
  obtain ⟨ts, hts, hp⟩ := h (start + byteLength (c :: cs))
  exact ⟨ts, tokens_text_append (b := []) rfl hb hc hs hts, hp⟩

/-- A word at the front of a text. -/
theorem word {c : Char} {cs f : List Char} {kind : TokenKind} {ps : List Part}
    (hb : isBlank c = false) (hc : plainComment? c (cs ++ f) = .ok none)
    (hs : scan c (cs ++ f) = .ok (kind, cs.length)) (h : Scans f ps) :
    Scans (c :: (cs ++ f)) (.word kind (String.ofList (c :: cs)) :: ps) := by
  intro start
  obtain ⟨ts, hts, hp⟩ := exists_tokens_cons hb hc hs h start
  exact ⟨_, hts, .word rfl (by rw [String.toList_ofList]) rfl hp⟩

end Scans

/-! ## Pieces of a text -/

/-- A piece of text that shows some parts ahead of every continuation that `ok` allows. -/
def Lexes (cs : List Char) (ps : List Part) (ok : List Char → Prop) : Prop :=
  ∀ f qs, ok f → Scans f qs → Scans (cs ++ f) (ps ++ qs)

/-- Every continuation. -/
def Anything (_ : List Char) : Prop := True

/-- A continuation that does not start with a character of a name or of a number. -/
def Breaks (f : List Char) : Prop := ∀ c ∈ f.head?, isIdentChar c = false ∧ c ≠ '\\' ∧ c ≠ '.'

/-- A continuation that starts with a certain character breaks a name if the character does. -/
theorem breaks_cons {c : Char} (h : (!isIdentChar c && c != '\\' && c != '.') = true)
    (f : List Char) : Breaks (c :: f) := by
  intro d hd
  obtain rfl : c = d := by simpa using hd
  simpa [and_assoc] using h

namespace Lexes

variable {a b g : List Char} {ps qs : List Part} {ok ok' : List Char → Prop}

/-- Nothing shows nothing. -/
theorem nil : Lexes [] [] ok := fun _ _ _ h => h

/-- White space shows nothing. -/
theorem blank (hg : g.all isBlank = true) : Lexes g [] ok := fun _ _ _ h => h.blank_append hg

/-- A piece behind another one that allows it. -/
theorem append (h₁ : Lexes a ps ok) (h₂ : Lexes b qs ok') (h : ∀ f, ok' f → ok (b ++ f)) :
    Lexes (a ++ b) (ps ++ qs) ok' := by
  intro f rs hf hs
  rw [List.append_assoc, List.append_assoc]
  exact h₁ _ _ (h f hf) (h₂ f rs hf hs)

/-- A piece that allows fewer continuations than it could. -/
theorem mono (h : Lexes a ps ok) (hok : ∀ f, ok' f → ok f) : Lexes a ps ok' :=
  fun f qs hf hs => h f qs (hok f hf) hs

/-- A piece that allows every continuation, ahead of another piece. -/
theorem append_of_anything (h₁ : Lexes a ps Anything) (h₂ : Lexes b qs ok) :
    Lexes (a ++ b) (ps ++ qs) ok := h₁.append h₂ fun _ _ => trivial

/-- White space behind a piece. -/
theorem append_blank (h : Lexes a ps Breaks) {c : Char}
    (hc : isBlank c = true) (hb : (!isIdentChar c && c != '\\' && c != '.') = true)
    (hg : g.all isBlank = true) : Lexes (a ++ c :: g) ps Anything := by
  have hblank : Lexes (c :: g) [] Anything := .blank (by rw [List.all_cons, hc, hg, Bool.and_self])
  have := h.append hblank fun f _ => breaks_cons hb (g ++ f)
  rwa [List.append_nil] at this

/-- A word is a piece that allows what its scan allows. -/
theorem word {c : Char} {cs : List Char} {kind : TokenKind} (hb : isBlank c = false)
    (hc : ∀ f, ok f → Lexer.plainComment? c (cs ++ f) = .ok none)
    (hs : ∀ f, ok f → Lexer.scan c (cs ++ f) = .ok (kind, cs.length)) :
    Lexes (c :: cs) [.word kind (String.ofList (c :: cs))] ok :=
  fun f _ hf h => h.word hb (hc f hf) (hs f hf)

end Lexes

end PhpGraft

import PhpGraft.Syntax.Lexer

/-!
# Steps of the lexer

Cutting a text into tokens alternates between a gap and a token. Each lemma here is one such step,
forwards (`gapLength_comment`, `tokens_cons`) or backwards (`gapLength_cases`, `tokens_cases`). White
space ahead of a text goes to the gap of its first token and changes nothing else
(`tokens_blank_append`).
-/

namespace PhpGraft.Text

/-- The bytes of two texts one after the other. -/
theorem byteLength_append (a b : List Char) :
    byteLength (a ++ b) = byteLength a + byteLength b := by
  induction a with
  | nil => rw [List.nil_append, byteLength, Nat.zero_add]
  | cons c a ih => rw [List.cons_append, byteLength, byteLength, ih, Nat.add_assoc]

/-- A blank text ahead of another one is passed over. -/
theorem dropWhile_blank_append {g : List Char} (hg : g.all isBlank = true) (cs : List Char) :
    (g ++ cs).dropWhile isBlank = cs.dropWhile isBlank :=
  List.dropWhile_append_of_pos (by simpa using hg)

/-- A blank text ahead of another one belongs to the white space at its front. -/
theorem takeWhile_blank_append {g : List Char} (hg : g.all isBlank = true) (cs : List Char) :
    (g ++ cs).takeWhile isBlank = g ++ cs.takeWhile isBlank :=
  List.takeWhile_append_of_pos (by simpa using hg)

/-- In a blank text there is nothing behind the white space at its front. -/
theorem dropWhile_blank {g : List Char} (hg : g.all isBlank = true) : g.dropWhile isBlank = [] := by
  have hnone := dropWhile_blank_append hg []
  rwa [List.append_nil] at hnone

/-- What stands behind the white space at the front of a text does not start with more of it. -/
theorem isBlank_of_dropWhile {cs rest : List Char} {c : Char} (h : cs.dropWhile isBlank = c :: rest) :
    isBlank c = false := by
  have hfirst := List.head?_dropWhile_not isBlank cs
  rw [h] at hfirst
  simpa using hfirst

end PhpGraft.Text

namespace PhpGraft.Token

/-- The first of some tokens is spelled ahead of the others. -/
theorem spelled_cons (t : Token) (ts : List Token) :
    spelled (t :: ts) = t.gap ++ (t.text ++ spelled ts) := by
  rw [spelled, List.flatMap_cons, List.append_assoc]
  rfl

end PhpGraft.Token

namespace PhpGraft.Lexer

open Decimal Text

variable {start g : Nat} {cs rest : List Char} {c : Char}

/-! ## Gaps -/

/-- A blank text is all gap. -/
theorem gapLength_blank (h : cs.dropWhile isBlank = []) : gapLength cs = .ok cs.length := by
  have htake := List.takeWhile_append_dropWhile (p := isBlank) (l := cs)
  rw [h, List.append_nil] at htake
  unfold gapLength
  split
  · rw [htake]
    rfl
  · next e => simp [h] at e

/-- A gap ends ahead of a character that starts no comment. -/
theorem gapLength_token (h : cs.dropWhile isBlank = c :: rest)
    (hc : plainComment? c rest = .ok none) : gapLength cs = .ok (cs.takeWhile isBlank).length := by
  unfold gapLength
  split
  · next e => simp [h] at e
  · next e =>
    rw [h] at e
    obtain ⟨rfl, rfl⟩ := List.cons.inj e
    simp only [hc]
    rfl

/-- A gap goes on behind a comment. -/
theorem gapLength_comment {n more : Nat} (h : cs.dropWhile isBlank = c :: rest)
    (hc : plainComment? c rest = .ok (some n)) (hm : gapLength (rest.drop n) = .ok more) :
    gapLength cs = .ok ((cs.takeWhile isBlank).length + (1 + n) + more) := by
  rw [gapLength]
  split
  · next e => simp [h] at e
  · next e =>
    rw [h] at e
    obtain ⟨rfl, rfl⟩ := List.cons.inj e
    simp only [hc, hm]
    rfl

/-- There is no gap ahead of a character that is not blank and starts no comment. -/
theorem gapLength_cons_token (hb : isBlank c = false) (hc : plainComment? c rest = .ok none) :
    gapLength (c :: rest) = .ok 0 := by
  rw [gapLength_token (List.dropWhile_cons_of_neg (by simp [hb])) hc,
    List.takeWhile_cons_of_neg (by simp [hb])]
  rfl

/-- A gap that starts with a comment. -/
theorem gapLength_cons_comment {n more : Nat} (hb : isBlank c = false)
    (hc : plainComment? c rest = .ok (some n)) (hm : gapLength (rest.drop n) = .ok more) :
    gapLength (c :: rest) = .ok (1 + n + more) := by
  rw [gapLength_comment (List.dropWhile_cons_of_neg (by simp [hb])) hc hm,
    List.takeWhile_cons_of_neg (by simp [hb]), List.length_nil, Nat.zero_add]

/-- A gap has one of these three forms. -/
theorem gapLength_cases (h : gapLength cs = .ok g) :
    (cs.dropWhile isBlank = [] ∧ g = cs.length) ∨
    (∃ c rest, cs.dropWhile isBlank = c :: rest ∧ plainComment? c rest = .ok none ∧
      g = (cs.takeWhile isBlank).length) ∨
    (∃ c rest n more, cs.dropWhile isBlank = c :: rest ∧ plainComment? c rest = .ok (some n) ∧
      gapLength (rest.drop n) = .ok more ∧ g = (cs.takeWhile isBlank).length + (1 + n) + more) := by
  rcases hd : cs.dropWhile isBlank with _ | ⟨c, rest⟩
  · rw [gapLength_blank hd] at h
    exact .inl ⟨rfl, (Except.ok.inj h).symm⟩
  · rcases hc : plainComment? c rest with fault | _ | n
    · rw [gapLength] at h
      split at h
      · next e => simp [hd] at e
      · next e =>
        rw [hd] at e
        obtain ⟨rfl, rfl⟩ := List.cons.inj e
        simp [hc] at h
    · rw [gapLength_token hd hc] at h
      exact .inr (.inl ⟨c, rest, rfl, hc, (Except.ok.inj h).symm⟩)
    · rcases hm : gapLength (rest.drop n) with fault | more
      · rw [gapLength] at h
        split at h
        · next e => simp [hd] at e
        · next e =>
          rw [hd] at e
          obtain ⟨rfl, rfl⟩ := List.cons.inj e
          simp [hc, hm] at h
      · rw [gapLength_comment hd hc hm] at h
        exact .inr (.inr ⟨c, rest, n, more, rfl, hc, hm, (Except.ok.inj h).symm⟩)

/-- White space at the front of a text makes its gap longer. -/
theorem gapLength_append {b : List Char} (hb : b.all isBlank = true) (h : gapLength cs = .ok g) :
    gapLength (b ++ cs) = .ok (b.length + g) := by
  have hdrop := dropWhile_blank_append hb cs
  have htake := takeWhile_blank_append hb cs
  rcases gapLength_cases h with ⟨hd, rfl⟩ | ⟨c, rest, hd, hc, rfl⟩ |
    ⟨c, rest, n, more, hd, hc, hm, rfl⟩
  · rw [gapLength_blank (hdrop.trans hd), List.length_append]
  · rw [gapLength_token (hdrop.trans hd) hc, htake, List.length_append]
  · rw [gapLength_comment (hdrop.trans hd) hc hm, htake, List.length_append]
    congr 1
    omega

/-- Without the white space at its front a text has a shorter gap. -/
theorem gapLength_of_append {b : List Char} (hb : b.all isBlank = true)
    (h : gapLength (b ++ cs) = .ok g) : ∃ k, gapLength cs = .ok k ∧ g = b.length + k := by
  have hdrop := dropWhile_blank_append hb cs
  have htake : ((b ++ cs).takeWhile isBlank).length = b.length + (cs.takeWhile isBlank).length := by
    rw [takeWhile_blank_append hb cs, List.length_append]
  rcases gapLength_cases h with ⟨hd, rfl⟩ | ⟨c, rest, hd, hc, rfl⟩ |
    ⟨c, rest, n, more, hd, hc, hm, rfl⟩
  · exact ⟨cs.length, gapLength_blank (hdrop.symm.trans hd), List.length_append⟩
  · exact ⟨_, gapLength_token (hdrop.symm.trans hd) hc, htake⟩
  · exact ⟨_, gapLength_comment (hdrop.symm.trans hd) hc hm, by omega⟩

/-- What is behind the white space at the front of a text. -/
theorem drop_takeWhile_add {p : Char → Bool} (cs : List Char) (k : Nat) :
    cs.drop ((cs.takeWhile p).length + k) = (cs.dropWhile p).drop k := by
  conv => lhs; arg 2; rw [← List.takeWhile_append_dropWhile (p := p) (l := cs)]
  exact List.drop_length_add_append k

/-- What is behind a comment and the rest of its gap. -/
theorem drop_comment (c : Char) (rest : List Char) (n more : Nat) :
    (c :: rest).drop (1 + n + more) = (rest.drop n).drop more := by
  rw [Nat.add_assoc, Nat.add_comm 1, List.drop_succ_cons, List.drop_drop]

/-! ## Tokens -/

/-- The source ends behind a gap. -/
theorem tokens_end (hg : gapLength cs = .ok g) (h : cs.drop g = []) :
    tokens start cs = .ok [⟨.eof, cs.take g, [], start + byteLength (cs.take g)⟩] := by
  rw [tokens, hg]
  dsimp only
  split
  · rfl
  · next e => simp [h] at e

/-- A token stands behind a gap. -/
theorem tokens_cons {n : Nat} {kind : TokenKind} {more : List Token} (hg : gapLength cs = .ok g)
    (h : cs.drop g = c :: rest) (hs : scan c rest = .ok (kind, n))
    (hm : tokens (start + byteLength (cs.take g) + byteLength (c :: rest.take n)) (rest.drop n) =
      .ok more) :
    tokens start cs =
      .ok (⟨kind, cs.take g, c :: rest.take n, start + byteLength (cs.take g)⟩ :: more) := by
  rw [tokens, hg]
  dsimp only
  split
  · next e => simp [h] at e
  · next e =>
    rw [h] at e
    obtain ⟨rfl, rfl⟩ := List.cons.inj e
    simp only [hs, hm]
    rfl

/-- The tokens of a text start in one of these two ways. -/
theorem tokens_cases {ts : List Token} (h : tokens start cs = .ok ts) :
    ∃ g, gapLength cs = .ok g ∧
      ((cs.drop g = [] ∧ ts = [⟨.eof, cs.take g, [], start + byteLength (cs.take g)⟩]) ∨
       ∃ c rest kind n more, cs.drop g = c :: rest ∧ scan c rest = .ok (kind, n) ∧
         tokens (start + byteLength (cs.take g) + byteLength (c :: rest.take n)) (rest.drop n) =
           .ok more ∧
         ts = ⟨kind, cs.take g, c :: rest.take n, start + byteLength (cs.take g)⟩ :: more) := by
  rcases hg : gapLength cs with fault | g
  · rw [tokens, hg] at h
    simp at h
  · refine ⟨g, rfl, ?_⟩
    rcases hd : cs.drop g with _ | ⟨c, rest⟩
    · rw [tokens_end hg hd] at h
      exact .inl ⟨rfl, (Except.ok.inj h).symm⟩
    · have hopen := h
      rw [tokens, hg] at hopen
      dsimp only at hopen
      split at hopen
      · next e => simp [hd] at e
      · next e =>
        rw [hd] at e
        obtain ⟨rfl, rfl⟩ := List.cons.inj e
        rcases hs : scan c rest with fault | ⟨kind, n⟩
        · simp [hs] at hopen
        · rw [hs] at hopen
          dsimp only at hopen
          rcases hm : tokens (start + byteLength (cs.take g) + byteLength (c :: rest.take n))
            (rest.drop n) with fault | more
          · rw [hm] at hopen
            simp at hopen
          · rw [tokens_cons hg hd hs hm] at h
            exact .inr ⟨c, rest, kind, n, more, rfl, hs, hm, (Except.ok.inj h).symm⟩

/-- White space at the front of a text goes to the gap of its first token. -/
theorem tokens_blank_append {b : List Char} {ts : List Token} (hb : b.all isBlank = true)
    (h : tokens (start + byteLength b) cs = .ok ts) :
    ∃ t more, ts = t :: more ∧
      tokens start (b ++ cs) = .ok ({ t with gap := b ++ t.gap } :: more) := by
  obtain ⟨n, hn, ⟨hd, rfl⟩ | ⟨c, rest, kind, k, more, hd, hs, hm, rfl⟩⟩ := tokens_cases h
  · have hgap := gapLength_append hb hn
    have htake : (b ++ cs).take (b.length + n) = b ++ cs.take n := List.take_length_add_append n
    refine ⟨_, _, rfl, ?_⟩
    rw [tokens_end hgap (by simpa using hd), htake, byteLength_append, Nat.add_assoc]
  · have hgap := gapLength_append hb hn
    have htake : (b ++ cs).take (b.length + n) = b ++ cs.take n := List.take_length_add_append n
    have hbegins : start + byteLength ((b ++ cs).take (b.length + n)) =
        start + byteLength b + byteLength (cs.take n) := by
      rw [htake, byteLength_append, Nat.add_assoc]
    refine ⟨_, _, rfl, ?_⟩
    rw [tokens_cons hgap (by simpa using hd) hs (hbegins ▸ hm), hbegins, htake]

/-- A token that is found behind white space, ahead of those of what follows it. -/
theorem tokens_text_append {b cs f : List Char} {kind : TokenKind} {more : List Token}
    (hb : b.all isBlank = true) (hblank : isBlank c = false)
    (hc : plainComment? c (cs ++ f) = .ok none) (hs : scan c (cs ++ f) = .ok (kind, cs.length))
    (hm : tokens (start + byteLength b + byteLength (c :: cs)) f = .ok more) :
    tokens start (b ++ (c :: cs ++ f)) = .ok (⟨kind, b, c :: cs, start + byteLength b⟩ :: more) := by
  have hgap : gapLength (b ++ c :: (cs ++ f)) = .ok b.length :=
    gapLength_append hb (gapLength_cons_token hblank hc)
  have htext : (cs ++ f).take cs.length = cs := List.take_left
  have := @tokens_cons start _ _ _ c cs.length kind more hgap List.drop_left hs (by
    rw [htext, List.take_left, List.drop_left]
    exact hm)
  rwa [htext, List.take_left] at this

/-- Without the white space at its front a text has the same tokens, but for the gap of the first
one. -/
theorem tokens_of_blank_append {b : List Char} {ts : List Token} (hb : b.all isBlank = true)
    (h : tokens start (b ++ cs) = .ok ts) :
    ∃ t more, ts = { t with gap := b ++ t.gap } :: more ∧
      tokens (start + byteLength b) cs = .ok (t :: more) := by
  obtain ⟨g, hg, hcases⟩ := tokens_cases h
  obtain ⟨k, hk, rfl⟩ := gapLength_of_append hb hg
  have htake : (b ++ cs).take (b.length + k) = b ++ cs.take k := List.take_length_add_append k
  have hdrop : (b ++ cs).drop (b.length + k) = cs.drop k := List.drop_length_add_append k
  rw [htake, hdrop, byteLength_append, ← Nat.add_assoc] at hcases
  rcases hcases with ⟨hd, rfl⟩ | ⟨c, rest, kind, n, more, hd, hs, hm, rfl⟩
  · exact ⟨⟨.eof, cs.take k, [], _⟩, [], rfl, tokens_end hk hd⟩
  · exact ⟨⟨kind, cs.take k, c :: rest.take n, _⟩, more, rfl, tokens_cons hk hd hs hm⟩

/-- The tokens behind others are those of what stands behind them. -/
theorem tokens_suffix {us more : List Token} (h : tokens start cs = .ok (us ++ more))
    (hne : more ≠ []) : ∃ start' cs', tokens start' cs' = .ok more := by
  induction us generalizing start cs with
  | nil => exact ⟨start, cs, h⟩
  | cons u us ih =>
    obtain ⟨g, -, ⟨-, hlast⟩ | ⟨c, rest, kind, n, others, -, -, hm, hcons⟩⟩ := tokens_cases h
    · exact absurd (List.append_eq_nil_iff.1 (List.cons.inj hlast).2).2 hne
    · exact ih ((List.cons.inj hcons).2 ▸ hm)

/-- The tokens of a file are the open tag and those of the code behind it; a file of nothing but white
space has only the token of its end. -/
theorem file_cases {source : String} {ts : List Token} (h : file source = .ok ts) :
    (∃ before code more, splitOnce? openTag source.toList = some (before, code) ∧
      before.all isBlank = true ∧
      tokens (byteLength before + byteLength openTag) code = .ok more ∧
      ts = ⟨.openTag, before, openTag, byteLength before⟩ :: more) ∨
    (splitOnce? openTag source.toList = none ∧
      ts = [⟨.eof, source.toList, [], byteLength source.toList⟩]) := by
  unfold file at h
  dsimp only at h
  split at h
  · next before code hsplit =>
    split at h
    · next hblank =>
      cases hm : tokens (byteLength before + byteLength openTag) code with
      | error e => rw [hm] at h; exact absurd h nofun
      | ok more =>
        rw [hm] at h
        exact .inl ⟨before, code, more, hsplit, hblank, hm, (Except.ok.inj h).symm⟩
    · exact absurd h nofun
  · next hsplit =>
    split at h
    · exact .inr ⟨hsplit, (Except.ok.inj h).symm⟩
    · exact absurd h nofun

/-- The tokens of a file behind the first one are those of its code, if there are some. -/
theorem exists_of_file {source : String} {t : Token} {more : List Token}
    (h : file source = .ok (t :: more)) (hne : more ≠ []) :
    ∃ start cs, tokens start cs = .ok more := by
  obtain ⟨before, code, more', -, -, hcode, hts⟩ | ⟨-, hts⟩ := file_cases h
  · exact ⟨_, code, hcode.trans (congrArg _ (List.cons.inj hts).2.symm)⟩
  · exact absurd (List.cons.inj hts).2 hne

/-! ## Kinds of tokens -/

/-- Whether a token of a kind is neither a name nor a close tag, a single character or the end of the
source. -/
def isLiteral : TokenKind → Bool
  | .name | .closeTag | .punct _ | .eof => false
  | _ => true

/-- Whether a scan finds a literal, if it finds a token. -/
def Literal (s : Scan) : Prop := ∀ kind n, s = .ok (kind, n) → isLiteral kind = true

/-- Whether a scan finds only tokens of certain kinds, if it finds a token. -/
def Finds (p : TokenKind → Prop) (s : Scan) : Prop := ∀ kind n, s = .ok (kind, n) → p kind

namespace Finds

variable {p : TokenKind → Prop}

/-- What is found in either case is of such a kind. -/
theorem ite {q : Prop} [Decidable q] {s t : Scan} (hs : Finds p s) (ht : Finds p t) :
    Finds p (if q then s else t) := by
  split
  · exact hs
  · exact ht

/-- A token of such a kind. -/
theorem ok {kind : TokenKind} {n : Nat} (h : p kind) : Finds p (.ok (kind, n)) :=
  fun _ _ he => (Prod.mk.inj (Except.ok.inj he)).1 ▸ h

/-- A fault finds nothing. -/
theorem fault {cause : ParseCause} {length : Nat} : Finds p (fault cause length) := fun _ _ => nofun

/-- An integer is found if it has at most 63 bits, and else the double of it. -/
theorem integerScan {base n : Nat} {digits : List Char} (hint : ∀ m ≤ maxInt64, p (.int m))
    (hfloat : ∀ m, p (.float (Binary64.ofNat m))) : Finds p (integerScan base digits n) := by
  unfold Lexer.integerScan integerKind?
  cases read? base (digits.filter (· != '_')) with
  | none => exact fault
  | some k =>
    rw [Option.bind_some]
    by_cases hsmall : k ≤ maxInt64
    · rw [if_pos hsmall]
      exact ok (hint k hsmall)
    · rw [if_neg hsmall]
      by_cases hlarge : k < pow2 128
      · rw [if_pos hlarge]
        exact ok (hfloat k)
      · rw [if_neg hlarge]
        exact fault

/-- A numeral is an integer or the double of a decimal. -/
theorem scanNumber {c : Char} (hint : ∀ m ≤ maxInt64, p (.int m))
    (hfloat : ∀ m, p (.float (Binary64.ofNat m)))
    (hdecimal : ∀ whole fraction exponent, p (.float (floatValue whole fraction exponent))) :
    Finds p (scanNumber c cs) := by
  unfold Lexer.scanNumber
  split
  · exact integerScan hint hfloat
  · exact ite (ite (integerScan hint hfloat) (integerScan hint hfloat)) (ok (hdecimal ..))

/-- A heredoc is a string without a value. -/
theorem scanHeredoc (h : p (.string none)) : Finds p (scanHeredoc cs) := by
  unfold Lexer.scanHeredoc
  split
  · exact fault
  · refine ite fault ?_
    split
    · exact ok h
    · exact fault

/-- A doc comment is one. -/
theorem scanDoc (h : p .docComment) : Finds p (scanDoc cs) := by
  unfold Lexer.scanDoc
  split
  · exact ok h
  · exact fault

/-- A string in single quotes is one. -/
theorem scanSingleQuoted (h : ∀ value, p (.string value)) : Finds p (scanSingleQuoted cs) := by
  unfold Lexer.scanSingleQuoted
  split
  · exact ok (h _)
  · exact fault

/-- A string in other quotes is one. -/
theorem scanDoubleQuoted {q : Char} (h : ∀ value, p (.string value)) :
    Finds p (scanDoubleQuoted q cs) := by
  unfold Lexer.scanDoubleQuoted
  split
  · exact ok (h _)
  · exact fault

end Finds

/-- Whether the first character of a text, which is given apart, starts a name. -/
def startsName (c : Char) (cs : List Char) : Bool :=
  isIdentStart c || (c == '\\' && cs.head?.any isIdentStart)

/-- Whether a token of a kind, of `n` characters behind its first one, can stand where a text starts. A
name stands where one starts, and goes to its end; the end of the source stands nowhere. -/
def StandsAt (c : Char) (cs : List Char) (n : Nat) : TokenKind → Prop
  | .eof => False
  | .name => startsName c cs = true ∧ n = nameLength cs
  | .closeTag => c = '?' ∧ cs.head? = some '>' ∧ n = 1
  | .punct p => p = c ∧ n = 0
  | _ => True

/-- Whether a scan finds only what can stand at the front of a text. -/
def Naming (c : Char) (cs : List Char) (s : Scan) : Prop :=
  ∀ kind n, s = .ok (kind, n) → StandsAt c cs n kind

/-- A literal can stand anywhere. -/
theorem Literal.naming {s : Scan} (h : Literal s) (c : Char) (cs : List Char) : Naming c cs s := by
  intro kind n hs
  have hkind := h kind n hs
  cases kind with
  | name | closeTag | punct | eof => cases hkind
  | _ => trivial

/-- What is found in either case can stand there. -/
theorem Naming.ite {p : Prop} [Decidable p] {s t : Scan} (hs : p → Naming c cs s) (ht : Naming c cs t) :
    Naming c cs (if p then s else t) := by
  split
  · next hp => exact hs hp
  · exact ht

/-- A token of a kind that can stand there. -/
theorem Naming.ok {kind : TokenKind} {n : Nat} (h : StandsAt c cs n kind) : Naming c cs (.ok (kind, n)) := by
  intro kind' n' he
  obtain ⟨rfl, rfl⟩ := Prod.mk.inj (Except.ok.inj he)
  exact h

/-- The token that starts with a character can stand there. -/
theorem naming_scan (c : Char) (cs : List Char) : Naming c cs (scan c cs) := by
  have hnumber : Literal (scanNumber c cs) :=
    Finds.scanNumber (fun _ _ => rfl) (fun _ => rfl) fun _ _ _ => rfl
  unfold scan
  refine .ite (fun _ => Literal.naming (Finds.scanDoc rfl) c cs) (.ite (fun _ => .ok trivial) ?_)
  refine .ite (fun hp => .ite (fun _ => .ok ⟨hp.1, hp.2, rfl⟩) fun _ _ => nofun) ?_
  refine .ite (fun _ => Literal.naming (Finds.scanHeredoc rfl) c cs) (.ite (fun _ => .ok trivial) ?_)
  refine .ite (fun _ => .ok trivial) (.ite (fun _ => .ok trivial) ?_)
  refine .ite (fun _ => .ok trivial) (.ite (fun hname => .ok ⟨hname, rfl⟩) ?_)
  refine .ite (fun _ => hnumber.naming c cs) ?_
  refine .ite (fun _ => Literal.naming (Finds.scanSingleQuoted fun _ => rfl) c cs) ?_
  exact .ite (fun _ => Literal.naming (Finds.scanDoubleQuoted fun _ => rfl) c cs) (.ok ⟨rfl, rfl⟩)

/-- Whether a scan does not find the end of the source. -/
def Proper (s : Scan) : Prop := ∀ n, s ≠ .ok (.eof, n)

/-- No token is the end of the source. -/
theorem Proper.scan {c : Char} : Proper (scan c cs) := fun n h => naming_scan c cs .eof n h

/-! ## Ends of the source -/

/-- The tokens of a source end with the end of the source, and with no other token. -/
theorem tokens_last {ts : List Token} (h : tokens start cs = .ok ts) :
    ∃ us e, ts = us ++ [e] ∧ e.kind = .eof ∧ e.text = [] ∧ ∀ t ∈ us, t.kind ≠ .eof := by
  induction ts generalizing start cs with
  | nil => obtain ⟨_, _, ⟨_, hts⟩ | ⟨_, _, _, _, _, _, _, _, hts⟩⟩ := tokens_cases h <;> exact absurd hts nofun
  | cons t ts ih =>
    obtain ⟨g, -, ⟨-, hts⟩ | ⟨c, rest, kind, n, more, -, hs, hm, hts⟩⟩ := tokens_cases h
    · obtain ⟨rfl, rfl⟩ := List.cons.inj hts
      exact ⟨[], _, rfl, rfl, rfl, nofun⟩
    · obtain ⟨rfl, rfl⟩ := List.cons.inj hts
      obtain ⟨us, e, rfl, he, htext, hus⟩ := ih hm
      refine ⟨_ :: us, e, rfl, he, htext, fun t ht => ?_⟩
      rcases List.mem_cons.1 ht with rfl | ht
      · rintro rfl
        exact Proper.scan _ hs
      · exact hus t ht

end PhpGraft.Lexer

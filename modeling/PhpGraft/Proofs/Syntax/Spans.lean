import PhpGraft.Proofs.Syntax.Continuing

/-!
# Spans in a source

The span of an error is a part of the source: it lies within the source, and it starts and ends between
characters (`ParseError.Within`). The lexer only gives such errors (`confined_file`,
`confined_fragment`), and the tokens that it gives tile the source (`Token.Tile`), so that the span of a
token is one, too.
-/

namespace PhpGraft

open Decimal Text

/-! ## Parts of a text -/

/-- What is found in a text is split there. -/
theorem Text.append_of_splitOnce? {pat cs before behind : List Char}
    (h : splitOnce? pat cs = some (before, behind)) : cs = before ++ (pat ++ behind) := by
  obtain ⟨n, hn, hparts⟩ := Option.map_eq_some_iff.1 h
  obtain ⟨rfl, rfl⟩ := Prod.mk.inj hparts
  obtain ⟨a, b, rfl, rfl⟩ := Lexer.exists_of_indexOf? hn
  rw [List.take_left, ← List.drop_drop, List.drop_left, List.drop_left]

/-- A text of ASCII characters has as many bytes as characters. -/
theorem Text.byteLength_ascii {cs : List Char} (h : ∀ c ∈ cs, c.toNat < 128) :
    byteLength cs = cs.length := by
  induction cs with
  | nil => rfl
  | cons c cs ih =>
    obtain ⟨hc, hcs⟩ := List.forall_mem_cons.1 h
    have hsize : c.utf8Size = 1 :=
      Char.utf8Size_eq_one_iff.2 (UInt32.le_iff_toNat_le.2 (Nat.le_of_lt_succ hc))
    rw [byteLength, hsize, ih hcs, List.length_cons, Nat.add_comm]

/-- Whether the span of an error lies within a text, and between characters of it: the text can be cut
at both ends of the span. -/
def ParseError.Within (cs : List Char) (e : ParseError) : Prop :=
  ∃ before span behind, cs = before ++ (span ++ behind) ∧ e.offset = byteLength before ∧
    e.length = byteLength span

/-- An error about the front of a text. -/
theorem ParseError.within_front {cause : ParseCause} {n : Nat} {span cs : List Char} (h : span <+: cs)
    (hn : n = byteLength span) : Within cs ⟨cause, 0, n⟩ :=
  have ⟨behind, hbehind⟩ := h
  ⟨[], span, behind, hbehind.symm, rfl, hn⟩

/-- An error in a text is one in a text with another one ahead of it. -/
theorem ParseError.Within.shift {e : ParseError} {cs : List Char} (h : e.Within cs)
    (before : List Char) : (e.shift (byteLength before)).Within (before ++ cs) := by
  obtain ⟨between, span, behind, rfl, hoffset, hlength⟩ := h
  refine ⟨before ++ between, span, behind, (List.append_assoc ..).symm, ?_, hlength⟩
  rw [byteLength_append, ← hoffset]
  rfl

namespace Lexer

variable {α : Type} {c : Char} {cs : List Char}

/-! ## Errors of the lexer -/

/-- Whether an error, if there is one, is about a part of a text. -/
def Confined (cs : List Char) (r : Except ParseError α) : Prop := ∀ e, r = .error e → e.Within cs

namespace Confined

/-- Where nothing is wrong there is no error. -/
theorem ok (x : α) : Confined cs (.ok x) := nofun

/-- A fault is about the front of a text. -/
theorem fault {cause : ParseCause} {n : Nat} {span : List Char} (h : span <+: cs)
    (hn : n = byteLength span) : Confined cs (Lexer.fault cause n : Except ParseError α) := by
  intro e he
  obtain rfl := Except.error.inj he
  exact ParseError.within_front h hn

/-- An error in either case is about a part of a text. -/
theorem ite {p : Prop} [Decidable p] {r s : Except ParseError α} (hr : p → Confined cs r)
    (hs : Confined cs s) : Confined cs (if p then r else s) := by
  split
  · next hp => exact hr hp
  · exact hs

end Confined

/-- An error in a doc comment is about its first three characters. -/
theorem confined_scanDoc (h : ['*', '*'] <+: cs) : Confined ('/' :: cs) (scanDoc cs) := by
  have hspan : ['/', '*', '*'] <+: '/' :: cs := (List.prefix_cons_inj '/').2 h
  unfold scanDoc
  split
  · exact .ok _
  · exact .fault hspan rfl

/-- An error behind a close tag is about all text that follows. -/
theorem confined_scanCloseTag (h : cs.head? = some '>') : Confined ('?' :: cs) (scanCloseTag cs) := by
  obtain ⟨behind, rfl⟩ : ∃ behind, cs = '>' :: behind := List.head?_eq_some_iff.1 h
  refine .ite (fun _ => .ok _) ?_
  intro e he
  obtain rfl := Except.error.inj he
  exact ⟨['?', '>'], behind, [], by simp, rfl, rfl⟩

/-- An error in a heredoc is about the angle brackets that start it. -/
theorem confined_scanHeredoc (h : ['<', '<'] <+: cs) : Confined ('<' :: cs) (scanHeredoc cs) := by
  have hspan : ['<', '<', '<'] <+: '<' :: cs := (List.prefix_cons_inj '<').2 h
  unfold scanHeredoc
  split
  · exact .fault hspan rfl
  · refine .ite (fun _ => .fault hspan rfl) ?_
    split
    · exact .ok _
    · exact .fault hspan rfl

/-- An error in a string in single quotes is about the first quote. -/
theorem confined_scanSingleQuoted : Confined ('\'' :: cs) (scanSingleQuoted cs) := by
  have hspan : ['\''] <+: '\'' :: cs := ⟨cs, rfl⟩
  unfold scanSingleQuoted
  split
  · exact .ok _
  · exact .fault hspan rfl

/-- An error in a string in other quotes is about the first quote. -/
theorem confined_scanDoubleQuoted (hc : c = '"' ∨ c = '`') :
    Confined (c :: cs) (scanDoubleQuoted c cs) := by
  have hspan : [c] <+: c :: cs := ⟨cs, rfl⟩
  have hsize : 1 = byteLength [c] := by rcases hc with rfl | rfl <;> rfl
  unfold scanDoubleQuoted
  split
  · exact .ok _
  · exact .fault hspan hsize

/-- An error in an integer is about all of its characters, if these take up one byte each. -/
theorem confined_integerScan {base n : Nat} {digits span : List Char} (h : span <+: cs)
    (hspan : ∀ c ∈ span, c.toNat < 128) (hn : n + 1 = span.length) :
    Confined cs (integerScan base digits n) := by
  unfold integerScan
  split
  · exact .ok _
  · exact .fault h (hn.trans (byteLength_ascii hspan).symm)

/-- The digits of numerals, and the marks between them, are ASCII characters. -/
theorem toNat_lt_of_digit {d : Char} (h : (digitValue? d).isSome = true ∨ d = '_') : d.toNat < 128 := by
  rcases h with h | rfl
  · unfold digitValue? at h
    split at h
    · next hd =>
      have := (isDigit_iff.1 hd).2
      omega
    split at h
    · next hd =>
      have : d.toNat ≤ 102 := UInt32.le_iff_toNat_le.1 hd.2
      omega
    split at h
    · next hd =>
      have : d.toNat ≤ 70 := UInt32.le_iff_toNat_le.1 hd.2
      omega
    · cases h
  · decide

/-- What announces a base is an ASCII letter. -/
theorem toNat_lt_of_baseOf? {x : Char} {base : Nat} (h : baseOf? x = some base) : x.toNat < 128 := by
  unfold baseOf? at h
  repeat' split at h
  · next hx => rcases hx with rfl | rfl <;> decide
  · next hx => rcases hx with rfl | rfl <;> decide
  · next hx => rcases hx with rfl | rfl <;> decide
  · cases h

/-- An error in a numeral is about all of it. -/
theorem confined_scanNumber (hc : c.isDigit = true) : Confined (c :: cs) (scanNumber c cs) := by
  have hdigit {d : Char} (hd : d.isDigit = true) : d.toNat < 128 :=
    Nat.lt_of_le_of_lt (isDigit_iff.1 hd).2 (by decide)
  unfold scanNumber
  split
  · next base hbase =>
    split at hbase
    · obtain ⟨x, hx, hmark⟩ := Option.bind_eq_some_iff.1 hbase
      obtain ⟨rest, rfl⟩ := List.head?_eq_some_iff.1 hx
      have hfront : c :: x :: rest.takeWhile (fun d => isDigitOf base d || d == '_') <+: c :: x :: rest :=
        (List.prefix_cons_inj c).2 ((List.prefix_cons_inj x).2 (List.takeWhile_prefix _))
      refine confined_integerScan hfront (List.forall_mem_cons.2 ⟨hdigit hc,
        List.forall_mem_cons.2 ⟨toNat_lt_of_baseOf? hmark, fun d hd => toNat_lt_of_digit ?_⟩⟩) ?_
      · have hd := List.all_eq_true.1 List.all_takeWhile d hd
        rw [Bool.or_eq_true, beq_iff_eq, isDigitOf] at hd
        refine hd.imp (fun hd => ?_) id
        split at hd
        · next hvalue => rw [hvalue]; rfl
        · cases hd
      · simp only [List.drop_succ_cons, List.drop_zero, List.length_cons]
        omega
    · cases hbase
  · dsimp only
    refine .ite (fun hwhole => ?_) (.ok _)
    rw [Bool.and_eq_true, List.isEmpty_iff, List.isEmpty_iff] at hwhole
    rw [hwhole.1, hwhole.2]
    -- without a fraction and an exponent the numeral is its digits
    have hfront : c :: cs.takeWhile isDigitOrGap <+: c :: cs :=
      (List.prefix_cons_inj c).2 (List.takeWhile_prefix _)
    have hascii : ∀ d ∈ c :: cs.takeWhile isDigitOrGap, d.toNat < 128 := by
      refine List.forall_mem_cons.2 ⟨hdigit hc, fun d hd => ?_⟩
      have hd := List.all_eq_true.1 List.all_takeWhile d hd
      rw [isDigitOrGap, Bool.or_eq_true, beq_iff_eq] at hd
      rcases hd with hd | rfl
      · exact hdigit hd
      · decide
    exact .ite (fun _ => confined_integerScan hfront hascii rfl)
      (confined_integerScan hfront hascii rfl)

/-- An error in the first token of a text is about a part of the text. -/
theorem confined_scan (c : Char) (cs : List Char) : Confined (c :: cs) (scan c cs) := by
  unfold scan
  refine .ite (fun hp => ?_) (.ite (fun _ => .ok _) ?_)
  · rw [hp.1]
    exact confined_scanDoc (List.isPrefixOf_iff_prefix.1 hp.2)
  refine .ite (fun hp => ?_) (.ite (fun hp => ?_) ?_)
  · rw [hp.1]
    exact confined_scanCloseTag hp.2
  · rw [hp.1]
    exact confined_scanHeredoc (List.isPrefixOf_iff_prefix.1 hp.2)
  refine .ite (fun _ => .ok _) (.ite (fun _ => .ok _) (.ite (fun _ => .ok _) ?_))
  refine .ite (fun _ => .ok _) (.ite (fun _ => .ok _) (.ite confined_scanNumber ?_))
  refine .ite (fun hp => ?_) (.ite confined_scanDoubleQuoted (.ok _))
  rw [hp]
  exact confined_scanSingleQuoted

/-- An error in a comment is about its first two characters. -/
theorem confined_plainComment? (c : Char) (cs : List Char) :
    Confined (c :: cs) (plainComment? c cs) := by
  unfold plainComment?
  refine .ite (fun _ => .ok _) (.ite (fun _ => .ok _) (.ite (fun hp => ?_) (.ok _)))
  refine .ite (fun _ => .ok _) ?_
  split
  · exact .ok _
  · have hspan : ['/', '*'] <+: c :: cs := by
      obtain ⟨rest, rfl⟩ := List.head?_eq_some_iff.1 hp.2
      exact ⟨rest, by rw [hp.1]; rfl⟩
    exact .fault hspan rfl

/-- An error in the gap at the front of a text is about a part of the text. -/
theorem confined_gapLength (cs : List Char) : Confined cs (gapLength cs) := by
  intro e he
  have hsplit := List.takeWhile_append_dropWhile (p := isBlank) (l := cs)
  rw [gapLength] at he
  split at he
  · cases he
  · next c rest hdrop =>
    rw [hdrop] at hsplit
    have hshorter : rest.length < cs.length := by
      rw [← hsplit, List.length_append, List.length_cons]
      omega
    dsimp only at he
    split at he
    · next inner hinner =>
      obtain rfl := Except.error.inj he
      have hcomment := (confined_plainComment? c rest inner hinner).shift (cs.takeWhile isBlank)
      rwa [hsplit] at hcomment
    · cases he
    · next n hn =>
      split at he
      · next inner hinner =>
        obtain rfl := Except.error.inj he
        -- the rest of the gap stands behind the comment, and that behind the white space
        have hrest := (confined_gapLength (rest.drop n) inner hinner).shift (c :: rest.take n)
        rw [List.cons_append, List.take_append_drop] at hrest
        have hgap := hrest.shift (cs.takeWhile isBlank)
        rwa [hsplit] at hgap
      · cases he
termination_by cs.length
decreasing_by
  rw [List.length_drop]
  omega

/-- An error in the tokens of a text is about a part of it, or of a longer text that ends with it if the
bytes are counted from the front of that one. -/
theorem confined_tokens (before cs : List Char) :
    Confined (before ++ cs) (tokens (byteLength before) cs) := by
  intro e he
  rw [tokens] at he
  split at he
  · next inner hinner =>
    obtain rfl := Except.error.inj he
    exact (confined_gapLength cs inner hinner).shift before
  · next g hg =>
    dsimp only at he
    split at he
    · cases he
    · next c rest hdrop =>
      have hsplit : cs.take g ++ c :: rest = cs := hdrop ▸ List.take_append_drop g cs
      have hsource : before ++ cs = (before ++ cs.take g) ++ c :: rest := by
        rw [List.append_assoc, hsplit]
      rw [← byteLength_append] at he
      split at he
      · next inner hinner =>
        obtain rfl := Except.error.inj he
        exact hsource ▸ (confined_scan c rest inner hinner).shift _
      · next kind n hn =>
        rw [← byteLength_append] at he
        split at he
        · next inner hinner =>
          obtain rfl := Except.error.inj he
          -- the other tokens stand behind the gap and the text of the first one
          have hmore := confined_tokens _ (rest.drop n) inner hinner
          rw [List.append_assoc, List.cons_append, List.take_append_drop] at hmore
          exact hsource ▸ hmore
        · cases he
termination_by cs.length
decreasing_by
  have := congrArg List.length hsplit
  rw [List.length_append, List.length_cons] at this
  rw [List.length_drop]
  omega

/-- An error in the tokens of a fragment is about a part of the fragment. -/
theorem confined_fragment (source : String) : Confined source.toList (fragment source) :=
  confined_tokens [] source.toList

/-- An error in the tokens of a file is about a part of the file. -/
theorem confined_file (source : String) : Confined source.toList (file source) := by
  unfold file
  dsimp only
  split
  · next before code hsplit =>
    have hsource := append_of_splitOnce? hsplit
    refine .ite (fun _ e he => ?_) (.fault ⟨_, hsource.symm⟩ rfl)
    rw [← byteLength_append] at he
    cases hcode : tokens (byteLength (before ++ openTag)) code with
    | error inner =>
      rw [hcode] at he
      obtain rfl := Except.error.inj he
      rw [hsource, ← List.append_assoc]
      exact confined_tokens _ code inner hcode
    | ok more =>
      rw [hcode] at he
      cases he
  · exact .ite (fun _ => .ok _) (.fault List.nil_prefix rfl)

end Lexer

/-! ## Tokens of a source -/

namespace Token

/-- Tokens of which the last one, and no other one, is the end of the source. -/
def Ended (ts : List Token) : Prop := ∃ us e, ts = us ++ [e] ∧ e.kind = .eof ∧ ∀ t ∈ us, t.kind ≠ .eof

/-- Tokens that tile a source: they are all of it, one behind the other, up to its end. -/
structure Tile (source : List Char) (ts : List Token) : Prop where
  /-- The gaps and texts of the tokens put together are the source. -/
  spelled : spelled ts = source
  /-- Each token starts behind those ahead of it and its gap. -/
  start : ∀ ⦃us t vs⦄, ts = us ++ t :: vs → t.start = Text.byteLength (Token.spelled us ++ t.gap)
  /-- The last token is the end of the source. -/
  ended : Ended ts

end Token

namespace Lexer

variable {cs before : List Char} {us vs : List Token} {t : Token}

/-- A token starts behind what stands ahead of the text, the tokens before and its gap. -/
theorem start_of_tokens (h : tokens (byteLength before) cs = .ok (us ++ t :: vs)) :
    t.start = byteLength (before ++ (Token.spelled us ++ t.gap)) := by
  induction us generalizing before cs with
  | nil =>
    obtain ⟨g, -, ⟨-, hts⟩ | ⟨c, rest, kind, n, more, -, -, -, hts⟩⟩ := tokens_cases h
    all_goals
      obtain ⟨rfl, -⟩ := List.cons.inj hts
      exact (byteLength_append ..).symm
  | cons u us ih =>
    obtain ⟨g, -, ⟨-, hts⟩ | ⟨c, rest, kind, n, more, -, -, hm, hts⟩⟩ := tokens_cases h
    · exact absurd (congrArg List.length hts) (by simp)
    · obtain ⟨rfl, rfl⟩ := List.cons.inj hts
      rw [← byteLength_append, ← byteLength_append] at hm
      rw [ih hm, Token.spelled_cons]
      simp only [List.append_assoc, List.cons_append]

/-- The tokens of a fragment tile it. -/
theorem tile_fragment {source : String} {ts : List Token} (h : fragment source = .ok ts) :
    Token.Tile source.toList ts := by
  obtain ⟨us, e, hts, he, -, hus⟩ := tokens_last h
  refine ⟨spelled_tokens h, ?_, us, e, hts, he, hus⟩
  rintro us t vs rfl
  exact @start_of_tokens source.toList [] us vs t h

/-- The tokens of a file tile it. -/
theorem tile_file {source : String} {ts : List Token} (h : file source = .ok ts) :
    Token.Tile source.toList ts := by
  obtain ⟨before, code, more, hsplit, -, hm, rfl⟩ | ⟨-, rfl⟩ := file_cases h
  · obtain ⟨us, e, hts, he, -, hus⟩ := tokens_last hm
    rw [← byteLength_append] at hm
    refine ⟨?_, fun us' t vs hcons => ?_, ⟨.openTag, before, openTag, byteLength before⟩ :: us, e,
      congrArg _ hts, he, List.forall_mem_cons.2 ⟨nofun, hus⟩⟩
    · rw [append_of_splitOnce? hsplit, Token.spelled_cons, spelled_tokens hm]
    · cases us' with
      | nil =>
        obtain ⟨rfl, -⟩ := List.cons.inj hcons
        rfl
      | cons first us' =>
        obtain ⟨rfl, rfl⟩ := List.cons.inj hcons
        rw [start_of_tokens hm, Token.spelled_cons]
        simp only [List.append_assoc]
  · refine ⟨by simp [Token.spelled], fun us t vs hcons => ?_, [], _, rfl, rfl, List.forall_mem_nil _⟩
    obtain ⟨rfl, hcons⟩ | ⟨_, rfl, hcons⟩ := List.cons_eq_append_iff.1 hcons
    · obtain ⟨rfl, -⟩ := List.cons.inj hcons
      rfl
    · exact absurd hcons (by simp)

end Lexer

end PhpGraft

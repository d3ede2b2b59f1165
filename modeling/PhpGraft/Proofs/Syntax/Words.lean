import PhpGraft.Proofs.Decimal.Numeral
import PhpGraft.Proofs.Syntax.Lexing
import PhpGraft.Model.Name
import PhpGraft.Proofs.Text.Ascii
import PhpGraft.Proofs.Text.Search

/-!
# Words that are written

Each kind of word that is written is read as one token of its kind: names and variables, integers,
strings in single quotes and signs. Names, variables and integers have to be followed by a character
that does not continue them (`Breaks`); a string and most signs can be followed by anything.
-/

namespace PhpGraft.Lexer

open Decimal Text

variable {c : Char} {cs f : List Char}

/-- Only a number sign or a slash starts a plain comment. -/
theorem plainComment?_eq_none (h₁ : c ≠ '#') (h₂ : c ≠ '/') (f : List Char) :
    plainComment? c f = .ok none := by
  unfold plainComment?
  simp only [h₁, h₂, false_and, if_false]
  rfl

/-! ## Names and variables -/

/-- Whether a text is read as one name token. -/
def isNameText : List Char → Bool
  | [] => false
  | c :: cs => !isBlank c && startsName c cs && nameLength cs == cs.length

/-- A name ends where a character follows that does not continue it. -/
theorem nameLength_append (h : nameLength cs = cs.length) (hf : Breaks f) :
    nameLength (cs ++ f) = cs.length := by
  induction cs with
  | nil =>
    cases f with
    | nil => rfl
    | cons c f =>
      obtain ⟨h₁, h₂, -⟩ := hf c rfl
      simp [nameLength, h₁, h₂]
  | cons c cs ih =>
    rw [nameLength] at h
    split at h
    · next hc =>
      -- The last character of the name is no backslash, so what follows does not matter for it.
      have hhead : isIdentChar c || (c == '\\' && (cs ++ f).head?.any isIdentStart) := by
        cases cs with
        | nil => simpa using .inl (by simpa using hc)
        | cons d cs => exact hc
      rw [List.cons_append, nameLength, if_pos hhead, ih (by simpa using h)]
      rfl
    · simp at h

/-- What starts a name is no character that starts none. -/
theorem startsName_ne (h : startsName c cs = true) {d : Char}
    (hd : (isIdentStart d || d == '\\') = false) : c ≠ d := by
  rintro rfl
  obtain ⟨h₁, h₂⟩ := Bool.or_eq_false_iff.1 hd
  rw [startsName, h₁, h₂] at h
  simp at h

/-- What starts a name starts no other token. -/
theorem ne_of_startsName (h : startsName c cs = true) :
    c ≠ '/' ∧ c ≠ '#' ∧ c ≠ '?' ∧ c ≠ '<' ∧ c ≠ '=' ∧ c ≠ ':' ∧ c ≠ '.' ∧ c ≠ '$' :=
  ⟨startsName_ne h rfl, startsName_ne h rfl, startsName_ne h rfl, startsName_ne h rfl,
    startsName_ne h rfl, startsName_ne h rfl, startsName_ne h rfl, startsName_ne h rfl⟩

/-- What starts a name starts it ahead of every continuation. -/
theorem startsName_append (h : startsName c cs = true) (f : List Char) :
    startsName c (cs ++ f) = true := by
  cases cs with
  | nil => simpa [startsName] using .inl (by simpa [startsName] using h)
  | cons d cs => exact h

/-- A name is scanned as a whole. -/
theorem scan_name (h : startsName c cs = true) (hn : nameLength cs = cs.length) (hf : Breaks f) :
    scan c (cs ++ f) = .ok (.name, cs.length) := by
  obtain ⟨h₁, h₂, h₃, h₄, h₅, h₆, h₇, h₈⟩ := ne_of_startsName h
  have hstart := startsName_append h f
  unfold startsName at hstart
  unfold scan
  simp only [h₁, h₂, h₃, h₄, h₅, h₆, h₇, h₈, false_and, if_false, hstart, if_true,
    nameLength_append hn hf]
  rfl

/-- A variable is scanned as a whole. -/
theorem scan_var (hc : isIdentStart c = true) (hcs : cs.all isIdentChar = true) (hf : Breaks f) :
    scan '$' (c :: cs ++ f) = .ok (.var, (c :: cs).length) := by
  have hchar : isIdentChar c = true := isIdentChar_of_start hc
  have htake : (c :: cs ++ f).takeWhile isIdentChar = c :: cs := by
    rw [List.takeWhile_append_of_pos (by simpa [hchar] using hcs)]
    cases f with
    | nil => simp
    | cons d f =>
      obtain ⟨hd, -, -⟩ := hf d rfl
      simp [hd]
  have hhead : (c :: cs ++ f).head?.any isIdentStart = true := by simpa using hc
  unfold scan
  simp only [hhead, htake]
  rfl

/-- Identifiers joined by backslashes continue a name to their end. -/
theorem nameLength_of_splitOn {p : List Char} {ps : List (List Char)}
    (h : splitOn '\\' cs = p :: ps) (hp : p.all isAsciiIdentChar = true)
    (hps : ps.all isAsciiIdent = true) : nameLength cs = cs.length := by
  induction cs generalizing p ps with
  | nil => rfl
  | cons c cs ih =>
    rw [splitOn] at h
    split at h
    · next hc =>
      obtain ⟨rfl, rfl⟩ := List.cons.inj h
      -- Behind a backslash the next identifier starts.
      rcases hq : splitOn '\\' cs with _ | ⟨_ | ⟨d, q⟩, qs⟩
      · exact absurd hq (splitOn_ne_nil _ _)
      · simp [hq, isAsciiIdent] at hps
      · simp only [hq, List.all_cons, isAsciiIdent, Bool.and_eq_true] at hps
        obtain ⟨⟨hd, hq'⟩, hqs⟩ := hps
        have hhead := head?_of_splitOn hq
        have hstart := (isIdentStart_of_ascii hd).1
        have hchar := isAsciiIdentChar_of_start hd
        rw [nameLength, if_pos (by simp [hc, hhead, hstart]),
          ih hq (by rw [List.all_cons, hchar, hq', Bool.and_self]) hqs]
        rfl
    · split at h
      · next hnil => exact absurd hnil (splitOn_ne_nil _ _)
      · next piece pieces hq =>
        obtain ⟨rfl, rfl⟩ := List.cons.inj h
        rw [List.all_cons, Bool.and_eq_true] at hp
        rw [nameLength, if_pos (by rw [isIdentChar_of_ascii hp.1, Bool.true_or]), ih hq hp.2 hps]
        rfl

/-- A qualified name starts with an identifier and is continued to its end. -/
theorem exists_of_isQualified (h : Name.isQualified cs = true) :
    ∃ c rest, cs = c :: rest ∧ isAsciiIdentStart c = true ∧ nameLength cs = cs.length := by
  rw [Name.isQualified] at h
  rcases hq : splitOn '\\' cs with _ | ⟨_ | ⟨d, q⟩, qs⟩
  · exact absurd hq (splitOn_ne_nil _ _)
  · simp [hq, isAsciiIdent] at h
  · simp only [hq, List.all_cons, isAsciiIdent, Bool.and_eq_true] at h
    obtain ⟨⟨hd, hq'⟩, hqs⟩ := h
    have hhead := head?_of_splitOn hq
    cases cs with
    | nil => simp at hhead
    | cons c cs =>
      obtain rfl : c = d := by simpa using hhead
      refine ⟨c, cs, rfl, hd, nameLength_of_splitOn hq ?_ hqs⟩
      rw [List.all_cons, isAsciiIdentChar_of_start hd, hq', Bool.and_self]

/-- A qualified name is a name. -/
theorem isNameText_of_isQualified (h : Name.isQualified cs = true) : isNameText cs = true := by
  obtain ⟨c, rest, rfl, hc, hn⟩ := exists_of_isQualified h
  obtain ⟨hstart, hblank⟩ := isIdentStart_of_ascii hc
  rw [nameLength, if_pos (by rw [isIdentChar_of_start hstart, Bool.true_or])] at hn
  simpa [isNameText, startsName, hstart, hblank] using hn

/-- An identifier is a qualified name. -/
theorem isQualified_of_ident (h : isAsciiIdent cs = true) : Name.isQualified cs = true := by
  have hsplit (l : List Char) (hl : l.all isAsciiIdentChar = true) : splitOn '\\' l = [l] := by
    induction l with
    | nil => rfl
    | cons d l ih =>
      rw [List.all_cons, Bool.and_eq_true] at hl
      have hne : d ≠ '\\' := by
        rintro rfl
        exact absurd hl.1 (by decide)
      rw [splitOn, if_neg hne, ih hl.2]
  cases cs with
  | nil => simp [isAsciiIdent] at h
  | cons c cs =>
    have hall := h
    rw [isAsciiIdent, Bool.and_eq_true] at hall
    rw [Name.isQualified, hsplit _ (by
      rw [List.all_cons, isAsciiIdentChar_of_start hall.1, hall.2, Bool.and_self])]
    rw [List.all_cons, h, List.all_nil, Bool.and_self]

/-- A qualified name is made of the characters of ASCII identifiers, and backslashes. -/
theorem forall_of_isQualified (h : Name.isQualified cs = true) :
    ∀ c ∈ cs, isAsciiIdentChar c = true ∨ c = '\\' := by
  refine forall_of_splitOn fun piece hpiece c hc => ?_
  have hident := List.all_eq_true.1 h piece hpiece
  cases piece with
  | nil => cases hc
  | cons d piece =>
    rw [isAsciiIdent, Bool.and_eq_true] at hident
    rcases List.mem_cons.1 hc with rfl | hc
    · exact isAsciiIdentChar_of_start hident.1
    · exact List.all_eq_true.1 hident.2 c hc

/-- There are no blanks in a qualified name. -/
theorem blank_of_isQualified (h : Name.isQualified cs = true) : ∀ c ∈ cs, isBlank c = false := by
  intro c hc
  rcases forall_of_isQualified h c hc with hchar | rfl
  · rw [isAsciiIdentChar_iff] at hchar
    rw [Bool.eq_false_iff, ne_eq, isBlank_iff (by omega)]
    omega
  · decide

/-! ## Integers -/

/-- The kind of the token of a natural number in base ten: the number itself, or a double if it
takes more than 63 bits. -/
def numberKind (n : Nat) : TokenKind :=
  if n ≤ maxInt64 then .int n else .float (Binary64.ofNat n)

/-- A digit starts no other token. -/
theorem scan_digit (hc : c.isDigit = true) (f : List Char) : scan c f = scanNumber c f := by
  have hne {d : Char} (hd : d.isDigit = false) : c ≠ d := by
    rintro rfl
    simp [hc] at hd
  obtain ⟨-, hstart, -⟩ := of_isDigit hc
  unfold scan
  simp only [@hne '/' rfl, @hne '#' rfl, @hne '?' rfl, @hne '<' rfl, @hne '=' rfl, @hne ':' rfl,
    @hne '.' rfl, @hne '$' rfl, beq_false_of_ne (@hne '\\' rfl), false_and, if_false, hstart,
    Bool.false_and, Bool.or_self, Bool.false_eq_true, hc, if_true]

/-- What breaks a number continues it neither with digits nor with a fraction or an exponent. -/
theorem Breaks.number_ends (hf : Breaks f) :
    f.takeWhile isDigitOrGap = [] ∧ f.dropWhile isDigitOrGap = f ∧ fractionLength f = 0 ∧
      exponentLength f = 0 ∧ f.head?.bind baseOf? = none := by
  cases f with
  | nil => exact ⟨rfl, rfl, rfl, rfl, rfl⟩
  | cons c f =>
    obtain ⟨hc, -, hdot⟩ := hf c rfl
    have hne {d : Char} (hd : isIdentChar d = true) : c ≠ d := by
      rintro rfl
      simp [hc] at hd
    have hgap : isDigitOrGap c = false := by
      rw [isDigitOrGap, beq_false_of_ne (@hne '_' rfl), Bool.or_false]
      exact Bool.eq_false_iff.2 fun hd => by simp [(of_isDigit hd).1] at hc
    refine ⟨List.takeWhile_cons_of_neg (by simp [hgap]),
      List.dropWhile_cons_of_neg (by simp [hgap]), ?_, ?_, ?_⟩
    · unfold fractionLength
      split
      · next e => exact absurd (List.cons.inj e).1 hdot
      · rfl
    · unfold exponentLength
      dsimp only
      rw [if_neg (by simp [@hne 'e' rfl, @hne 'E' rfl])]
    · simp [baseOf?, @hne 'x' rfl, @hne 'X' rfl, @hne 'b' rfl, @hne 'B' rfl, @hne 'o' rfl,
        @hne 'O' rfl]

/-- A natural number is scanned as a whole. -/
theorem scan_ofNat {n : Nat} (hn : n < pow2 128) (h : ofNat n = c :: cs) (hf : Breaks f) :
    scan c (cs ++ f) = .ok (numberKind n, cs.length) := by
  have hdigit : ∀ d ∈ c :: cs, d.isDigit = true := fun d hd => isDigit_of_mem_ofNat (h ▸ hd)
  have hc : c.isDigit = true := hdigit c (List.mem_cons_self ..)
  have hzero : c = '0' → cs = [] := by
    rintro rfl
    obtain rfl := eq_zero_of_ofNat_eq h
    have : ofNat 0 = ['0'] := by rw [ofNat]; rfl
    exact (List.cons.inj (h.symm.trans this)).2
  have hgap : ∀ d ∈ cs, isDigitOrGap d = true := fun d hd => by
    rw [isDigitOrGap, hdigit d (List.mem_cons_of_mem _ hd), Bool.true_or]
  obtain ⟨htake, hdrop, hfraction, hexponent, hbase⟩ := Breaks.number_ends hf
  have hnobase : (if c = '0' then (cs ++ f).head?.bind baseOf? else none) = none := by
    split
    · next h0 => rw [hzero h0, List.nil_append, hbase]
    · rfl
  have hwhole : (cs ++ f).takeWhile isDigitOrGap = cs := by
    rw [List.takeWhile_append_of_pos hgap, htake, List.append_nil]
  have hbehind : (cs ++ f).dropWhile isDigitOrGap = f := by
    rw [List.dropWhile_append_of_pos hgap, hdrop]
  have hfilter {l : List Char} (hl : ∀ d ∈ l, d.isDigit = true) : l.filter (· != '_') = l := by
    refine List.filter_eq_self.2 fun d hd => ?_
    have := hl d hd
    refine bne_iff_ne.2 ?_
    rintro rfl
    exact absurd this (by decide)
  have hkind : integerKind? 10 (c :: cs) = some (numberKind n) := by
    rw [integerKind?, ← h, read?_ofNat, Option.bind_some, numberKind]
    split
    · rfl
    · rfl
  rw [scan_digit hc, scanNumber, hnobase]
  dsimp only
  rw [hwhole, hbehind, hfraction]
  simp only [List.take_zero, List.drop_zero, hexponent, List.isEmpty_nil, Bool.and_self, if_true]
  rw [hfilter fun d hd => hdigit d (List.mem_cons_of_mem _ hd), if_neg fun h0 => h0.2 (hzero h0.1)]
  rw [integerScan, hfilter hdigit, hkind]
  rfl

/-! ## Strings -/

/-- A character that is not escaped stands for itself. -/
theorem singleQuoted?_cons (h₁ : c ≠ '\\') (h₂ : c ≠ '\'') (cs : List Char) :
    singleQuoted? (c :: cs) = (singleQuoted? cs).map fun (value, n) => (c :: value, n + 1) := by
  cases cs with
  | nil =>
    unfold singleQuoted?
    split <;> simp_all [singleQuoted?]
  | cons d cs =>
    rw [singleQuoted?]
    · exact h₂
    · rintro _ rfl _
      exact h₁ rfl
    · rintro _ rfl _
      exact h₁ rfl

/-- A string in single quotes has the value that was escaped. -/
theorem singleQuoted?_escapeQuotes (cs f : List Char) :
    singleQuoted? (escapeQuotes cs ++ '\'' :: f) = some (cs, (escapeQuotes cs).length + 1) := by
  induction cs with
  | nil => rfl
  | cons c cs ih =>
    rw [escapeQuotes]
    split
    · next h =>
      rcases h with rfl | rfl
      · rw [List.cons_append, List.cons_append, singleQuoted?, ih]
        rfl
      · rw [List.cons_append, List.cons_append, singleQuoted?, ih]
        rfl
    · next h =>
      rw [not_or] at h
      rw [List.cons_append, singleQuoted?_cons h.1 h.2, ih]
      rfl

/-- A string in single quotes is scanned as a whole. -/
theorem scan_string (cs f : List Char) :
    scan '\'' (escapeQuotes cs ++ ['\''] ++ f) =
      .ok (.string (some (String.ofList cs)), (escapeQuotes cs ++ ['\'']).length) := by
  have hquoted := singleQuoted?_escapeQuotes cs f
  have hscan (l : List Char) : scan '\'' l = scanSingleQuoted l := by
    unfold scan
    simp [isIdentStart]
  rw [hscan, scanSingleQuoted, List.append_assoc, List.singleton_append, hquoted,
    List.length_append, List.length_singleton]
  rfl

/-! ## Signs -/

/-- Whether a character is always a token of its own. -/
def isSign (c : Char) : Bool :=
  c == '(' || c == ')' || c == '[' || c == ']' || c == '{' || c == '}' || c == ',' || c == ';' ||
    c == '&' || c == '-' || c == '|'

/-- A sign is scanned as a token of its own. -/
theorem scan_sign (h : isSign c = true) (f : List Char) : scan c f = .ok (.punct c, 0) := by
  simp only [isSign, Bool.or_eq_true, beq_iff_eq] at h
  rcases h with (((((((((rfl | rfl) | rfl) | rfl) | rfl) | rfl) | rfl) | rfl) | rfl) | rfl) | rfl <;>
    (unfold scan; simp [isIdentStart]; rfl)

end PhpGraft.Lexer

namespace PhpGraft.Lexes

open Decimal Lexer Text

variable {s t : String}

/-- A word that is written as a string. -/
theorem ofString {kind : TokenKind} {ok : List Char → Prop} {c : Char} {cs : List Char}
    (hs : s.toList = c :: cs) (hb : isBlank c = false)
    (hc : ∀ f, ok f → plainComment? c (cs ++ f) = .ok none)
    (hscan : ∀ f, ok f → scan c (cs ++ f) = .ok (kind, cs.length)) :
    Lexes s.toList [.word kind s] ok := by
  have := Lexes.word hb hc hscan
  rwa [← hs, String.ofList_toList] at this

/-- A name. -/
theorem name (h : isNameText s.toList = true) : Lexes s.toList [.name s] Breaks := by
  rcases hs : s.toList with _ | ⟨c, cs⟩
  · simp [hs, isNameText] at h
  · simp only [hs, isNameText, Bool.and_eq_true, Bool.not_eq_true', beq_iff_eq] at h
    obtain ⟨⟨hb, hstart⟩, hn⟩ := h
    obtain ⟨h₁, h₂, -⟩ := ne_of_startsName hstart
    rw [← hs]
    exact ofString hs hb (fun _ _ => plainComment?_eq_none h₂ h₁ _) fun _ hf =>
      scan_name hstart hn hf

/-- A keyword with white space behind it. -/
theorem keyword (h : isNameText s.toList = true) (ht : t.toList = s.toList ++ [' ']) :
    Lexes t.toList [.name s] Anything := by
  rw [ht]
  exact (name h).append_blank rfl rfl rfl

/-- A variable. -/
theorem var (h : s.toList.head?.any isIdentStart = true) (hs : s.toList.all isIdentChar = true) :
    Lexes ("$" ++ s).toList [.var s] Breaks := by
  rcases e : s.toList with _ | ⟨c, cs⟩
  · simp [e] at h
  · have htext : ("$" ++ s).toList = '$' :: (c :: cs) := by
      rw [String.toList_append, e]
      rfl
    rw [e] at h hs
    refine ofString htext rfl (fun _ _ => plainComment?_eq_none (by decide) (by decide) _) ?_
    exact fun f hf => scan_var (by simpa using h)
      (List.all_eq_true.2 fun d hd => List.all_eq_true.1 hs d (List.mem_cons_of_mem _ hd)) hf

/-- A natural number. -/
theorem natText {n : Nat} (hn : n < pow2 128) :
    Lexes (natText n).toList [.word (numberKind n) (Decimal.natText n)] Breaks := by
  rcases h : Decimal.ofNat n with _ | ⟨c, cs⟩
  · exact absurd h (ofNat_ne_nil n)
  · have hdigit : c.isDigit = true := isDigit_of_mem_ofNat (h ▸ List.mem_cons_self ..)
    have htext : (Decimal.natText n).toList = c :: cs := by
      rw [Decimal.natText, String.toList_ofList, h]
    have hne {d : Char} (hd : d.isDigit = false) : c ≠ d := by
      rintro rfl
      simp [hdigit] at hd
    exact ofString htext (of_isDigit hdigit).2.2
      (fun _ _ => plainComment?_eq_none (hne rfl) (hne rfl) _) fun _ hf => scan_ofNat hn h hf

/-- A string in single quotes. -/
theorem quoteString (s : String) :
    Lexes (quoteString s).toList [.word (.string (some s)) (PhpGraft.quoteString s)] Anything := by
  have htext : (PhpGraft.quoteString s).toList = '\'' :: (escapeQuotes s.toList ++ ['\'']) := by
    rw [PhpGraft.quoteString, String.toList_ofList]
  refine ofString htext rfl (fun _ _ => plainComment?_eq_none (by decide) (by decide) _) ?_
  intro f _
  have := scan_string s.toList f
  rwa [String.ofList_toList] at this

/-- A sign. -/
theorem sign {c : Char} (h : isSign c = true) : Lexes [c] [.sign c] Anything := by
  have hc : isBlank c = false ∧ c ≠ '#' ∧ c ≠ '/' := by
    simp only [isSign, Bool.or_eq_true, beq_iff_eq] at h
    rcases h with (((((((((rfl | rfl) | rfl) | rfl) | rfl) | rfl) | rfl) | rfl) | rfl) | rfl) |
      rfl <;> decide
  exact .word hc.1 (fun _ _ => plainComment?_eq_none hc.2.1 hc.2.2 _) fun f _ => scan_sign h f

/-- A continuation that starts with a blank or with what can start a name, a variable or a string.
-/
def Apart (f : List Char) : Prop := ∀ c ∈ f.head?, c ≠ '>' ∧ c ≠ ':'

/-- An equals sign. -/
theorem equals : Lexes ['='] [.sign '='] Apart := by
  refine .word rfl (fun _ _ => plainComment?_eq_none (by decide) (by decide) _) fun f hf => ?_
  cases f with
  | nil => rfl
  | cons c f =>
    obtain ⟨hc, -⟩ := hf c rfl
    unfold scan
    simp [isIdentStart, hc]
    rfl

/-- A colon. -/
theorem colon : Lexes [':'] [.sign ':'] Apart := by
  refine .word rfl (fun _ _ => plainComment?_eq_none (by decide) (by decide) _) fun f hf => ?_
  cases f with
  | nil => rfl
  | cons c f =>
    obtain ⟨-, hc⟩ := hf c rfl
    unfold scan
    simp [isIdentStart, hc]
    rfl

/-- A question mark. -/
theorem question : Lexes ['?'] [.sign '?'] Apart := by
  refine .word rfl (fun _ _ => plainComment?_eq_none (by decide) (by decide) _) fun f hf => ?_
  cases f with
  | nil => rfl
  | cons c f =>
    obtain ⟨hc, -⟩ := hf c rfl
    unfold scan
    simp [isIdentStart, hc]
    rfl

/-- An arrow between a key and a value. -/
theorem arrow : Lexes "=>".toList [.word .doubleArrow "=>"] Anything :=
  ofString rfl rfl (fun _ _ => plainComment?_eq_none (by decide) (by decide) _) fun f _ => by
    unfold scan
    simp
    rfl

/-- A double colon. -/
theorem doubleColon : Lexes "::".toList [.word .doubleColon "::"] Anything :=
  ofString rfl rfl (fun _ _ => plainComment?_eq_none (by decide) (by decide) _) fun f _ => by
    unfold scan
    simp
    rfl

/-- Three dots. -/
theorem ellipsis : Lexes "...".toList [.word .ellipsis "..."] Anything :=
  ofString rfl rfl (fun _ _ => plainComment?_eq_none (by decide) (by decide) _) fun f _ => by
    unfold scan
    simp
    rfl

end PhpGraft.Lexes

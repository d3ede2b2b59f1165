import PhpGraft.Proofs.Decimal.Written
import PhpGraft.Proofs.Syntax.Rereading

/-!
# Numerals read back

A number that the lexer finds is written and read again. What is written of a double is scanned as the
double without its sign (`scanNumber_written`), so that a finite double is read back from its text
(`Expr.ofText?_float`), and so is an integer. Infinity is no numeral: its text is read as a name
(`Expr.ofText?_numeral_iff`).
-/

namespace PhpGraft

open Decimal Lexer Text

/-! ## Scanning digits with a point or an exponent -/

namespace Lexer

variable {f : List Char}

/-- Digits are no bases. -/
theorem baseOf?_digit {c : Char} (h : c.isDigit = true) : baseOf? c = none := by
  have hne {d : Char} (hd : d.isDigit = false) : c ≠ d := by
    rintro rfl
    simp [h] at hd
  simp [baseOf?, @hne 'x' rfl, @hne 'X' rfl, @hne 'b' rfl, @hne 'B' rfl, @hne 'o' rfl, @hne 'O' rfl]

/-- Digits are taken up to something that does not continue them. -/
theorem takeWhile_digits {ds : List Char} (hds : ∀ d ∈ ds, d.isDigit = true)
    (hf : f.takeWhile isDigitOrGap = []) : (ds ++ f).takeWhile isDigitOrGap = ds := by
  rw [List.takeWhile_append_of_pos fun d hd => by simp [isDigitOrGap, hds d hd], hf, List.append_nil]

/-- An exponent is as long as it is written. -/
theorem exponentLength_marked {ds : List Char} (hds : ∀ d ∈ ds, d.isDigit = true) (hf : Breaks f) :
    exponentLength (marked 'e' ds ++ f) = (marked 'e' ds).length := by
  obtain ⟨htake, -, -, hexponent, -⟩ := Breaks.number_ends hf
  cases ds with
  | nil => exact hexponent
  | cons d ds =>
    have hd : d.isDigit = true := hds d (List.mem_cons_self ..)
    have hsign : ¬((d = '+' ∨ d = '-') ∧ (ds ++ f).head?.any Char.isDigit = true) := by
      rintro ⟨rfl | rfl, -⟩ <;> simp at hd
    have hdigits := takeWhile_digits hds htake
    rw [List.cons_append] at hdigits
    simp only [marked, List.isEmpty_cons, Bool.false_eq_true, if_false, List.cons_append, exponentLength,
      true_or, if_true, hsign, hd, hdigits, List.length_cons]
    omega

/-- A fraction is as long as it is written. -/
theorem fractionLength_marked {ds g : List Char} (hds : ∀ d ∈ ds, d.isDigit = true)
    (hg : g.takeWhile isDigitOrGap = []) (hdot : fractionLength g = 0) :
    fractionLength (marked '.' ds ++ g) = (marked '.' ds).length := by
  cases ds with
  | nil => exact hdot
  | cons d ds =>
    have hd : d.isDigit = true := hds d (List.mem_cons_self ..)
    have hdigits := takeWhile_digits hds hg
    rw [List.cons_append] at hdigits
    simp only [marked, List.isEmpty_cons, Bool.false_eq_true, if_false, List.cons_append, fractionLength,
      List.head?_cons, Option.any_some, hd, if_true, hdigits, List.length_cons]
    omega

/-- A mark ends the digits ahead of it, and so does what breaks a numeral. -/
theorem takeWhile_marked {mark : Char} {ds g : List Char} (hmark : isDigitOrGap mark = false)
    (hg : g.takeWhile isDigitOrGap = []) : (marked mark ds ++ g).takeWhile isDigitOrGap = [] := by
  cases ds with
  | nil => exact hg
  | cons d ds => exact List.takeWhile_cons_of_neg (by simp [hmark])

/-- The digits behind a mark. -/
theorem filter_marked {mark : Char} {ds : List Char} (hmark : mark.isDigit = false)
    (hds : ∀ d ∈ ds, d.isDigit = true) : (marked mark ds).filter Char.isDigit = ds := by
  cases ds with
  | nil => rfl
  | cons d ds => exact (List.filter_cons_of_neg (by simp [hmark])).trans (List.filter_eq_self.2 hds)

/-- A written decimal denotes the double of it. -/
theorem floatValue_written (w : Written) :
    floatValue (w.first :: w.whole) (marked '.' w.fraction) (marked 'e' w.exponent) =
      Binary64.ofDecimal false w.coefficient w.scale := by
  have hdigits := w.digits
  simp only [List.forall_mem_cons, List.forall_mem_append] at hdigits
  obtain ⟨hfirst, hwhole, hfraction, hexponent⟩ := hdigits
  have hall : (w.first :: w.whole).filter Char.isDigit = w.first :: w.whole :=
    List.filter_eq_self.2 (List.forall_mem_cons.2 ⟨hfirst, hwhole⟩)
  have hplus : (marked 'e' w.exponent).contains '-' = false := by
    rw [List.contains_eq_mem, decide_eq_false_iff_not, marked]
    split
    · exact List.not_mem_nil
    · exact List.not_mem_cons_of_ne_of_not_mem (by decide) fun h => absurd (hexponent _ h) (by decide)
  rw [floatValue, hplus]
  dsimp only
  rw [hall, filter_marked rfl hfraction, filter_marked rfl hexponent]
  rfl

/-- What ends a written decimal ends its exponent, and the exponent ends its fraction. -/
theorem ends_of_breaks (w : Written) (hf : Breaks f) :
    (marked 'e' w.exponent ++ f).takeWhile isDigitOrGap = [] ∧
      fractionLength (marked 'e' w.exponent ++ f) = 0 ∧
      (marked '.' w.fraction ++ (marked 'e' w.exponent ++ f)).takeWhile isDigitOrGap = [] := by
  obtain ⟨htake, -, hdot, -, -⟩ := Breaks.number_ends hf
  have hexponent : (marked 'e' w.exponent ++ f).takeWhile isDigitOrGap = [] := takeWhile_marked rfl htake
  refine ⟨hexponent, ?_, takeWhile_marked rfl hexponent⟩
  unfold marked
  split
  · exact hdot
  · rfl

/-- The first digit of a written decimal announces no base. -/
theorem baseOf?_written (w : Written) (hf : Breaks f) : (w.rest ++ f).head?.bind baseOf? = none := by
  have hdigits := w.digits
  obtain ⟨-, -, -, -, hbase⟩ := Breaks.number_ends hf
  rw [Written.rest]
  cases hw : w.whole with
  | cons d ds => exact baseOf?_digit (hdigits d (by simp [hw]))
  | nil =>
    unfold marked
    split
    · split
      · exact hbase
      · rfl
    · rfl

/-- A written decimal is scanned as the double of it. -/
theorem scanNumber_written (w : Written) (hf : Breaks f) : scanNumber w.first (w.rest ++ f) =
    .ok (.float (Binary64.ofDecimal false w.coefficient w.scale), w.rest.length) := by
  have hdigits := w.digits
  simp only [List.forall_mem_cons, List.forall_mem_append] at hdigits
  obtain ⟨-, hwhole, hfraction, hexponent⟩ := hdigits
  obtain ⟨hends, hdot, hbehind⟩ := ends_of_breaks w hf
  -- the numeral is cut where its parts were put together
  have hrest : w.rest ++ f = w.whole ++ (marked '.' w.fraction ++ (marked 'e' w.exponent ++ f)) := by
    rw [Written.rest, List.append_assoc, List.append_assoc]
  have htake : (w.rest ++ f).takeWhile isDigitOrGap = w.whole := by
    rw [hrest]
    exact takeWhile_digits hwhole hbehind
  have hdrop : (w.rest ++ f).dropWhile isDigitOrGap =
      marked '.' w.fraction ++ (marked 'e' w.exponent ++ f) := by
    have hsplit := List.takeWhile_append_dropWhile (p := isDigitOrGap) (l := w.rest ++ f)
    rw [htake, hrest] at hsplit
    rw [hrest]
    exact List.append_cancel_left hsplit
  have hlength : w.whole.length + (marked '.' w.fraction).length + (marked 'e' w.exponent).length =
      w.rest.length := by
    rw [Written.rest, List.length_append, List.length_append, Nat.add_assoc]
  have hproper : (w.fraction.isEmpty && w.exponent.isEmpty) = false := by
    rcases w.proper with h | h <;> simp [h]
  rw [scanNumber, baseOf?_written w hf, ite_self]
  dsimp only
  rw [hdrop, htake, fractionLength_marked hfraction hends hdot, List.take_left, List.drop_left,
    exponentLength_marked hexponent hf, List.take_left, isEmpty_marked, isEmpty_marked, hproper,
    floatValue_written, hlength]
  rfl

end Lexer

/-- A written decimal is one word. -/
theorem Lexes.written (w : Written) : Lexes (w.first :: w.rest)
    [.word (.float (Binary64.ofDecimal false w.coefficient w.scale)) (String.ofList (w.first :: w.rest))]
    Breaks := by
  have hfirst : w.first.isDigit = true := w.digits _ (List.mem_cons_self ..)
  have hne {d : Char} (hd : d.isDigit = false) : w.first ≠ d := by
    rintro h
    simp [h, hd] at hfirst
  refine .word (of_isDigit hfirst).2.2 (fun f _ => plainComment?_eq_none (hne rfl) (hne rfl) _) fun f hf => ?_
  rw [scan_digit hfirst]
  exact scanNumber_written w hf

/-! ## Numbers as literals -/

/-- The number that a token is, or that it is behind a minus sign. -/
def numberOf? (negative : Bool) : TokenKind → Option Expr
  | .int n => some (.int (if negative then -n else n))
  | .float x => some (.float (if negative then x.neg else x))
  | _ => none

/-- Tokens that are a number, or a minus sign and a number. -/
inductive IsNumeral : Bool → TokenKind → List Token → Prop where
  | plain {t : Token} : IsNumeral false t.kind [t]
  | minus {sign t : Token} (h : sign.kind = .punct '-') : IsNumeral true t.kind [sign, t]

/-- A numeral is read as the number that it is. -/
theorem Reader.literal_numeral {negative : Bool} {kind : TokenKind} {ts rest : List Token} {e : Expr}
    (hts : IsNumeral negative kind ts) (he : numberOf? negative kind = some e) :
    Gives (literal (ts ++ rest)) e rest := by
  have hsingle : rest.length < rest.length + 1 := Nat.lt_succ_self _
  cases hts with
  | @plain t =>
    obtain ⟨kind, gap, text, start⟩ := t
    rw [List.singleton_append]
    refine ⟨hsingle, ?_⟩
    unfold literal
    cases kind <;> first
      | (obtain rfl := Option.some.inj he; rfl)
      | exact absurd he nofun
  | @minus sign t h =>
    obtain ⟨_, gap, text, start⟩ := sign
    obtain ⟨kind, gap', text', start'⟩ := t
    obtain rfl := h
    rw [List.cons_append, List.singleton_append]
    refine ⟨Nat.lt_succ_of_lt hsingle, ?_⟩
    unfold literal
    cases kind <;> first
      | (obtain rfl := Option.some.inj he; rfl)
      | exact absurd he nofun

/-- A finite double is read back from its text. -/
theorem Expr.ofText?_float {x : Binary64} (hx : x.isFinite = true) :
    Expr.ofText? (Expr.float x).text = some (.float x) := by
  obtain ⟨w, hw, hdouble⟩ := @Binary64.exists_written x hx floatLayout rfl rfl (by decide)
  have hlexes := Lexes.written w
  have hself := x.ofMagnitude_eq_self
  rw [hdouble] at hlexes
  rw [Expr.text, hw]
  cases hsign : x.isNegative with
  | false =>
    rw [hsign] at hself
    rw [hself] at hlexes
    have hplain : Lexes ("" ++ String.ofList (w.first :: w.rest)).toList
        [.word (.float x) (String.ofList (w.first :: w.rest))] Breaks := by simpa using hlexes
    refine Expr.ofText?_of_lexes hplain fun us hus => ?_
    obtain ⟨gap, start, us, rfl, -, hus⟩ := hus.exists_word
    obtain rfl := hus.eq_nil
    exact Reader.literal?_of_gives (Reader.literal_numeral .plain rfl)
  | true =>
    -- the sign is a token by itself, and the numeral behind it is the double without its sign
    have hneg : (Binary64.ofMagnitude false x.magnitudeBits).neg = x := by
      rw [Binary64.neg, Binary64.isNegative_ofMagnitude _ x.magnitudeBits_lt,
        Binary64.magnitudeBits_ofMagnitude _ x.magnitudeBits_lt, Bool.not_false, ← hsign, hself]
    have hminus := (Lexes.sign (c := '-') rfl).append_of_anything hlexes
    refine Expr.ofText?_of_lexes (by simpa using hminus) fun us hus => ?_
    obtain ⟨gap, start, us, rfl, -, hus⟩ := hus.exists_word
    obtain ⟨gap', start', us, rfl, -, hus⟩ := hus.exists_word
    obtain rfl := hus.eq_nil
    exact Reader.literal?_of_gives (Reader.literal_numeral (.minus rfl) (by rw [numberOf?, if_pos rfl, hneg]))

/-! ## The range of numbers -/

namespace Lexer

variable {c : Char} {cs : List Char}

/-- Whether a number is one that a token can be: an integer of at most 63 bits, or a double that is a
number. -/
def InRange : TokenKind → Prop
  | .int n => n ≤ maxInt64
  | .float x => x.isNaN = false
  | _ => True

/-- The numbers that are scanned are in range. -/
theorem inRange_scan (c : Char) (cs : List Char) : Finds InRange (scan c cs) := by
  have hnumber : Finds InRange (scanNumber c cs) :=
    .scanNumber (fun _ hle => hle) (fun _ => Binary64.isNaN_ofRatio ..)
      fun _ _ _ => Binary64.isNaN_ofDecimal ..
  have hclose : Finds InRange (scanCloseTag cs) := .ite (.ok trivial) fun _ _ => nofun
  unfold Lexer.scan
  refine .ite (.scanDoc trivial) (.ite (.ok trivial) (.ite hclose ?_))
  refine .ite (.scanHeredoc trivial) (.ite (.ok trivial) (.ite (.ok trivial) (.ite (.ok trivial) ?_)))
  refine .ite (.ok trivial) (.ite (.ok trivial) (.ite hnumber ?_))
  exact .ite (.scanSingleQuoted fun _ => trivial) (.ite (.scanDoubleQuoted fun _ => trivial) (.ok trivial))

/-- The tokens of a source are in range. -/
theorem inRange_tokens {start : ℕ} {ts : List Token} (h : tokens start cs = .ok ts) :
    ∀ t ∈ ts, InRange t.kind := by
  induction ts generalizing start cs with
  | nil => exact List.forall_mem_nil _
  | cons t ts ih =>
    obtain ⟨g, -, ⟨-, hts⟩ | ⟨c, rest, kind, n, more, -, hs, hm, hts⟩⟩ := tokens_cases h
    · rw [hts]
      exact List.forall_mem_singleton.2 trivial
    · obtain ⟨rfl, rfl⟩ := List.cons.inj hts
      exact List.forall_mem_cons.2 ⟨inRange_scan c rest _ _ hs, ih hm⟩

end Lexer

/-! ## Numbers read again -/

/-- Whether an expression is a number. -/
def Expr.isNumber : Expr → Bool
  | .int _ | .float _ => true
  | _ => false

/-- Whether an expression is an infinity of either sign. -/
def Expr.isInfinite : Expr → Bool
  | .float x => x.isInfinite
  | _ => false

/-- Whether an expression is a number that a numeral can be: an integer other than the least one, or a
double that is a number. -/
def Expr.InRange : Expr → Prop
  | .int n => minInt64 < n ∧ n ≤ maxInt64
  | .float x => x.isNaN = false
  | _ => False

/-- The number that a token in range is, behind a minus sign or not, is in range. -/
theorem inRange_of_numberOf? {negative : Bool} {kind : TokenKind} {e : Expr} (hkind : Lexer.InRange kind)
    (he : numberOf? negative kind = some e) : e.InRange := by
  cases kind with
  | int n =>
    obtain rfl := Option.some.inj he
    have hle : (n : ℤ) ≤ maxInt64 := Int.ofNat_le.2 hkind
    have hpos : (0 : ℤ) < maxInt64 := by decide
    unfold Expr.InRange minInt64
    dsimp only
    split <;> omega
  | float x =>
    obtain rfl := Option.some.inj he
    have hnumber : x.isNaN = false := hkind
    cases negative with
    | false => exact hnumber
    | true =>
      unfold Expr.InRange
      dsimp only
      rw [if_pos rfl, Binary64.isNaN, Binary64.neg, Binary64.magnitudeBits_ofMagnitude _ x.magnitudeBits_lt]
      exact hnumber
  | _ => cases he

namespace Expr

/-- A number in range is equal to itself. -/
theorem InRange.same_self {e : Expr} (he : e.InRange) : e.isNumber = true ∧ e.same e = true := by
  cases e with
  | int n => exact ⟨rfl, by simp [Expr.same]⟩
  | float x =>
    have hnumber : x.isNaN = false := he
    exact ⟨rfl, by simp [Expr.same, Binary64.same, hnumber]⟩
  | _ => exact he.elim

/-- A number in range that is not infinite is read back from its text. -/
theorem InRange.ofText?_text_self {e : Expr} (he : e.InRange) (hfinite : e.isInfinite = false) :
    Expr.ofText? e.text = some e := by
  cases e with
  | int n =>
    obtain ⟨hmin, hmax⟩ : minInt64 < n ∧ n ≤ maxInt64 := he
    have hplain : (Expr.int n).isPlain = true := by
      rw [Expr.isPlain, Bool.and_eq_true, decide_eq_true_eq, decide_eq_true_eq]
      exact ⟨hmin.le, hmax⟩
    have hleast : (Expr.int n).holdsLeast = false := by
      rw [Expr.holdsLeast, beq_eq_false_iff_ne]
      omega
    rw [Expr.ofText?_plain hplain, Expr.reread_eq_self_iff.2 hleast]
  | float x =>
    have hnumber : x.isNaN = false := he
    have hne : x.isInfinite = false := hfinite
    refine Expr.ofText?_float ?_
    rw [Binary64.isNaN, decide_eq_false_iff_not] at hnumber
    rw [Binary64.isInfinite, beq_eq_false_iff_ne] at hne
    rw [Binary64.isFinite, decide_eq_true_eq]
    omega
  | _ => exact he.elim

/-- An infinite double is not read back as a number: its text is a name, behind a minus sign or not. -/
theorem InRange.ofText?_infinite {e e' : Expr} (he : e.InRange) (hinfinite : e.isInfinite = true)
    (h : Expr.ofText? e.text = some e') : e'.isNumber = false := by
  cases e with
  | float x =>
    have hnumber : x.isNaN = false := he
    have hinf : x.isInfinite = true := hinfinite
    have htext : (Expr.float x).text = if x.isNegative then "-inf" else "inf" := by
      rw [Expr.text, Layout.render, hnumber, hinf]
      cases x.isNegative <;> rfl
    rw [htext] at h
    cases hsign : x.isNegative with
    | false =>
      have hconst : Expr.ofText? "inf" = some (.const "inf") :=
        Expr.ofText?_plain (e := .const "inf") (by decide)
      rw [hsign, if_neg Bool.false_ne_true, hconst] at h
      obtain rfl := Option.some.inj h
      rfl
    | true =>
      have hminus : Lexes "-inf".toList [.sign '-', .name "inf"] Breaks :=
        (Lexes.sign (c := '-') rfl).append_of_anything (Lexes.name (s := "inf") rfl)
      -- a minus sign is read only ahead of a number
      have hnone : Expr.ofText? "-inf" = none := Expr.ofText?_of_lexes hminus fun us hus => by
        obtain ⟨gap, start, us, rfl, -, hus⟩ := hus.exists_word
        obtain ⟨gap', start', us, rfl, -, hus⟩ := hus.exists_word
        unfold Reader.literal? Reader.literal
        rfl
      rw [hsign, if_pos rfl, hnone] at h
      cases h
  | int n => cases hinfinite
  | _ => exact he.elim

/-- A text that is a numeral, behind a minus sign or not, is read as a number. Written and read again it
is an equal number if it is not infinite, and only then; and then it is the same expression. -/
theorem ofText?_numeral_iff {source : String} {negative : Bool} {kind : TokenKind} {ts : List Token}
    {last : Token} (htokens : fragment source = .ok (ts ++ [last])) (hts : IsNumeral negative kind ts)
    (hkind : (numberOf? negative kind).isSome = true) :
    ∃ e, Expr.ofText? source = some e ∧ e.isNumber = true ∧
      ((∃ e', Expr.ofText? e.text = some e' ∧ e'.isNumber = true ∧ e'.same e = true) ↔
        e.isInfinite = false) ∧
      (e.isInfinite = false → Expr.ofText? e.text = some e) := by
  obtain ⟨e, he⟩ := Option.isSome_iff_exists.1 hkind
  have hin : Lexer.InRange kind := by
    have hall := inRange_tokens htokens
    cases hts with
    | plain => exact hall _ (by simp)
    | minus _ => exact hall _ (by simp)
  have hrange := inRange_of_numberOf? hin he
  obtain ⟨hnumber, hsame⟩ := hrange.same_self
  have hread : Expr.ofText? source = some e := by
    rw [Expr.ofText?_of_fragment htokens]
    exact Reader.literal?_of_gives (Reader.literal_numeral hts he)
  refine ⟨e, hread, hnumber, ⟨?_, fun h => ⟨e, hrange.ofText?_text_self h, hnumber, hsame⟩⟩,
    hrange.ofText?_text_self⟩
  rintro ⟨e', he', hnumber', -⟩
  cases hinfinite : e.isInfinite with
  | false => rfl
  | true =>
    rw [hrange.ofText?_infinite hinfinite he'] at hnumber'
    exact absurd hnumber' nofun

/-- A negative double with marks between its digits and an exponent with a sign is read back. -/
theorem ofText?_numeral_exponent : ∃ ts last kind,
    fragment "-1_5.0E+21" = .ok (ts ++ [last]) ∧ IsNumeral true kind ts ∧
      (numberOf? true kind).isSome = true ∧
      ∃ e, Expr.ofText? "-1_5.0E+21" = some e ∧ e.isNumber = true ∧ Expr.ofText? e.text = some e := by
  have htokens : fragment "-1_5.0E+21" = .ok ([⟨.punct '-', [], ['-'], 0⟩,
      ⟨.float ⟨0x448969368974c05b⟩, [], "1_5.0E+21".toList, 1⟩] ++ [⟨.eof, [], [], 10⟩]) := by decide +kernel
  have hts : IsNumeral true (.float ⟨0x448969368974c05b⟩) [⟨.punct '-', [], ['-'], 0⟩,
      ⟨.float ⟨0x448969368974c05b⟩, [], "1_5.0E+21".toList, 1⟩] :=
    .minus (t := ⟨.float ⟨0x448969368974c05b⟩, [], "1_5.0E+21".toList, 1⟩) rfl
  have hread : Expr.ofText? "-1_5.0E+21" = some (.float (Binary64.neg ⟨0x448969368974c05b⟩)) := by
    rw [Expr.ofText?_of_fragment htokens]
    exact Reader.literal?_of_gives (Reader.literal_numeral hts rfl)
  obtain ⟨e, he, hnumber, -, hself⟩ := ofText?_numeral_iff htokens hts rfl
  obtain rfl := Option.some.inj (hread.symm.trans he)
  exact ⟨_, _, _, htokens, hts, rfl, _, he, hnumber, hself (by decide +kernel)⟩

/-- A decimal too large for a double is read as infinity, and that is written as a name. -/
theorem ofText?_numeral_too_large : ∃ t last e,
    fragment "1e999" = .ok ([t] ++ [last]) ∧ (numberOf? false t.kind).isSome = true ∧
      Expr.ofText? "1e999" = some e ∧ e.isNumber = true ∧ e.text = "inf" ∧
      Expr.ofText? e.text = some (.const "inf") := by
  have htokens : fragment "1e999" = .ok ([⟨.float ⟨0x7ff0000000000000⟩, [], "1e999".toList, 0⟩] ++
      [⟨.eof, [], [], 5⟩]) := by decide +kernel
  have hread : Expr.ofText? "1e999" = some (.float ⟨0x7ff0000000000000⟩) := by
    rw [Expr.ofText?_of_fragment htokens]
    exact Reader.literal?_of_gives (Reader.literal_numeral .plain rfl)
  have htext : (Expr.float ⟨0x7ff0000000000000⟩).text = "inf" := by
    rw [Expr.text]
    decide +kernel
  refine ⟨_, _, _, htokens, rfl, hread, rfl, htext, ?_⟩
  rw [htext]
  exact Expr.ofText?_plain (e := .const "inf") (by decide)

end Expr

end PhpGraft

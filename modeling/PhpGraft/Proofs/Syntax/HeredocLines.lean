import PhpGraft.Proofs.Syntax.Dedenting
import PhpGraft.Proofs.Syntax.Tokens

/-!
# Lines of heredocs

Which lines of a fragment belong to the text of a heredoc is found twice: by reading the tokens, and
from the lines alone, where all there is to go by is what follows the last three angle brackets of a
line. From the lines each heredoc is found with its text and nothing else is, if its label is an ASCII
identifier that no earlier line of its text starts with, no heredoc opens on a line of another one, and no
other line of code looks as if it opened one (`rawFlags_iff_heredocs`). A heredoc that opens where another
one closes is missed (`heredoc_missed_behind_another`).
-/

namespace PhpGraft

open Lexer Text

/-! ## Heredocs among tokens -/

/-- A heredoc or nowdoc of a text; the lines are counted from zero. -/
structure Heredoc where
  /-- The label that its text ends with. -/
  label : List Char
  /-- The line that it opens on. -/
  opening : Nat
  /-- The line that closes it. -/
  closing : Nat
  deriving DecidableEq, Repr

/-- Whether a token is a heredoc or nowdoc. -/
def Token.isHeredoc (t : Token) : Bool := ['<', '<', '<'].isPrefixOf t.text

/-- The label of a heredoc: what its first line goes on with, without quotation marks. -/
def Token.heredocLabel (t : Token) : List Char :=
  trimWhile isLabelQuote (trim ((t.text.drop 3).takeWhile (· != '\n')))

/-- The label of a heredoc is read off its first line. -/
theorem Token.heredocLabel_eq {t : Token} {header body : List Char} (hheader : '\n' ∉ header)
    (h : t.text = '<' :: '<' :: '<' :: (header ++ '\n' :: body)) :
    t.heredocLabel = trimWhile isLabelQuote (trim header) := by
  have hline : (header ++ '\n' :: body).takeWhile (· != '\n') = header := by
    rw [List.takeWhile_append_of_pos, List.takeWhile_cons_of_neg (by simp), List.append_nil]
    exact fun c hc => bne_iff_ne.2 fun he => hheader (he ▸ hc)
  rw [Token.heredocLabel, h]
  exact congrArg (fun l => trimWhile isLabelQuote (trim l)) hline

/-- The heredocs among tokens, of which the gap of the first one starts on the given line. -/
def heredocs (line : Nat) : List Token → List Heredoc
  | [] => []
  | t :: ts =>
    let opening := line + newlineCount t.gap
    let closing := opening + newlineCount t.text
    if t.isHeredoc then ⟨t.heredocLabel, opening, closing⟩ :: heredocs closing ts
    else heredocs closing ts

/-- A line of the text of a heredoc: one behind the line that the heredoc opens on, up to the line that
closes it. -/
def InHeredoc (ds : List Heredoc) (i : Nat) : Prop := ∃ d ∈ ds, d.opening < i ∧ i ≤ d.closing

/-- A heredoc opens on the line on which the tokens start, or behind it. -/
theorem le_opening_of_heredocs {line : Nat} {ts : List Token} {d : Heredoc} (h : d ∈ heredocs line ts) :
    line ≤ d.opening := by
  induction ts generalizing line with
  | nil => cases h
  | cons t ts ih =>
    rw [heredocs] at h
    split at h
    · rcases List.mem_cons.1 h with rfl | h
      · exact Nat.le_add_right _ _
      · have := ih h
        omega
    · have := ih h
      omega

/-- Of two heredocs the second one opens on the line that closes the first one, or behind it. -/
theorem closing_le_opening {line : Nat} {ts : List Token} {a d : Heredoc} (ha : a ∈ heredocs line ts)
    (hd : d ∈ heredocs line ts) (h : a.opening < d.opening) : a.closing ≤ d.opening := by
  induction ts generalizing line with
  | nil => cases ha
  | cons t ts ih =>
    rw [heredocs] at ha hd
    split at ha
    · next hheredoc =>
      rw [if_pos hheredoc] at hd
      rcases List.mem_cons.1 ha with rfl | ha <;> rcases List.mem_cons.1 hd with rfl | hd
      · omega
      · exact le_opening_of_heredocs hd
      · have := le_opening_of_heredocs ha
        dsimp only at h
        omega
      · exact ih ha hd
    · next hplain =>
      rw [if_neg hplain] at hd
      exact ih ha hd

namespace Body

/-! ## Runs of raw lines -/

/-- The number of lines behind a line that are the text of a heredoc which the line seems to open. -/
def textLength (line : List Char) (rest : List (List Char)) : Nat :=
  match (heredocLabel? line).bind fun label => rest.findIdx? (closesHeredoc label) with
  | some i => i + 1
  | none => 0

/-- The lines behind a line are raw as far as they are the text of its heredoc. -/
theorem rawFlags_cons (line : List Char) (rest : List (List Char)) :
    rawFlags (line :: rest) = false :: (List.replicate (textLength line rest) true ++
      rawFlags (rest.drop (textLength line rest))) := by
  rw [rawFlags, textLength]
  cases (heredocLabel? line).bind fun label => rest.findIdx? (closesHeredoc label) <;> rfl

/-- A line that opens no heredoc has no text behind it. -/
theorem textLength_eq_zero_iff {line : List Char} {rest : List (List Char)} :
    textLength line rest = 0 ↔
      ∀ label, heredocLabel? line = some label → ∀ l ∈ rest, closesHeredoc label l = false := by
  rw [textLength]
  cases hlabel : heredocLabel? line with
  | none => simp
  | some label =>
    cases hfound : rest.findIdx? (closesHeredoc label) with
    | none => simpa [hfound] using List.findIdx?_eq_none_iff.1 hfound
    | some i =>
      obtain ⟨hi, hclose, -⟩ := List.findIdx?_eq_some_iff_getElem.1 hfound
      simp only [Option.bind_some, hfound, Nat.add_one_ne_zero, Option.some.injEq, forall_eq', false_iff]
      exact fun hall => absurd (hall _ (List.getElem_mem hi)) (by simp [hclose])

/-- The text behind a line goes on to the first line that closes its heredoc. -/
theorem textLength_eq_succ_iff {line : List Char} {rest : List (List Char)} {n : Nat} :
    textLength line rest = n + 1 ↔ ∃ label, heredocLabel? line = some label ∧
      (∃ l ∈ rest[n]?, closesHeredoc label l = true) ∧
      ∀ i < n, ∀ l ∈ rest[i]?, closesHeredoc label l = false := by
  have hfind (label : List Char) : rest.findIdx? (closesHeredoc label) = some n ↔
      (∃ l ∈ rest[n]?, closesHeredoc label l = true) ∧
        ∀ i < n, ∀ l ∈ rest[i]?, closesHeredoc label l = false := by
    rw [List.findIdx?_eq_some_iff_getElem]
    constructor
    · rintro ⟨hn, hclose, hopen⟩
      refine ⟨⟨_, List.getElem?_eq_getElem hn, hclose⟩, fun i hi l hl => ?_⟩
      obtain ⟨hlt, rfl⟩ := List.getElem?_eq_some_iff.1 hl
      simpa using hopen i hi
    · rintro ⟨⟨l, hl, hclose⟩, hopen⟩
      obtain ⟨hn, rfl⟩ := List.getElem?_eq_some_iff.1 hl
      exact ⟨hn, hclose, fun i hi => by simp [hopen i hi _ (List.getElem?_eq_getElem (by omega))]⟩
  rw [textLength]
  constructor
  · intro h
    split at h
    · next i hi =>
      obtain rfl := Nat.succ.inj h
      obtain ⟨label, hlabel, hfound⟩ := Option.bind_eq_some_iff.1 hi
      exact ⟨label, hlabel, (hfind label).1 hfound⟩
    · cases h
  · rintro ⟨label, hlabel, hfound⟩
    rw [hlabel, Option.bind_some, (hfind label).2 hfound]

/-- Behind a line that is not raw the flags are those of the lines from there on. -/
theorem rawFlags_drop {ls : List (List Char)} {k : Nat} (h : (rawFlags ls)[k]? = some false) :
    (rawFlags ls).drop k = rawFlags (ls.drop k) := by
  match ls, k with
  | _, 0 => rfl
  | [], k + 1 =>
    rw [rawFlags] at h
    cases h
  | line :: rest, k + 1 =>
    rw [rawFlags_cons, List.getElem?_cons_succ] at h
    -- a line that is not raw stands behind the text of a heredoc that the first line opens
    have hle : textLength line rest ≤ k := by
      refine Nat.le_of_not_lt fun hlt => ?_
      rw [List.getElem?_append_left (by rw [List.length_replicate]; omega),
        List.getElem?_replicate_of_lt (by omega)] at h
      cases h
    obtain ⟨j, rfl⟩ := Nat.exists_eq_add_of_le hle
    have hlength : (List.replicate (textLength line rest) true).length = textLength line rest :=
      List.length_replicate
    rw [List.getElem?_append_right (by omega), hlength, Nat.add_sub_cancel_left] at h
    rw [rawFlags_cons, List.drop_succ_cons, List.drop_succ_cons]
    calc (List.replicate (textLength line rest) true ++ rawFlags (rest.drop (textLength line rest))).drop
          (textLength line rest + j)
        = (rawFlags (rest.drop (textLength line rest))).drop j := by
          rw [← List.drop_drop, List.drop_left' hlength]
      _ = rawFlags ((rest.drop (textLength line rest)).drop j) := rawFlags_drop h
      _ = rawFlags (rest.drop (textLength line rest + j)) := by rw [List.drop_drop]
termination_by ls.length

/-- A line is raw or not. -/
theorem rawFlags_eq_false {ls : List (List Char)} {i : Nat} (hi : i < ls.length)
    (h : (rawFlags ls)[i]? ≠ some true) : (rawFlags ls)[i]? = some false := by
  have hlt : i < (rawFlags ls).length := by rwa [length_rawFlags]
  rw [List.getElem?_eq_getElem hlt] at h ⊢
  exact congrArg some (by simpa using h)

/-- The first line of a text is not raw. -/
theorem rawFlags_zero (ls : List (List Char)) : (rawFlags ls)[0]? ≠ some true := by
  cases ls with
  | nil => simp [rawFlags]
  | cons line rest =>
    rw [rawFlags_cons, List.getElem?_cons_zero]
    simp

variable {ls : List (List Char)} {line : List Char} {k : Nat}

/-- Behind a line that is not raw the lines are raw as far as they are the text of its heredoc. -/
theorem rawFlags_run (hline : ls[k]? = some line) (hcode : (rawFlags ls)[k]? ≠ some true) :
    (∀ i, k < i → i ≤ k + textLength line (ls.drop (k + 1)) → (rawFlags ls)[i]? = some true) ∧
      (rawFlags ls)[k + textLength line (ls.drop (k + 1)) + 1]? ≠ some true := by
  obtain ⟨hk, rfl⟩ := List.getElem?_eq_some_iff.1 hline
  have hflags (j : Nat) : (rawFlags ls)[k + j]? = (rawFlags (ls[k] :: ls.drop (k + 1)))[j]? := by
    rw [← List.drop_eq_getElem_cons, ← rawFlags_drop (rawFlags_eq_false hk hcode), List.getElem?_drop]
  constructor
  · intro i hi hle
    obtain ⟨j, rfl⟩ := Nat.exists_eq_add_of_lt hi
    have hj : j < textLength ls[k] (ls.drop (k + 1)) := by omega
    rw [Nat.add_assoc, hflags, rawFlags_cons, List.getElem?_cons_succ,
      List.getElem?_append_left (by rwa [List.length_replicate]), List.getElem?_replicate_of_lt hj]
  · rw [Nat.add_assoc, hflags, rawFlags_cons, List.getElem?_cons_succ,
      List.getElem?_append_right (List.length_replicate ▸ Nat.le_refl _), List.length_replicate, Nat.sub_self]
    exact rawFlags_zero _

/-! ## Heredocs told from the lines -/

/-- A heredoc on the lines of its text: it opens on one of them and is closed by a later one. -/
structure IsOnLines (ls : List (List Char)) (d : Heredoc) : Prop where
  /-- The closing line is behind the opening one. -/
  lt : d.opening < d.closing
  /-- There is a line that opens the heredoc, and its label is read off that line. -/
  opens : ∃ line, ls[d.opening]? = some line ∧
    ('<' ∉ d.label → heredocLabel? line = if isAsciiIdent d.label then some d.label else none)
  /-- There is a line that closes the heredoc. -/
  closes : ∃ line, ls[d.closing]? = some line ∧
    (isAsciiIdent d.label = true → closesHeredoc d.label line = true)

/-- Heredocs that can be told from the lines of a text alone. -/
structure AreTold (ls : List (List Char)) (ds : List Heredoc) : Prop where
  /-- The labels are ASCII identifiers. -/
  label : ∀ d ∈ ds, isAsciiIdent d.label = true
  /-- No heredoc opens on a line of the text of another one. -/
  opening : ∀ d ∈ ds, ¬ InHeredoc ds d.opening
  /-- Ahead of its closing line no line of a heredoc looks as if it closed it: none starts with the label and
  goes on with what is no ASCII identifier. -/
  inner : ∀ d ∈ ds, ∀ i line, d.opening < i → i < d.closing → ls[i]? = some line →
    closesHeredoc d.label line = false
  /-- No other line of code looks as if it opened a heredoc that is closed. -/
  code : ∀ i line, ls[i]? = some line → ¬ InHeredoc ds i → (∀ d ∈ ds, d.opening ≠ i) →
    ∀ label, heredocLabel? line = some label → ∀ l ∈ ls.drop (i + 1), closesHeredoc label l = false

variable {ds : List Heredoc}

/-- Behind a line that is no text of a heredoc there is text of one only if one opens there. -/
theorem not_inHeredoc_succ {i : Nat} (h : ¬ InHeredoc ds i) (hopen : ∀ d ∈ ds, d.opening ≠ i) :
    ¬ InHeredoc ds (i + 1) := by
  rintro ⟨d, hd, hlt, hle⟩
  have hne := hopen d hd
  exact h ⟨d, hd, by omega, by omega⟩

/-- From the line that a heredoc opens on the text goes on to the line that closes it. -/
theorem IsOnLines.textLength_eq {d : Heredoc} (h : IsOnLines ls d) (hident : isAsciiIdent d.label = true)
    (hinner : ∀ i line, d.opening < i → i < d.closing → ls[i]? = some line →
      closesHeredoc d.label line = false) (hline : ls[d.opening]? = some line) :
    d.opening + textLength line (ls.drop (d.opening + 1)) = d.closing := by
  obtain ⟨first, hfirst, hlabel⟩ := h.opens
  obtain rfl := Option.some.inj (hfirst.symm.trans hline)
  obtain ⟨last, hlast, hcloses⟩ := h.closes
  obtain ⟨n, hn⟩ := Nat.exists_eq_add_of_lt h.lt
  have hbracket : '<' ∉ d.label := fun hmem => absurd (isAsciiIdentChar_of_mem hident _ hmem) (by decide)
  have hbehind (i : Nat) : (ls.drop (d.opening + 1))[i]? = ls[d.opening + i + 1]? := by
    rw [List.getElem?_drop, Nat.add_right_comm]
  have htext : textLength first (ls.drop (d.opening + 1)) = n + 1 := by
    refine textLength_eq_succ_iff.2 ⟨d.label, ?_, ⟨last, ?_, hcloses hident⟩, fun i hi l hl => ?_⟩
    · rw [hlabel hbracket, if_pos hident]
    · rwa [Option.mem_def, hbehind, ← hn]
    · rw [Option.mem_def, hbehind] at hl
      exact hinner _ l (by omega) (by omega) hl
  omega

/-- Heredocs that can be told from the lines have the raw lines as their text. -/
theorem AreTold.rawFlags_iff (h : AreTold ls ds) (hds : ∀ d ∈ ds, IsOnLines ls d) (i : Nat) :
    (rawFlags ls)[i]? = some true ↔ InHeredoc ds i := by
  induction i using Nat.strongRecOn with
  | ind i ih =>
  -- the text of a heredoc that opens further up is raw, and no line behind it belongs to the same run
  have htext {d : Heredoc} (hd : d ∈ ds) (hlt : d.opening < i) :
      (∀ j, d.opening < j → j ≤ d.closing → (rawFlags ls)[j]? = some true) ∧
        (rawFlags ls)[d.closing + 1]? ≠ some true := by
    obtain ⟨line, hline, -⟩ := (hds d hd).opens
    have hrun := rawFlags_run hline (mt (ih _ hlt).1 (h.opening d hd))
    rwa [(hds d hd).textLength_eq (h.label d hd) (h.inner d hd) hline] at hrun
  constructor
  · intro hraw
    refine Classical.byContradiction fun hcode => ?_
    cases i with
    | zero => exact rawFlags_zero ls hraw
    | succ k =>
    by_cases hbefore : InHeredoc ds k
    · -- the line before closes a heredoc
      obtain ⟨d, hd, hlt, hle⟩ := hbefore
      have hclosing : ¬ k + 1 ≤ d.closing := fun hmore => hcode ⟨d, hd, by omega, hmore⟩
      obtain rfl : k = d.closing := by omega
      exact (htext hd (by omega)).2 hraw
    · have hopen : ∀ d ∈ ds, d.opening ≠ k := by
        rintro d hd rfl
        exact hcode ⟨d, hd, Nat.lt_succ_self _, (hds d hd).lt⟩
      have hk : k < ls.length := by
        have hlt := (List.getElem?_eq_some_iff.1 hraw).1
        rw [length_rawFlags] at hlt
        omega
      have hline := List.getElem?_eq_getElem hk
      have hzero := textLength_eq_zero_iff.2 (h.code k _ hline hbefore hopen)
      have hbehind := (rawFlags_run hline (mt (ih k (Nat.lt_succ_self k)).1 hbefore)).2
      rw [hzero] at hbehind
      exact hbehind hraw
  · rintro ⟨d, hd, hlt, hle⟩
    exact (htext hd hlt).1 i hlt hle

/-- If the line that a heredoc opens on has text behind it, it is the text up to the first line that seems to
close the heredoc. -/
theorem IsOnLines.textLength_le {d : Heredoc} (h : IsOnLines ls d) (hbracket : '<' ∉ d.label)
    (hline : ls[d.opening]? = some line) (hpos : 0 < textLength line (ls.drop (d.opening + 1))) :
    isAsciiIdent d.label = true ∧ d.opening + textLength line (ls.drop (d.opening + 1)) ≤ d.closing ∧
      ∀ i l, d.opening < i → i < d.opening + textLength line (ls.drop (d.opening + 1)) → ls[i]? = some l →
        closesHeredoc d.label l = false := by
  have hlt := h.lt
  obtain ⟨first, hfirst, hlabel⟩ := h.opens
  obtain rfl := Option.some.inj (hfirst.symm.trans hline)
  obtain ⟨last, hlast, hcloses⟩ := h.closes
  have hbehind {i : Nat} (hi : d.opening < i) : (ls.drop (d.opening + 1))[i - d.opening - 1]? = ls[i]? := by
    rw [List.getElem?_drop]
    congr 1
    omega
  obtain ⟨n, hn⟩ := Nat.exists_eq_add_one.2 hpos
  obtain ⟨label, hfound, -, hopen⟩ := textLength_eq_succ_iff.1 hn
  -- the label that is read off the line is the one of the heredoc
  rw [hlabel hbracket] at hfound
  obtain ⟨hident, hsame⟩ := Option.ite_none_right_eq_some.1 hfound
  obtain rfl : d.label = label := Option.some.inj hsame
  rw [hn]
  refine ⟨hident, Nat.le_of_not_lt fun hshort => ?_, fun i l hi hbefore hl => ?_⟩
  · have hnot := hopen (d.closing - d.opening - 1) (by omega) last (by rwa [Option.mem_def, hbehind hlt])
    rw [hcloses hident] at hnot
    cases hnot
  · exact hopen (i - d.opening - 1) (by omega) l (by rwa [Option.mem_def, hbehind hi])

section Raw

variable (hds : ∀ d ∈ ds, IsOnLines ls d) (hlabels : ∀ d ∈ ds, '<' ∉ d.label)
  (hraw : ∀ i, (rawFlags ls)[i]? = some true ↔ InHeredoc ds i)

include hds hlabels hraw

/-- A heredoc that opens on a line of code is told from the lines if its text is raw, and no heredoc opens on the
line that closes it. -/
theorem told_of_rawFlags {d : Heredoc} (hd : d ∈ ds) (hcode : ¬ InHeredoc ds d.opening) :
    isAsciiIdent d.label = true ∧
      (∀ i line, d.opening < i → i < d.closing → ls[i]? = some line → closesHeredoc d.label line = false) ∧
      ¬ InHeredoc ds (d.closing + 1) := by
  have hlt := (hds d hd).lt
  have htext {i : Nat} (hi : d.opening < i) (hle : i ≤ d.closing) : InHeredoc ds i := ⟨d, hd, hi, hle⟩
  obtain ⟨line, hline, -⟩ := (hds d hd).opens
  obtain ⟨-, hend⟩ := rawFlags_run hline (mt (hraw _).1 hcode)
  -- the run of raw lines ends behind the opening line, and so with the heredoc
  have hpos : 0 < textLength line (ls.drop (d.opening + 1)) := by
    refine Nat.pos_of_ne_zero fun hzero => hend ?_
    rw [hzero]
    exact (hraw _).2 (htext (Nat.lt_succ_self _) hlt)
  obtain ⟨hident, hle, hinner⟩ := (hds d hd).textLength_le (hlabels d hd) hline hpos
  have hclosing : d.opening + textLength line (ls.drop (d.opening + 1)) = d.closing :=
    Nat.le_antisymm hle (Nat.le_of_not_lt fun hmore => hend ((hraw _).2 (htext (by omega) hmore)))
  rw [hclosing] at hinner hend
  exact ⟨hident, hinner, mt (hraw _).2 hend⟩

/-- Heredocs that have the raw lines as their text can be told from the lines, if no label holds an angle
bracket. -/
theorem areTold_of_rawFlags
    (hordered : ∀ a ∈ ds, ∀ d ∈ ds, a.opening < d.opening → a.closing ≤ d.opening) : AreTold ls ds := by
  have hopening (n : Nat) : ∀ d ∈ ds, d.opening = n → ¬ InHeredoc ds n := by
    induction n using Nat.strongRecOn with
    | ind n ih =>
    rintro d hd rfl ⟨a, ha, hlt, hle⟩
    -- a heredoc that opens where another one closes would be missed
    obtain ⟨-, -, hbehind⟩ := told_of_rawFlags hds hlabels hraw ha (ih a.opening hlt a ha rfl)
    have hclosing := hordered a ha d hd hlt
    have hd_lt := (hds d hd).lt
    exact hbehind ⟨d, hd, by omega, by omega⟩
  have htold {d : Heredoc} (hd : d ∈ ds) := told_of_rawFlags hds hlabels hraw hd (hopening _ d hd rfl)
  constructor
  case label => exact fun d hd => (htold hd).1
  case opening => exact fun d hd => hopening _ d hd rfl
  case inner => exact fun d hd => (htold hd).2.1
  case code =>
    intro i line hline hcode hopen
    -- behind other lines of code there is no text
    refine textLength_eq_zero_iff.1 (Nat.eq_zero_of_not_pos fun hpos => ?_)
    have hnext := (rawFlags_run hline (mt (hraw i).1 hcode)).1 (i + 1) (Nat.lt_succ_self i) (by omega)
    exact not_inHeredoc_succ hcode hopen ((hraw _).1 hnext)

end Raw

/-! ## The lines of a heredoc token -/

/-- What follows the last three angle brackets of a text that has no more of them. -/
theorem afterLast?_opening {header : List Char} (hheader : '<' ∉ header) (front : List Char) :
    afterLast? ['<', '<', '<'] (front ++ '<' :: '<' :: '<' :: header) = some header := by
  induction front with
  | nil =>
    have hnone : afterLast? ['<', '<', '<'] header = none := by
      have hskip := afterLast?_append hheader []
      rwa [List.append_nil] at hskip
    cases header with
    | nil => rfl
    | cons d header =>
      have hd : '<' ≠ d := fun he => hheader (he ▸ List.mem_cons_self)
      rw [List.nil_append, afterLast?, afterLast?, afterLast?, hnone]
      simp [stripPrefix?, hd]
  | cons c front ih => rw [List.cons_append, afterLast?, ih]

/-- A row opens and closes the heredocs that its line does. -/
theorem twin_lineOfRow (row : List Char) : Twin row (lineOfRow row) := by
  obtain ⟨e, hrow, he⟩ := exists_lineOfRow row
  have htwin := twin_end he (lineOfRow row)
  rwa [← hrow] at htwin

/-- The line of a row that ends a heredoc closes the heredoc. -/
theorem closesHeredoc_of_closesRow {label row : List Char} (hlabel : isAsciiIdent label = true)
    (h : closesRow label row = true) : closesHeredoc label (lineOfRow row) = true := by
  obtain ⟨after, hrow, hafter⟩ := closesRow_iff.1 h
  have hprefix : label.isPrefixOf (label ++ after) = true :=
    List.isPrefixOf_iff_prefix.2 (List.prefix_append label after)
  have hnext : after.head?.any isAsciiIdentChar = false := by
    cases after with
    | nil => rfl
    | cons c after => exact Bool.eq_false_iff.2 fun hc => Bool.eq_false_iff.1 hafter (isIdentChar_of_ascii hc)
  rw [(twin_lineOfRow row).closes label hlabel, closesHeredoc, hrow, stripPrefix?, if_pos hprefix,
    List.drop_left]
  dsimp only
  rw [hnext]
  rfl

/-- A heredoc opens on the line of its angle brackets, and the line of its label closes it. -/
theorem isOnLines_of_closingLength? {header body : List Char} {k : Nat} (hheader : '\n' ∉ header)
    (hne : trimWhile isLabelQuote (trim header) ≠ [])
    (hclose : closingLength? (trimWhile isLabelQuote (trim header)) (rows body) = some k)
    (front : List Char) :
    IsOnLines (Text.lines (front ++ '<' :: '<' :: '<' :: (header ++ '\n' :: body)))
      ⟨trimWhile isLabelQuote (trim header), newlineCount front,
        newlineCount front + newlineCount ('<' :: '<' :: '<' :: (header ++ '\n' :: body.take k))⟩ := by
  have hopening : '\n' ∉ '<' :: '<' :: '<' :: header := by simpa using hheader
  have hcount : newlineCount ('<' :: '<' :: '<' :: (header ++ '\n' :: body.take k)) =
      newlineCount (body.take k) + 1 := newlineCount_line hopening _
  have hmem {c : Char} (hc : isLabelQuote c = false ∧ isBlank c = false) (h : c ∈ header) :
      c ∈ trimWhile isLabelQuote (trim header) := mem_trimWhile hc.1 (mem_trimWhile hc.2 h)
  have hsub : '\n' ∉ trimWhile isLabelQuote (trim header) := fun h =>
    hheader ((trimWhile_sublist _ _).mem ((trimWhile_sublist _ _).mem h))
  rw [hcount]
  refine ⟨by dsimp only; omega, ?_, ?_⟩
  · -- the label is what follows the angle brackets on their line
    obtain ⟨r, hrow⟩ := getElem?_rows hopening front body
    refine ⟨lineOfRow (r ++ ('<' :: '<' :: '<' :: header ++ ['\n'])), ?_, fun hbracket => ?_⟩
    · rw [Text.lines, List.getElem?_map]
      exact congrArg (Option.map lineOfRow) hrow
    · have hend := (twin_end (e := ['\n']) rfl (r ++ '<' :: '<' :: '<' :: header)).opens
      rw [(twin_lineOfRow _).opens, ← List.append_assoc, ← hend, heredocLabel?,
        afterLast?_opening (mt (hmem ⟨rfl, rfl⟩) hbracket)]
      rfl
  · -- the rows of the text are those behind the opening line
    obtain ⟨row, hrow, hcloses⟩ := exists_closingRow hne hsub hclose
    have hfront : newlineCount (front ++ '<' :: '<' :: '<' :: header) = newlineCount front := by
      rw [newlineCount, List.count_append, List.count_eq_zero_of_not_mem hopening]
      rfl
    have hbehind := getElem?_rows_newline (front ++ '<' :: '<' :: '<' :: header) body
      (newlineCount (body.take k))
    rw [hfront, List.append_assoc, hrow, Nat.add_assoc, Nat.add_comm 1] at hbehind
    refine ⟨lineOfRow row, ?_, fun hident => closesHeredoc_of_closesRow hident hcloses⟩
    rw [Text.lines, List.getElem?_map]
    exact congrArg (Option.map lineOfRow) hbehind

/-- A token that starts with three angle brackets goes on to the label that closes it. -/
theorem exists_of_isHeredoc {c : Char} {rest : List Char} {kind : TokenKind} {n : Nat}
    (hscan : scan c rest = .ok (kind, n)) (h : ['<', '<', '<'].isPrefixOf (c :: rest.take n) = true) :
    ∃ header body k, c = '<' ∧ rest = '<' :: '<' :: (header ++ '\n' :: body) ∧ '\n' ∉ header ∧
      trimWhile isLabelQuote (trim header) ≠ [] ∧
      closingLength? (trimWhile isLabelQuote (trim header)) (rows body) = some k ∧
      rest.take n = '<' :: '<' :: (header ++ '\n' :: body.take k) := by
  obtain ⟨text, htext⟩ := List.isPrefixOf_iff_prefix.1 h
  obtain ⟨rfl, htake⟩ := List.cons.inj htext
  obtain ⟨r, rfl⟩ : ∃ r, rest = '<' :: '<' :: r := by
    refine ⟨text ++ rest.drop n, ?_⟩
    calc rest = rest.take n ++ rest.drop n := (List.take_append_drop n rest).symm
      _ = '<' :: '<' :: (text ++ rest.drop n) := by rw [← htake]; rfl
  have hheredoc : scanHeredoc ('<' :: '<' :: r) = .ok (kind, n) := by
    rw [← hscan]
    rfl
  obtain ⟨header, body, k, hr, hheader, hne, hclose, -, rfl⟩ := exists_of_scanHeredoc hheredoc
  obtain rfl : r = header ++ '\n' :: body := hr
  refine ⟨header, body, k, rfl, rfl, hheader, hne, hclose, ?_⟩
  have hsum : 2 + header.length + 1 + k = header.length + (k + 1) + 2 := by omega
  rw [hsum, List.take_succ_cons, List.take_succ_cons, List.take_length_add_append, List.take_succ_cons]

/-- The heredocs of a text are on its lines. -/
theorem isOnLines_heredocs {start : Nat} {cs : List Char} {ts : List Token}
    (h : tokens start cs = .ok ts) (front : List Char) :
    ∀ d ∈ heredocs (newlineCount front) ts, IsOnLines (Text.lines (front ++ cs)) d := by
  induction ts generalizing start cs front with
  | nil => exact List.forall_mem_nil _
  | cons t ts ih =>
    obtain ⟨g, -, ⟨-, hts⟩ | ⟨c, rest, kind, n, more, hdrop, hscan, hmore, hts⟩⟩ := tokens_cases h
    · obtain ⟨rfl, rfl⟩ := List.cons.inj hts
      exact List.forall_mem_nil _
    · obtain ⟨rfl, rfl⟩ := List.cons.inj hts
      have hsplit : cs = cs.take g ++ c :: rest := by rw [← hdrop, List.take_append_drop]
      have hcount (a b : List Char) : newlineCount (a ++ b) = newlineCount a + newlineCount b :=
        List.count_append
      -- what is behind the token stands behind its characters
      have hbehind : ∀ d ∈ heredocs (newlineCount front + newlineCount (cs.take g) +
          newlineCount (c :: rest.take n)) ts, IsOnLines (Text.lines (front ++ cs)) d := by
        have hall := ih hmore (front ++ cs.take g ++ c :: rest.take n)
        have htext : front ++ cs.take g ++ c :: rest.take n ++ rest.drop n = front ++ cs := by
          conv => rhs; rw [hsplit]
          simp
        rwa [hcount, hcount, htext] at hall
      rw [heredocs]
      dsimp only
      split
      · next hheredoc =>
        obtain ⟨header, body, k, rfl, rfl, hheader, hne, hclose, htake⟩ := exists_of_isHeredoc hscan hheredoc
        refine List.forall_mem_cons.2 ⟨?_, hbehind⟩
        rw [Token.heredocLabel_eq hheader (congrArg ('<' :: ·) htake), htake, ← hcount]
        have honLines := isOnLines_of_closingLength? hheader hne hclose (front ++ cs.take g)
        rwa [List.append_assoc, ← hsplit] at honLines
      · exact hbehind

/-- The lines of a fragment that are raw are those of the text of its heredocs, and no label holds an angle
bracket, exactly when the heredocs can be told from the lines alone. -/
theorem rawFlags_iff_heredocs {f : String} {ts : List Token} (h : fragment f = .ok ts) :
    ((∀ d ∈ heredocs 0 ts, '<' ∉ d.label) ∧
        ∀ i, (rawFlags (Text.lines f.toList))[i]? = some true ↔ InHeredoc (heredocs 0 ts) i) ↔
      AreTold (Text.lines f.toList) (heredocs 0 ts) := by
  have hds : ∀ d ∈ heredocs 0 ts, IsOnLines (Text.lines f.toList) d := isOnLines_heredocs h []
  constructor
  · rintro ⟨hlabels, hraw⟩
    exact areTold_of_rawFlags hds hlabels hraw fun a ha d hd => closing_le_opening ha hd
  · intro htold
    refine ⟨fun d hd hmem => ?_, htold.rawFlags_iff hds⟩
    exact absurd (isAsciiIdentChar_of_mem (htold.label d hd) _ hmem) (by decide)

/-- What is found of the heredocs of a text whose tokens can be read. -/
theorem exists_fragment {f : String} {ds : List Heredoc}
    (h : (fragment f).toOption.map (heredocs 0) = some ds) :
    ∃ ts, fragment f = .ok ts ∧ heredocs 0 ts = ds := by
  cases hread : fragment f with
  | error e =>
    rw [hread] at h
    cases h
  | ok ts =>
    rw [hread] at h
    exact ⟨ts, rfl, Option.some.inj h⟩

/-- A heredoc whose label is indented, and a nowdoc behind it. -/
def twoHeredocs : String := "f(<<<A\n  A1\n  A, 1);\n$x = <<<'B'\n A\nB;\n"

/-- Heredocs that open on lines of code are told from the lines. -/
theorem heredocs_told_in_sequence : ∃ ts, fragment twoHeredocs = .ok ts ∧
    heredocs 0 ts = [⟨['A'], 0, 2⟩, ⟨['B'], 3, 5⟩] ∧
    rawFlags (Text.lines twoHeredocs.toList) = [false, true, true, false, true, true] ∧
    AreTold (Text.lines twoHeredocs.toList) (heredocs 0 ts) := by
  obtain ⟨ts, hts, hds⟩ := @exists_fragment twoHeredocs [⟨['A'], 0, 2⟩, ⟨['B'], 3, 5⟩] (by decide +kernel)
  have hflags : rawFlags (Text.lines twoHeredocs.toList) = [false, true, true, false, true, true] := by
    decide +kernel
  refine ⟨ts, hts, hds, hflags, (rawFlags_iff_heredocs hts).1 ⟨?_, fun i => ?_⟩⟩
  · rw [hds]
    decide
  · rw [hflags, hds]
    match i with
    | 0 | 1 | 2 | 3 | 4 | 5 | _ + 6 => simp [InHeredoc]

/-- A heredoc that opens on the line that closes another one. -/
def heredocBehindAnother : String := "foo(<<<A\na\nA, <<<B\n  b  \nB);"

/-- The text of a heredoc that opens where another one closes is not raw. -/
theorem heredoc_missed_behind_another : ∃ ts, fragment heredocBehindAnother = .ok ts ∧
    heredocs 0 ts = [⟨['A'], 0, 2⟩, ⟨['B'], 2, 4⟩] ∧
    ¬ ∀ i, (rawFlags (Text.lines heredocBehindAnother.toList))[i]? = some true ↔
      InHeredoc (heredocs 0 ts) i := by
  obtain ⟨ts, hts, hds⟩ :=
    @exists_fragment heredocBehindAnother [⟨['A'], 0, 2⟩, ⟨['B'], 2, 4⟩] (by decide +kernel)
  refine ⟨ts, hts, hds, fun h => ?_⟩
  have hcode : (rawFlags (Text.lines heredocBehindAnother.toList))[3]? = some false := by decide +kernel
  have hraw := (h 3).2 (hds ▸ ⟨⟨['B'], 2, 4⟩, by decide, by decide, by decide⟩)
  rw [hcode] at hraw
  cases hraw

end Body

end PhpGraft

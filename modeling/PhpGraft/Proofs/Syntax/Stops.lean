import PhpGraft.Proofs.Syntax.Tokens

/-!
# What continues no token

Whether a token goes on depends on what stands behind it. White space and the marks that end an
expression continue none (`Ends`). A test of what stands next, `Marks`, is settled by the first
characters, and a scan is `Local` if it finds a token that ends within a text also when the text is
followed by anything that continues no token.
-/

namespace PhpGraft.Lexer

open Decimal Text

/-- Whether a character continues no token: white space, and the marks that end an expression. -/
def isStop (c : Char) : Bool :=
  c == ' ' || c == '\t' || c == '\n' || c == '\r' || c == '\x0b' || c == '\x0c' || c == ';' ||
    c == ',' || c == ')' || c == ']' || c == '}'

/-- A text that continues no token ahead of it. -/
def Ends (s : List Char) : Prop := ∀ c ∈ s.head?, isStop c = true

/-- Nothing continues no token. -/
theorem ends_nil : Ends [] := nofun

/-- What starts with a stop continues no token. -/
theorem ends_cons {c : Char} (h : isStop c = true) (s : List Char) : Ends (c :: s) := by
  intro d hd
  obtain rfl : c = d := Option.some.inj hd
  exact h

/-- A test that no stop passes. -/
def FailsStops (p : Char → Bool) : Prop := ∀ c, isStop c = true → p c = false

/-- A stop is one of eleven characters. -/
theorem failsStops_of (p : Char → Bool)
    (h : p ' ' = false ∧ p '\t' = false ∧ p '\n' = false ∧ p '\r' = false ∧ p '\x0b' = false ∧
      p '\x0c' = false ∧ p ';' = false ∧ p ',' = false ∧ p ')' = false ∧ p ']' = false ∧
      p '}' = false) : FailsStops p := by
  intro c hc
  simp only [isStop, Bool.or_eq_true, beq_iff_eq, or_assoc] at hc
  rcases hc with rfl | rfl | rfl | rfl | rfl | rfl | rfl | rfl | rfl | rfl | rfl <;> simp [h]

theorem failsStops_isIdentChar : FailsStops isIdentChar := failsStops_of _ (by decide)
theorem failsStops_isIdentStart : FailsStops isIdentStart := failsStops_of _ (by decide)
theorem failsStops_isDigit : FailsStops Char.isDigit := failsStops_of _ (by decide)
theorem failsStops_isDigitOrGap : FailsStops isDigitOrGap := failsStops_of _ (by decide)

variable {u s s' : List Char}

/-! ## What stands next -/

/-- A test of what is next that a stop fails was passed by the text itself. -/
theorem any_head?_of_ends {p : Char → Bool} (hp : FailsStops p) (hs : Ends s')
    (h : (u ++ s').head?.any p = true) : u.head?.any p = true := by
  cases u with
  | cons c u => exact h
  | nil =>
    cases s' with
    | nil => exact h
    | cons c s' =>
      have hpass : p c = true := h
      rw [hp c (hs c rfl)] at hpass
      exact absurd hpass nofun

/-- A text at the front that holds no stop is at the front of the text itself. -/
theorem isPrefixOf_of_ends {pat : List Char} (hp : pat.any isStop = false) (hs : Ends s')
    (h : pat.isPrefixOf (u ++ s') = true) : pat.isPrefixOf u = true := by
  induction pat generalizing u with
  | nil => cases u <;> rfl
  | cons d pat ih =>
    obtain ⟨hd, hpat⟩ := Bool.or_eq_false_iff.1 (List.any_cons.symm.trans hp)
    cases u with
    | nil =>
      cases s' with
      | nil => exact absurd h nofun
      | cons c s' =>
        simp only [List.nil_append, List.isPrefixOf, Bool.and_eq_true, beq_iff_eq] at h
        have hstop := hs c rfl
        rw [← h.1, hd] at hstop
        exact absurd hstop nofun
    | cons c u =>
      simp only [List.cons_append, List.isPrefixOf, Bool.and_eq_true] at h ⊢
      exact ⟨h.1, ih hpat h.2⟩

/-- A text at the front stays there when more follows. -/
theorem isPrefixOf_append {pat : List Char} (h : pat.isPrefixOf u = true) (s : List Char) :
    pat.isPrefixOf (u ++ s) = true := by
  rw [List.isPrefixOf_iff_prefix] at h ⊢
  exact h.trans (List.prefix_append u s)

/-- A text at the front that fits in the text is at its front. -/
theorem isPrefixOf_cut {pat : List Char} (hlen : pat.length ≤ u.length)
    (h : pat.isPrefixOf (u ++ s) = true) : pat.isPrefixOf u = true := by
  rw [List.isPrefixOf_iff_prefix] at h ⊢
  exact List.prefix_of_prefix_length_le h (List.prefix_append u s) hlen

/-- A test of the characters behind the first one of a token: it is passed by the first `k` of them
or not at all, and a text that continues no token does not pass it. -/
structure Marks (k : Nat) (p : List Char → Prop) : Prop where
  /-- What passes the test passes it by its first `k` characters. -/
  cut : ∀ {u s}, k ≤ u.length → p (u ++ s) → p u
  /-- What passes the test passes it when more follows. -/
  append : ∀ {u}, p u → ∀ s, p (u ++ s)
  /-- What continues no token does not help to pass the test. -/
  ends : ∀ {u s}, Ends s → p (u ++ s) → p u

/-- A character that is next, and that is no stop. -/
theorem marks_head {x : Char} (hx : isStop x = false) : Marks 1 fun cs => cs.head? = some x where
  cut {u s} hk h := by
    cases u with
    | nil => exact absurd hk (by simp)
    | cons c u => exact h
  append {u} h s := by
    cases u with
    | nil => exact absurd h nofun
    | cons c u => exact h
  ends {u s} hs h := by
    cases u with
    | cons c u => exact h
    | nil =>
      have hstop := hs x h
      rw [hx] at hstop
      exact absurd hstop nofun

/-- A text at the front that holds no stop. -/
theorem marks_isPrefixOf (pat : List Char) (hp : pat.any isStop = false) :
    Marks pat.length fun cs => pat.isPrefixOf cs = true where
  cut hk h := isPrefixOf_cut hk h
  append h s := isPrefixOf_append h s
  ends hs h := isPrefixOf_of_ends hp hs h

/-- A test that stops fail, of what is next. -/
theorem marks_any {p : Char → Bool} (hp : FailsStops p) :
    Marks 1 fun cs => cs.head?.any p = true where
  cut {u s} hk h := by
    cases u with
    | nil => exact absurd hk (by simp)
    | cons c u => exact h
  append {u} h s := by
    cases u with
    | nil => exact absurd h nofun
    | cons c u => exact h
  ends hs h := any_head?_of_ends hp hs h

/-- A condition on the first character of the token changes nothing. -/
theorem Marks.and {k : Nat} {p : List Char → Prop} (h : Marks k p) (q : Prop) :
    Marks k fun cs => q ∧ p cs where
  cut hk hp := ⟨hp.1, h.cut hk hp.2⟩
  append hp s := ⟨hp.1, h.append hp.2 s⟩
  ends hs hp := ⟨hp.1, h.ends hs hp.2⟩

/-! ## Local scans -/

/-- A scan that finds a token within a text also when another text follows that continues no token.
A close tag is not found so, as it has to stand at the end of the source. -/
def Local (f : List Char → Scan) : Prop :=
  ∀ ⦃u s s' kind n⦄, Ends s' → f (u ++ s) = .ok (kind, n) → n ≤ u.length → kind ≠ .closeTag →
    f (u ++ s') = .ok (kind, n)

namespace Local

variable {f g : List Char → Scan}

/-- A scan that does not look at what is behind. -/
theorem const {r : Scan} : Local fun _ => r := fun _ _ _ _ _ _ h _ _ => h

/-- A token that is known by a test of what is behind, ahead of other ones. -/
theorem ite {k : Nat} {p : List Char → Prop} [DecidablePred p] (hp : Marks k p)
    (hlong : ∀ cs kind n, p cs → f cs = .ok (kind, n) → kind ≠ .closeTag → k ≤ n)
    (hf : Local f) (hg : Local g) : Local fun cs => if p cs then f cs else g cs := by
  intro u s s' kind n hs h hn hkind
  dsimp only at h ⊢
  by_cases hpass : p (u ++ s)
  · rw [if_pos hpass] at h
    have hk : k ≤ u.length := Nat.le_trans (hlong _ _ _ hpass h hkind) hn
    rw [if_pos (hp.append (hp.cut hk hpass) s')]
    exact hf hs h hn hkind
  · rw [if_neg hpass] at h
    rw [if_neg fun hpass' => hpass (hp.append (hp.ends hs hpass') s)]
    exact hg hs h hn hkind

/-- A token that is known by its first character, ahead of other ones. -/
theorem ite_const {p : Prop} [Decidable p] (hf : p → Local f) (hg : Local g) :
    Local fun cs => if p then f cs else g cs := by
  by_cases hp : p
  · simpa only [if_pos hp] using hf hp
  · simpa only [if_neg hp] using hg

end Local

end PhpGraft.Lexer

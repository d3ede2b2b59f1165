import PhpGraft.Model.ValueSpec
import PhpGraft.Proofs.Syntax.Heads
import PhpGraft.Proofs.Syntax.Words

/-!
# Names of constants

A constant is named by a name of the source. Such a name can hold any character outside ASCII, and the name
behind a double colon can hold backslashes; a name that is made a constant again must be in ASCII, and
without backslashes behind a double colon (`constantFetch?_const`, `constantFetch?_classConst`).
-/

namespace PhpGraft.ValueSpec

open Lexer Text

/-- What continues a name in ASCII is made of identifiers between backslashes; the first of them may have
lost its start. -/
theorem splitOn_of_nameLength {cs : List Char} (h : nameLength cs = cs.length)
    (hascii : ∀ c ∈ cs, c.toNat < 128) : ∃ p ps, splitOn '\\' cs = p :: ps ∧
      p.all isAsciiIdentChar = true ∧ ps.all isAsciiIdent = true := by
  induction cs with
  | nil => exact ⟨[], [], rfl, rfl, rfl⟩
  | cons c cs ih =>
    obtain ⟨hc, hcs⟩ := List.forall_mem_cons.1 hascii
    rw [nameLength] at h
    split at h
    · next hnext =>
      obtain ⟨p, ps, hsplit, hp, hps⟩ := ih (by simpa using h) hcs
      rw [splitOn]
      by_cases hslash : c = '\\'
      · -- the piece behind a backslash starts as an identifier does
        subst hslash
        have hstart : cs.head?.any isIdentStart = true := by simpa [isIdentChar] using hnext
        rw [if_pos rfl]
        refine ⟨[], p :: ps, by rw [hsplit], rfl, ?_⟩
        rw [List.all_cons, hps, Bool.and_true]
        cases cs with
        | nil => cases hstart
        | cons d cs =>
          have hd : isIdentStart d = true := hstart
          have hne : d ≠ '\\' := by
            rintro rfl
            exact absurd hd (by decide)
          have hfirst : isAsciiIdentStart d = true := by
            have := hcs d List.mem_cons_self
            rw [isIdentStart_iff] at hd
            rw [isAsciiIdentStart_iff]
            omega
          rw [splitOn, if_neg hne] at hsplit
          split at hsplit
          · obtain ⟨rfl, rfl⟩ := List.cons.inj hsplit
            rw [isAsciiIdent, hfirst]
            rfl
          · obtain ⟨rfl, rfl⟩ := List.cons.inj hsplit
            rw [List.all_cons, Bool.and_eq_true] at hp
            rw [isAsciiIdent, hfirst, hp.2]
            rfl
      · have hchar : isAsciiIdentChar c = true := by
          have hident : isIdentChar c = true := by simpa [hslash] using hnext
          rw [isIdentChar_iff] at hident
          rw [isAsciiIdentChar_iff]
          omega
        rw [if_neg hslash, hsplit]
        refine ⟨c :: p, ps, rfl, ?_, hps⟩
        rw [List.all_cons, hchar, hp]
        rfl
    · simp at h

/-- A name in ASCII that starts with an identifier is a qualified name. -/
theorem isQualified_of_nameLength {c : Char} {cs : List Char} (hc : isIdentStart c = true)
    (h : nameLength cs = cs.length) (hascii : ∀ d ∈ c :: cs, d.toNat < 128) :
    Name.isQualified (c :: cs) = true := by
  obtain ⟨hsmall, hcs⟩ := List.forall_mem_cons.1 hascii
  obtain ⟨p, ps, hsplit, hp, hps⟩ := splitOn_of_nameLength h hcs
  have hne : c ≠ '\\' := by
    rintro rfl
    exact absurd hc (by decide)
  have hstart : isAsciiIdentStart c = true := by
    rw [isIdentStart_iff] at hc
    rw [isAsciiIdentStart_iff]
    omega
  rw [Name.isQualified, splitOn, if_neg hne, hsplit]
  dsimp only
  rw [List.all_cons, isAsciiIdent, hstart, hp, hps]
  rfl

/-- The characters of a qualified name are ASCII characters. -/
theorem ascii_of_isQualified {cs : List Char} (h : Name.isQualified cs = true) :
    ∀ c ∈ cs, c.toNat < 128 := by
  intro c hc
  rcases forall_of_isQualified h c hc with hchar | rfl
  · rw [isAsciiIdentChar_iff] at hchar
    omega
  · decide

/-- A name that was read is a class name if it is in ASCII, and only then. -/
theorem isClassName_iff {cs : List Char} (h : isNameText cs = true) :
    isClassName cs = true ↔ ∀ c ∈ cs, c.toNat < 128 := by
  cases cs with
  | nil => cases h
  | cons c cs =>
    rw [isNameText, Bool.and_eq_true, Bool.and_eq_true, beq_iff_eq] at h
    obtain ⟨⟨-, hstart⟩, hlength⟩ := h
    unfold isClassName
    by_cases hslash : c = '\\'
    · subst hslash
      show Name.isQualified cs = true ↔ _
      constructor
      · intro hqualified
        exact List.forall_mem_cons.2 ⟨by decide, ascii_of_isQualified hqualified⟩
      · intro hascii
        obtain ⟨-, hascii⟩ := List.forall_mem_cons.1 hascii
        have hnext : cs.head?.any isIdentStart = true := by
          simpa [startsName, isIdentStart] using hstart
        cases cs with
        | nil => cases hnext
        | cons d cs =>
          have hd : isIdentStart d = true := hnext
          rw [nameLength, if_pos (by rw [isIdentChar_of_start hd, Bool.true_or])] at hlength
          exact isQualified_of_nameLength hd (by simpa using hlength) hascii
    · have hc : isIdentStart c = true := by simpa [startsName, hslash] using hstart
      rw [if_neg (by simpa using hslash)]
      exact ⟨ascii_of_isQualified, isQualified_of_nameLength hc hlength⟩

/-- A name that was read is an identifier if it is in ASCII and has no backslashes, and only then. -/
theorem isAsciiIdent_iff {cs : List Char} (h : isNameText cs = true) :
    isAsciiIdent cs = true ↔ ∀ c ∈ cs, c.toNat < 128 ∧ c ≠ '\\' := by
  constructor
  · intro hident c hc
    refine ⟨ascii_of_isQualified (isQualified_of_ident hident) c hc, ?_⟩
    rintro rfl
    cases cs with
    | nil => cases hc
    | cons d cs =>
      rw [isAsciiIdent, Bool.and_eq_true] at hident
      rcases List.mem_cons.1 hc with rfl | hc
      · exact absurd hident.1 (by decide)
      · exact absurd (List.all_eq_true.1 hident.2 _ hc) (by decide)
  · intro hall
    have hclass := (isClassName_iff h).2 fun c hc => (hall c hc).1
    have hone : splitOn '\\' cs = [cs] := by
      clear h hclass
      induction cs with
      | nil => rfl
      | cons c cs ih =>
        obtain ⟨hc, hcs⟩ := List.forall_mem_cons.1 hall
        rw [splitOn, if_neg hc.2, ih hcs]
    have hhead : (cs.head? == some '\\') = false := by
      cases cs with
      | nil => rfl
      | cons c cs => simpa using (hall c List.mem_cons_self).2
    rw [isClassName, hhead, if_neg Bool.false_ne_true, Name.isQualified, hone] at hclass
    simpa using hclass

/-- There are no colons in a name that was read. -/
theorem colon_not_mem {cs : List Char} (h : isNameText cs = true) : ':' ∉ cs := by
  cases cs with
  | nil => cases h
  | cons c cs =>
    rw [isNameText, Bool.and_eq_true, Bool.and_eq_true, beq_iff_eq] at h
    obtain ⟨⟨-, hstart⟩, hlength⟩ := h
    rw [List.mem_cons, not_or]
    refine ⟨fun he => startsName_ne hstart (d := ':') rfl he.symm, fun hmem => ?_⟩
    -- the rest of the name is all of what continues it
    have hchars := forall_take_nameLength cs
    rw [hlength, List.take_length] at hchars
    rcases hchars ':' hmem with h | h <;> exact absurd h (by decide)

/-- The first double colon behind a text without colons is the one that follows it. -/
theorem splitOnce?_doubleColon {cs : List Char} (h : ':' ∉ cs) (rest : List Char) :
    splitOnce? [':', ':'] (cs ++ ':' :: ':' :: rest) = some (cs, rest) := by
  have hindex : indexOf? [':', ':'] (cs ++ ':' :: ':' :: rest) = some cs.length := by
    induction cs with
    | nil => rfl
    | cons c cs ih =>
      obtain ⟨hc, hcs⟩ := not_or.1 (List.mem_cons.not.1 h)
      have hstart : [':', ':'].isPrefixOf (c :: (cs ++ ':' :: ':' :: rest)) = false := by
        rw [List.isPrefixOf, beq_false_of_ne hc, Bool.false_and]
      rw [List.cons_append, indexOf?, hstart, if_neg Bool.false_ne_true, ih hcs]
      rfl
  rw [splitOnce?, hindex]
  simp

/-- A text without colons has no double colon. -/
theorem splitOnce?_eq_none {cs : List Char} (h : ':' ∉ cs) : splitOnce? [':', ':'] cs = none := by
  have hindex : indexOf? [':', ':'] cs = none := by
    induction cs with
    | nil => rfl
    | cons c cs ih =>
      obtain ⟨hc, hcs⟩ := not_or.1 (List.mem_cons.not.1 h)
      have hstart : [':', ':'].isPrefixOf (c :: cs) = false := by
        rw [List.isPrefixOf, beq_false_of_ne hc, Bool.false_and]
      rw [indexOf?, hstart, if_neg Bool.false_ne_true, ih hcs]
      rfl
  rw [splitOnce?, hindex]
  rfl

/-- Whether the name of a constant is in ASCII, and behind a double colon without backslashes; of any other
expression it is. -/
def isFetched : Expr → Bool
  | .const name => name.toList.all fun c => c.toNat < 128
  | .classConst className name =>
    className.toList.all (fun c => c.toNat < 128) && name.toList.all fun c => c.toNat < 128 && c != '\\'
  | _ => true

/-- A constant that was read is fetched by its name if that is in ASCII, and only then. -/
theorem constantFetch?_const {name : String} (h : isNameText name.toList = true) :
    constantFetch? name = if isFetched (.const name) then some (.const name) else none := by
  have hclass : isClassName name.toList = isFetched (.const name) := by
    rw [Bool.eq_iff_iff, isClassName_iff h, isFetched, List.all_eq_true]
    simp only [decide_eq_true_eq]
  rw [constantFetch?, splitOnce?_eq_none (colon_not_mem h), hclass]

/-- A constant of a class that was read is fetched by its name if that is in ASCII, without backslashes
behind the double colon, and only then. -/
theorem constantFetch?_classConst {c name : String} (hc : isNameText c.toList = true)
    (hname : isNameText name.toList = true) : constantFetch? (c ++ "::" ++ name) =
      if isFetched (.classConst c name) then some (.classConst c name) else none := by
  have htext : (c ++ "::" ++ name).toList = c.toList ++ ':' :: ':' :: name.toList := by
    rw [String.toList_append, String.toList_append, List.append_assoc]
    rfl
  have hfetched : (isClassName c.toList && isAsciiIdent name.toList) = isFetched (.classConst c name) := by
    rw [Bool.eq_iff_iff, Bool.and_eq_true, isClassName_iff hc, isAsciiIdent_iff hname, isFetched,
      Bool.and_eq_true, List.all_eq_true, List.all_eq_true]
    simp only [Bool.and_eq_true, decide_eq_true_eq, bne_iff_ne]
  rw [constantFetch?, htext, splitOnce?_doubleColon (colon_not_mem hc)]
  dsimp only
  rw [hfetched, String.ofList_toList, String.ofList_toList]

end PhpGraft.ValueSpec

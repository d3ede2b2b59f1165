import Mathlib.Data.List.Basic
import PhpGraft.Config.Reader
import PhpGraft.Proofs.Output.Resolution

/-!
# Prefixes in settings

Settings accept a prefix when it is empty or made of identifiers with a backslash behind each
(`of?_eq_none_iff`). A prefix map takes the last backslash off, which tells such prefixes apart
(`bare_inj`), and what is left covers just the namespaces that start with the prefix when a backslash is put
behind them (`covers_bare_iff`). So the check of the settings and the search of the map agree on what a prefix
is (`prefix_accepted_and_resolved`).
-/

namespace PhpGraft

open Text

/-! ## Names joined by backslashes -/

/-- A text with no backslash at either end. -/
structure IsBare (cs : List Char) : Prop where
  /-- There is none at the front. -/
  front : ∀ c ∈ cs.head?, c ≠ '\\'
  /-- There is none at the end. -/
  back : ∀ c ∈ cs.getLast?, c ≠ '\\'

/-- Backslashes behind each of some names are those between them and one at the end. -/
theorem flatMap_concat_backslash {names : List (List Char)} (hne : names ≠ []) :
    names.flatMap (· ++ ['\\']) = ['\\'].intercalate names ++ ['\\'] := by
  induction names with
  | nil => exact absurd rfl hne
  | cons w names ih =>
    cases names with
    | nil => simp
    | cons w' names =>
      rw [List.flatMap_cons, ih (List.cons_ne_nil _ _), List.intercalate_cons_cons]
      simp

/-- Names without backslashes that are joined by backslashes are a text with none at either end. -/
theorem isBare_intercalate {names : List (List Char)} (hne : names ≠ [])
    (hnames : ∀ w ∈ names, w ≠ [] ∧ '\\' ∉ w) :
    ['\\'].intercalate names ≠ [] ∧ IsBare (['\\'].intercalate names) := by
  have hfront {w : List Char} (hw : '\\' ∉ w) : ∀ c ∈ w.head?, c ≠ '\\' := by
    rintro c hc rfl
    exact hw (List.mem_of_head? hc)
  have hback {w : List Char} (hw : '\\' ∉ w) : ∀ c ∈ w.getLast?, c ≠ '\\' := by
    rintro c hc rfl
    exact hw (List.mem_of_getLast? hc)
  induction names with
  | nil => exact absurd rfl hne
  | cons w names ih =>
    obtain ⟨⟨hw, hfree⟩, hrest⟩ := List.forall_mem_cons.1 hnames
    cases names with
    | nil =>
      rw [List.intercalate_singleton]
      exact ⟨hw, hfront hfree, hback hfree⟩
    | cons w' names =>
      obtain ⟨hjoined, hbare⟩ := ih (List.cons_ne_nil _ _) hrest
      rw [List.intercalate_cons_cons]
      refine ⟨by simp, ?_, ?_⟩
      · rw [List.append_assoc, List.head?_append_of_ne_nil _ hw]
        exact hfront hfree
      · rw [List.getLast?_append_of_ne_nil _ hjoined]
        exact hbare.back

/-- A qualified name has no backslash at either end. -/
theorem isBare_of_isQualified {body : List Char} (h : Name.isQualified body = true) :
    body ≠ [] ∧ IsBare body := by
  obtain ⟨parts, hne, hparts, rfl⟩ := Name.isQualified_iff.1 h
  refine isBare_intercalate hne fun w hw => ⟨?_, fun hmem => ?_⟩
  · rintro rfl
    exact Bool.false_ne_true (hparts [] hw)
  · exact absurd (isAsciiIdentChar_of_mem (hparts w hw) _ hmem) (by decide)

/-- Backslashes at the end are all that is taken off a text with none at the front. -/
theorem trimWhile_append {body slashes : List Char} (h : IsBare body) (hne : body ≠ [])
    (hslashes : slashes.all (· == '\\') = true) : trimWhile (· == '\\') (body ++ slashes) = body := by
  have hstart : (body ++ slashes).dropWhile (· == '\\') = body ++ slashes := by
    cases body with
    | nil => exact absurd rfl hne
    | cons c body => exact List.dropWhile_cons_of_neg (by simpa using h.front c rfl)
  rw [trimWhile, hstart, dropTailWhile_append hslashes]
  exact dropTailWhile_eq_self fun c hc => beq_false_of_ne (h.back c hc)

/-- A text with no backslash at either end is left as it is. -/
theorem Name.bare_eq_self {s : String} (h : IsBare s.toList) (hne : s.toList ≠ []) : Name.bare s = s := by
  have htrim : trimWhile (· == '\\') s.toList = s.toList := by
    simpa using trimWhile_append h hne (List.all_nil : ([] : List Char).all _ = true)
  rw [Name.bare, htrim, String.ofList_toList]

/-! ## What the settings accept -/

namespace PrefixFault

/-- There is nothing wrong with an identifier, and with nothing else. -/
theorem inName?_eq_none_iff {w : List Char} : inName? w = none ↔ isAsciiIdent w = true := by
  cases w with
  | nil => exact iff_of_false (by simp [inName?]) Bool.false_ne_true
  | cons c cs =>
    rw [inName?, isAsciiIdent]
    cases isAsciiIdentStart c <;> cases cs.all isAsciiIdentChar <;> simp

/-- A prefix is accepted when it is empty or a qualified name with a backslash behind it. -/
theorem of?_eq_none_iff_isQualified (p : String) :
    of? p = none ↔ p = "" ∨ ∃ body, p.toList = body ++ ['\\'] ∧ Name.isQualified body = true := by
  have hnames (body : List Char) :
      (splitOn '\\' body).findSome? inName? = none ↔ Name.isQualified body = true := by
    rw [List.findSome?_eq_none_iff, Name.isQualified, List.all_eq_true]
    exact forall₂_congr fun w _ => inName?_eq_none_iff
  rw [← String.toList_eq_nil_iff, of?]
  generalize p.toList = cs
  constructor
  · intro h
    by_cases hempty : cs.isEmpty = true
    · exact .inl (List.isEmpty_iff.1 hempty)
    by_cases hfront : (cs.head? == some '\\') = true
    · simp [hempty, hfront] at h
    by_cases hback : (cs.getLast? != some '\\') = true
    · simp [hempty, hfront, hback] at h
    refine .inr ⟨cs.dropLast, ?_, (hnames _).1 (by simpa [hempty, hfront, hback] using h)⟩
    exact (List.dropLast_append_getLast? '\\' (by simpa using hback)).symm
  · rintro (rfl | ⟨body, rfl, hbody⟩)
    · rfl
    · obtain ⟨hne, hbare⟩ := isBare_of_isQualified hbody
      have hfront : ((body ++ ['\\']).head? == some '\\') = false := by
        rw [List.head?_append_of_ne_nil _ hne]
        exact beq_false_of_ne fun hhead => hbare.front _ hhead rfl
      simp only [hfront, List.dropLast_concat, (hnames body).2 hbody]
      simp

/-- A prefix is accepted when it is empty or made of identifiers with a backslash behind each. -/
theorem of?_eq_none_iff (p : String) :
    of? p = none ↔ p = "" ∨ ∃ names : List (List Char), names ≠ [] ∧ (∀ w ∈ names, isAsciiIdent w = true) ∧
      p.toList = names.flatMap (· ++ ['\\']) := by
  rw [of?_eq_none_iff_isQualified]
  refine or_congr_right ⟨?_, ?_⟩
  · rintro ⟨body, hp, hbody⟩
    obtain ⟨names, hne, hnames, rfl⟩ := Name.isQualified_iff.1 hbody
    exact ⟨names, hne, hnames, by rw [hp, flatMap_concat_backslash hne]⟩
  · rintro ⟨names, hne, hnames, hp⟩
    exact ⟨_, by rw [hp, flatMap_concat_backslash hne], Name.isQualified_iff.2 ⟨names, hne, hnames, rfl⟩⟩

end PrefixFault

/-! ## What a prefix map makes of it -/

namespace PrefixMap

variable {p q : String}

/-- An accepted prefix without the backslash at its end has one put behind it again, unless it is empty. -/
theorem toList_of_accepted (h : PrefixFault.of? p = none) :
    p = "" ∨ Name.bare p ≠ "" ∧ p.toList = (Name.bare p).toList ++ ['\\'] := by
  refine ((PrefixFault.of?_eq_none_iff_isQualified p).1 h).imp_right ?_
  rintro ⟨body, hp, hbody⟩
  obtain ⟨hne, hbare⟩ := isBare_of_isQualified hbody
  have hbody : (Name.bare p).toList = body := by
    rw [Name.bare, hp, trimWhile_append hbare hne rfl, String.toList_ofList]
  refine ⟨?_, by rw [hbody, hp]⟩
  rintro hempty
  rw [hempty] at hbody
  exact hne hbody.symm

/-- Accepted prefixes are told apart without their backslashes at the end. -/
theorem bare_inj (hp : PrefixFault.of? p = none) (hq : PrefixFault.of? q = none)
    (h : Name.bare p = Name.bare q) : p = q := by
  have hempty : Name.bare "" = "" := rfl
  rcases toList_of_accepted hp with rfl | ⟨hpne, hp⟩
  · rcases toList_of_accepted hq with rfl | ⟨hqne, -⟩
    · rfl
    · exact absurd (h.symm.trans hempty) hqne
  · rcases toList_of_accepted hq with rfl | ⟨-, hq⟩
    · exact absurd (h.trans hempty) hpne
    · rw [← String.toList_inj, hp, hq, h]

/-- An accepted prefix covers the namespaces that start with it when a backslash is put behind them. -/
theorem covers_bare_iff (h : PrefixFault.of? p = none) (n : String) :
    Covers (Name.bare p) n ↔ p.toList <+: n.toList ++ ['\\'] := by
  rcases toList_of_accepted h with rfl | ⟨hne, hp⟩
  · exact iff_of_true (.inl rfl) (List.nil_prefix)
  rw [hp]
  generalize Name.bare p = q at hne
  constructor
  · rintro (rfl | rfl | ⟨below, rfl⟩)
    · exact absurd rfl hne
    · exact List.prefix_refl _
    · refine ⟨below.toList ++ ['\\'], ?_⟩
      simp [String.toList_append]
  · rintro ⟨rest, hrest⟩
    refine .inr ?_
    -- the backslash that was put behind is the one of the prefix, or it stands behind further names
    rcases List.eq_nil_or_concat' rest with rfl | ⟨below, last, rfl⟩
    · rw [List.append_nil] at hrest
      exact .inl (String.toList_inj.1 (List.append_cancel_right hrest).symm)
    · refine .inr ⟨String.ofList below, String.toList_inj.1 ?_⟩
      rw [← List.append_assoc] at hrest
      rw [← (List.append_inj' hrest rfl).1]
      simp [String.toList_append]

/-- The only root of a map gives a namespace a directory exactly when it covers it. -/
theorem directory_add_iff (p dir : String) (scope? : Option String) :
    (∃ d, (({} : PrefixMap).add p dir).directory scope? = .ok d) ↔
      Covers (Name.bare p) (Name.bare (scope?.getD "")) := by
  have hfails : (∃ d, (({} : PrefixMap).add p dir).directory scope? = .ok d) ↔
      ¬∃ e, (({} : PrefixMap).add p dir).directory scope? = .error e := by
    cases (({} : PrefixMap).add p dir).directory scope? <;> simp
  rw [hfails]
  simp only [directory_eq_error_iff, exists_and_left, exists_eq, and_true]
  show ¬(∀ r ∈ [(Name.bare p, dir)], ¬Covers r.1 _) ↔ _
  rw [List.forall_mem_singleton, not_not]

/-- A prefix is accepted exactly when it is empty or made of one or more identifiers with a backslash behind
each. A prefix map tells accepted prefixes apart, and with such a prefix alone it has a directory for just the
namespaces, made of names with single backslashes between them, that start with the prefix when a backslash
is put behind them. Identifiers are such names, and so is every text without a backslash that is not empty. -/
theorem prefix_accepted_and_resolved (p : String) :
    (PrefixFault.of? p = none ↔ p = "" ∨ ∃ names : List (List Char), names ≠ [] ∧
      (∀ w ∈ names, isAsciiIdent w = true) ∧ p.toList = names.flatMap (· ++ ['\\'])) ∧
    (PrefixFault.of? p = none →
      (∀ (m : PrefixMap) (q dir : String), PrefixFault.of? q = none → m.add p dir = m.add q dir → p = q) ∧
      ∀ (dir n : String) (names : List (List Char)), (∀ w ∈ names, w ≠ [] ∧ '\\' ∉ w) →
        n.toList = ['\\'].intercalate names →
        ((∃ d, (({} : PrefixMap).add p dir).directory (some n) = .ok d) ↔ p.toList <+: n.toList ++ ['\\'])) := by
  refine ⟨PrefixFault.of?_eq_none_iff p, fun hp => ⟨fun m q dir hq heq => ?_, ?_⟩⟩
  · have hroots : m.roots ++ [(Name.bare p, dir)] = m.roots ++ [(Name.bare q, dir)] :=
      congrArg PrefixMap.roots heq
    obtain ⟨hbare, -⟩ := Prod.mk.inj (List.cons.inj (List.append_cancel_left hroots)).1
    exact bare_inj hp hq hbare
  · intro dir n names hnames hn
    have hself : Name.bare n = n := by
      rcases eq_or_ne names [] with rfl | hne
      · obtain rfl : n = "" := String.toList_eq_nil_iff.1 hn
        rfl
      · obtain ⟨hjoined, hbare⟩ := isBare_intercalate hne hnames
        rw [← hn] at hjoined hbare
        exact Name.bare_eq_self hbare hjoined
    rw [directory_add_iff, Option.getD_some, hself, covers_bare_iff hp]

/-- Two prefixes of which one is longer are told apart, and the longer one belongs to the namespaces below it. -/
theorem prefix_accepted_and_resolved_nested :
    PrefixFault.of? "App\\Model\\" = none ∧ PrefixFault.of? "App\\" = none ∧
      ({} : PrefixMap).add "App\\Model\\" "src" ≠ ({} : PrefixMap).add "App\\" "src" ∧
      (∃ d, (({} : PrefixMap).add "App\\Model\\" "src").directory (some "App\\Model\\User") = .ok d) ∧
      ¬∃ d, (({} : PrefixMap).add "App\\Model\\" "src").directory (some "App\\Models") = .ok d := by
  have hmodel : PrefixFault.of? "App\\Model\\" = none := by decide +kernel
  have happ : PrefixFault.of? "App\\" = none := by decide +kernel
  obtain ⟨hinj, hresolved⟩ := (prefix_accepted_and_resolved "App\\Model\\").2 hmodel
  refine ⟨hmodel, happ, fun heq => ?_, ?_, ?_⟩
  · exact absurd (hinj _ _ _ happ heq) (by decide)
  · exact (hresolved "src" "App\\Model\\User" ["App".toList, "Model".toList, "User".toList] (by decide)
      (by decide)).2 (by decide)
  · rw [hresolved "src" "App\\Models" ["App".toList, "Models".toList] (by decide) (by decide)]
    decide

end PrefixMap

end PhpGraft

import Mathlib.Data.List.Induction
import PhpGraft.Output.Resolver
import PhpGraft.Proofs.Model.Name

/-!
# The directory of a namespace

A prefix covers its own namespace and all those below it, and the empty prefix covers every namespace
(`Covers`). Covering prefixes of one namespace are beginnings of it, so two of them that are equally long
are equal (`Covers.eq_of_size_eq`). This is why the longest one is unique, and why the last root of that
prefix is the one that counts (`Governs`). The search of a prefix map finds the root that governs a
namespace (`root?_eq_some_iff`), whatever the order of roots with different prefixes (`Governs.perm`), and
as if a root ahead of another one with its prefix were not there (`Governs.of_repeated`). What the
directories are follows from these facts (`directory_ofList`).
-/

namespace PhpGraft.PrefixMap

open Text

variable {roots : List (String × String)} {root r r' : String × String} {p q n : String}

/-! ## Prefixes that cover a namespace -/

/-- A prefix covers its own namespace and those below it. The empty prefix covers every namespace. -/
def Covers (p n : String) : Prop := p = "" ∨ n = p ∨ ∃ below, n = p ++ "\\" ++ below

/-- A text starts with another one and a backslash when the backslash follows the other one. -/
theorem any_stripPrefix?_iff {pat cs : List Char} :
    ((stripPrefix? pat cs).any fun rest => rest.head? == some '\\') = true ↔
      ∃ below, cs = pat ++ '\\' :: below := by
  unfold stripPrefix?
  constructor
  · intro h
    split at h
    · next hpat =>
      obtain ⟨rest, rfl⟩ := List.isPrefixOf_iff_prefix.1 hpat
      rw [List.drop_left, Option.any_some, beq_iff_eq] at h
      obtain ⟨below, rfl⟩ := List.head?_eq_some_iff.1 h
      exact ⟨below, rfl⟩
    · cases h
  · rintro ⟨below, rfl⟩
    rw [if_pos (List.isPrefixOf_iff_prefix.2 (List.prefix_append _ _)), List.drop_left]
    rfl

/-- The test of a prefix map finds out whether a prefix covers a namespace. -/
theorem isPrefixOf_iff : isPrefixOf p.toList n.toList = true ↔ Covers p n := by
  have hbelow : (∃ below, n.toList = p.toList ++ '\\' :: below) ↔ ∃ below, n = p ++ "\\" ++ below := by
    constructor
    · rintro ⟨below, h⟩
      refine ⟨String.ofList below, String.toList_inj.1 ?_⟩
      calc n.toList = p.toList ++ (['\\'] ++ below) := h
        _ = (p ++ "\\" ++ String.ofList below).toList := by
          simp only [String.toList_append, String.toList_ofList, List.append_assoc]
          rfl
    · rintro ⟨below, rfl⟩
      refine ⟨below.toList, ?_⟩
      rw [String.toList_append, String.toList_append, List.append_assoc]
      rfl
  rw [isPrefixOf, Bool.or_eq_true, Bool.or_eq_true, any_stripPrefix?_iff, hbelow, beq_iff_eq, String.toList_inj,
    List.isEmpty_iff, String.toList_eq_nil_iff, or_assoc, Covers]

instance (p n : String) : Decidable (Covers p n) := decidable_of_iff _ isPrefixOf_iff

/-- A covering prefix is a beginning of the namespace. -/
theorem Covers.exists_append (h : Covers p n) : ∃ rest, n = p ++ rest := by
  obtain rfl | rfl | ⟨below, rfl⟩ := h
  · exact ⟨n, (String.empty_append).symm⟩
  · exact ⟨"", (String.append_empty).symm⟩
  · exact ⟨"\\" ++ below, String.append_assoc⟩

/-- Of two beginnings of a text, one that is no longer is a beginning of the other one, and both are
equal if they are equally long. -/
theorem Covers.eq_of_size_eq (hp : Covers p n) (hq : Covers q n) (h : p.utf8ByteSize = q.utf8ByteSize) :
    p = q := by
  -- the rest of the longer one takes no bytes
  have hrest {a b : String} (hab : a.toList <+: b.toList) (hsize : a.utf8ByteSize = b.utf8ByteSize) : a = b := by
    obtain ⟨rest, hb⟩ := hab
    obtain rfl : b = a ++ String.ofList rest := by
      rw [← String.toList_inj, String.toList_append, String.toList_ofList, hb]
    have hzero : (String.ofList rest).utf8ByteSize = 0 := by
      rw [String.utf8ByteSize_append] at hsize
      omega
    rw [String.utf8ByteSize_eq_zero_iff.1 hzero, String.append_empty]
  obtain ⟨s, hs⟩ := hp.exists_append
  obtain ⟨t, ht⟩ := hq.exists_append
  have hpn : p.toList <+: n.toList := ⟨s.toList, by rw [hs, String.toList_append]⟩
  have hqn : q.toList <+: n.toList := ⟨t.toList, by rw [ht, String.toList_append]⟩
  rcases List.prefix_or_prefix_of_prefix hpn hqn with hpq | hqp
  · exact hrest hpq h
  · exact (hrest hqp h.symm).symm

/-! ## The root of a namespace -/

/-- The root that a namespace belongs to. -/
structure Governs (roots : List (String × String)) (n : String) (root : String × String) : Prop where
  /-- Its prefix covers the namespace. -/
  covers : Covers root.1 n
  /-- No other prefix that does is longer. -/
  longest : ∀ r ∈ roots, Covers r.1 n → r.1.utf8ByteSize ≤ root.1.utf8ByteSize
  /-- No root behind it has the same prefix. -/
  last : ∃ before after, roots = before ++ root :: after ∧ ∀ r ∈ after, r.1 ≠ root.1

/-- The governing root is one of the roots. -/
theorem Governs.mem (h : Governs roots n root) : root ∈ roots := by
  obtain ⟨before, after, rfl, -⟩ := h.last
  exact List.mem_append_right _ List.mem_cons_self

/-- Only one root governs a namespace. -/
theorem Governs.eq (h : Governs roots n r) (h' : Governs roots n r') : r = r' := by
  have hprefix : r.1 = r'.1 := h.covers.eq_of_size_eq h'.covers <|
    Nat.le_antisymm (h'.longest r h.mem h.covers) (h.longest r' h'.mem h'.covers)
  obtain ⟨before, after, hsplit, hafter⟩ := h.last
  obtain ⟨before', after', hsplit', hafter'⟩ := h'.last
  -- if they stood at two places, the first one would not be the last one of its prefix
  rcases List.append_eq_append_iff.1 (hsplit.symm.trans hsplit') with ⟨between, -, hb⟩ | ⟨between, -, hb⟩
  · cases between with
    | nil => exact (List.cons.inj hb).1
    | cons first between =>
      rw [List.cons_append, List.cons.injEq] at hb
      exact absurd hprefix.symm (hafter r' (by rw [hb.2]; simp))
  · cases between with
    | nil => exact (List.cons.inj hb).1.symm
    | cons first between =>
      rw [List.cons_append, List.cons.injEq] at hb
      exact absurd hprefix (hafter' r (by rw [hb.2]; simp))

/-- The fold over covering roots keeps the last one of the longest ones. -/
theorem exists_foldl_longer (first : String × String) (rest : List (String × String)) :
    ∃ before after, first :: rest = before ++ rest.foldl longer first :: after ∧
      (∀ r ∈ before, r.1.utf8ByteSize ≤ (rest.foldl longer first).1.utf8ByteSize) ∧
      ∀ r ∈ after, r.1.utf8ByteSize < (rest.foldl longer first).1.utf8ByteSize := by
  induction rest using List.reverseRec with
  | nil => exact ⟨[], [], rfl, List.forall_mem_nil _, List.forall_mem_nil _⟩
  | append_singleton rest r ih =>
    obtain ⟨before, after, hsplit, hbefore, hafter⟩ := ih
    rw [List.foldl_append, List.foldl_cons, List.foldl_nil, ← List.cons_append, hsplit]
    generalize rest.foldl longer first = best at *
    unfold longer
    split
    · next hle =>
      -- the new root takes the place of the best one, with all others ahead of it
      refine ⟨before ++ best :: after, [], rfl, fun x hx => ?_, List.forall_mem_nil _⟩
      rcases List.mem_append.1 hx with hx | hx
      · exact (hbefore x hx).trans hle
      · rcases List.mem_cons.1 hx with rfl | hx
        · exact hle
        · exact (hafter x hx).le.trans hle
    · next hlt =>
      refine ⟨before, after ++ [r], by simp, hbefore, fun x hx => ?_⟩
      rcases List.mem_append.1 hx with hx | hx
      · exact hafter x hx
      · rw [List.mem_singleton.1 hx]
        omega

/-- The search of a prefix map fails exactly when no prefix covers the namespace. -/
theorem root?_eq_none_iff (m : PrefixMap) : m.root? n = none ↔ ∀ r ∈ m.roots, ¬Covers r.1 n := by
  have hcovers : (∀ r ∈ m.roots, ¬Covers r.1 n) ↔
      m.roots.filter (fun root => isPrefixOf root.1.toList n.toList) = [] := by
    simp only [List.filter_eq_nil_iff, isPrefixOf_iff]
  rw [hcovers, root?]
  split
  · next h => exact iff_of_true rfl h
  · next h => simp [h]

/-- The search of a prefix map finds a root that governs the namespace. -/
theorem governs_of_root? {m : PrefixMap} (h : m.root? n = some root) : Governs m.roots n root := by
  unfold root? at h
  split at h
  · cases h
  · next first rest hfilter =>
    obtain ⟨before, after, hsplit, hbefore, hafter⟩ := exists_foldl_longer first rest
    obtain rfl := Option.some.inj h
    generalize rest.foldl longer first = root at *
    have hmem {r : String × String} (hr : r ∈ m.roots) (hc : Covers r.1 n) :
        r ∈ before ++ root :: after := by
      rw [← hsplit, ← hfilter, List.mem_filter]
      exact ⟨hr, isPrefixOf_iff.2 hc⟩
    -- the place of the root among the covering ones gives its place among all of them
    obtain ⟨ahead, behind, hroots, -, hbehind⟩ := List.filter_eq_append_iff.1 (hfilter.trans hsplit)
    obtain ⟨between, further, rfl, -, hroot, hfurther⟩ := List.filter_eq_cons_iff.1 hbehind
    constructor
    case covers => exact isPrefixOf_iff.1 hroot
    case longest =>
      intro r hr hc
      rcases List.mem_append.1 (hmem hr hc) with hr | hr
      · exact hbefore r hr
      · rcases List.mem_cons.1 hr with rfl | hr
        · exact Nat.le_refl _
        · exact (hafter r hr).le
    case last =>
      refine ⟨ahead ++ between, further, by rw [hroots, List.append_assoc], fun r hr heq => ?_⟩
      have hafter := hafter r (by
        rw [← hfurther, List.mem_filter, heq]
        exact ⟨hr, hroot⟩)
      rw [heq] at hafter
      exact Nat.lt_irrefl _ hafter

/-- The search of a prefix map finds the root that governs the namespace. -/
theorem root?_eq_some_iff (m : PrefixMap) : m.root? n = some root ↔ Governs m.roots n root := by
  constructor
  · exact governs_of_root?
  · intro h
    cases hfound : m.root? n with
    | none => exact absurd h.covers ((root?_eq_none_iff m).1 hfound root h.mem)
    | some found => rw [(governs_of_root? hfound).eq h]

/-- Among roots with different prefixes the order does not matter. -/
theorem Governs.perm (h : Governs roots n root) {roots' : List (String × String)} (hperm : roots.Perm roots')
    (hdistinct : (roots.map Prod.fst).Nodup) : Governs roots' n root := by
  constructor
  case covers => exact h.covers
  case longest => exact fun r hr => h.longest r (hperm.mem_iff.2 hr)
  case last =>
    obtain ⟨before, after, rfl⟩ := List.append_of_mem (hperm.mem_iff.1 h.mem)
    have hnodup := (hperm.map Prod.fst).nodup_iff.1 hdistinct
    rw [List.map_append, List.map_cons, List.nodup_append, List.nodup_cons] at hnodup
    refine ⟨before, after, rfl, fun r hr heq => hnodup.2.1.1 ?_⟩
    rw [← heq]
    exact List.mem_map_of_mem hr

/-- A root ahead of another one with the same prefix does not count. -/
theorem Governs.of_repeated {before rest : List (String × String)} (h : Governs (before ++ rest) n root)
    (hr' : r' ∈ rest) (heq : r.1 = r'.1) : Governs (before ++ r :: rest) n root := by
  constructor
  case covers => exact h.covers
  case longest =>
    intro x hx hc
    rcases List.mem_append.1 hx with hx | hx
    · exact h.longest x (List.mem_append_left _ hx) hc
    · rcases List.mem_cons.1 hx with rfl | hx
      · rw [heq] at hc ⊢
        exact h.longest r' (List.mem_append_right _ hr') hc
      · exact h.longest x (List.mem_append_right _ hx) hc
  case last =>
    obtain ⟨ahead, behind, hsplit, hbehind⟩ := h.last
    rcases List.append_eq_append_iff.1 hsplit with ⟨between, rfl, rfl⟩ | ⟨between, rfl, hrest⟩
    · -- the governing root stands behind the new one
      exact ⟨before ++ r :: between, behind, by simp, hbehind⟩
    · cases between with
      | nil =>
        rw [List.nil_append] at hrest
        exact ⟨ahead ++ [r], behind, by simp [← hrest], hbehind⟩
      | cons first between =>
        -- the governing root stands ahead of both, so it does not have their prefix
        rw [List.cons_append, List.cons.injEq] at hrest
        obtain ⟨rfl, rfl⟩ := hrest
        refine ⟨ahead, between ++ r :: rest, by simp, fun x hx => ?_⟩
        rcases List.mem_append.1 hx with hx | hx
        · exact hbehind x (List.mem_append_left _ hx)
        · rcases List.mem_cons.1 hx with rfl | hx
          · rw [heq]
            exact hbehind r' (List.mem_append_right _ hr')
          · exact hbehind x (List.mem_append_right _ hx)

/-! ## Directories -/

/-- Roots as a prefix map keeps them: their prefixes have no backslashes at either end. -/
def registered (roots : List (String × String)) : List (String × String) :=
  roots.map fun r => (Name.bare r.1, r.2)

/-- The map of some roots holds them in order. -/
theorem roots_ofList (roots : List (String × String)) : (ofList roots).roots = registered roots := by
  suffices hall : ∀ m : PrefixMap, (roots.foldl (fun m root => m.add root.1 root.2) m).roots =
      m.roots ++ registered roots from hall {}
  induction roots with
  | nil => exact fun m => (List.append_nil _).symm
  | cons r roots ih =>
    intro m
    calc ((r :: roots).foldl (fun m root => m.add root.1 root.2) m).roots
        = (m.add r.1 r.2).roots ++ registered roots := ih (m.add r.1 r.2)
      _ = m.roots ++ registered (r :: roots) := List.append_assoc _ _ _

/-- The names in a text between its backslashes; no name is empty. -/
def names (text : String) : List String :=
  ((text.toList.splitOn '\\').filter fun name => !name.isEmpty).map String.ofList

/-- The further names of a namespace are those behind the prefix. -/
theorem furtherNames_append (p rest : String) : furtherNames p (p ++ rest) = names rest := by
  rw [furtherNames, names, String.toList_append, ← String.length_toList, List.drop_left, Name.splitOn_eq]

/-- A namespace has a directory exactly when a root governs it, and it is the one of this root with the
names behind the prefix. -/
theorem directory_eq_ok_iff (m : PrefixMap) (scope? : Option String) (dir : String) :
    m.directory scope? = .ok dir ↔ ∃ root rest, Governs m.roots (Name.bare (scope?.getD "")) root ∧
      Name.bare (scope?.getD "") = root.1 ++ rest ∧ dir = (names rest).foldl FilePath.join root.2 := by
  simp only [← root?_eq_some_iff, directory]
  generalize Name.bare (scope?.getD "") = n
  constructor
  · intro h
    split at h
    · next p dir' hroot =>
      obtain ⟨rest, rfl⟩ := (governs_of_root? hroot).covers.exists_append
      refine ⟨(p, dir'), rest, hroot, rfl, ?_⟩
      rw [← furtherNames_append]
      exact (Except.ok.inj h).symm
    · cases h
  · rintro ⟨root, rest, hroot, rfl, rfl⟩
    rw [hroot]
    show Except.ok ((furtherNames root.1 (root.1 ++ rest)).foldl FilePath.join root.2) = _
    rw [furtherNames_append]

/-- A namespace has no directory exactly when no prefix covers it. -/
theorem directory_eq_error_iff (m : PrefixMap) (scope? : Option String) (e : Error) :
    m.directory scope? = .error e ↔
      (∀ r ∈ m.roots, ¬Covers r.1 (Name.bare (scope?.getD ""))) ∧
        e = .resolution (Name.bare (scope?.getD "")) := by
  rw [← root?_eq_none_iff, directory]
  generalize Name.bare (scope?.getD "") = n
  cases m.root? n with
  | none => simp [eq_comm]
  | some root => simp

/-- Maps have the same directories of a namespace when they have the same root of it. -/
theorem directory_congr {m m' : PrefixMap} {scope? : Option String}
    (h : ∀ root, Governs m.roots (Name.bare (scope?.getD "")) root →
      Governs m'.roots (Name.bare (scope?.getD "")) root)
    (hroots : ∀ r' ∈ m'.roots, ∃ r ∈ m.roots, r.1 = r'.1) :
    m'.directory scope? = m.directory scope? := by
  cases hdir : m.directory scope? with
  | ok dir =>
    rw [directory_eq_ok_iff] at hdir ⊢
    obtain ⟨root, rest, hroot, hrest, hdir⟩ := hdir
    exact ⟨root, rest, h root hroot, hrest, hdir⟩
  | error e =>
    rw [directory_eq_error_iff] at hdir ⊢
    refine ⟨fun r' hr' hc => ?_, hdir.2⟩
    obtain ⟨r, hr, heq⟩ := hroots r' hr'
    exact hdir.1 r hr (heq ▸ hc)

/-- The directory of a namespace in a map of some roots. There is none exactly when no prefix covers the
namespace. Else it is the directory of the root with the longest covering prefix, the last one of that
prefix, with the names of the namespace behind the prefix; the prefix ends inside the namespace and at the
end of a character. Roots with different prefixes may come in any order, and of two roots with one prefix the
first one does not count. -/
theorem directory_ofList (roots : List (String × String)) (scope? : Option String) :
    let n := Name.bare (scope?.getD "")
    (∀ e, (ofList roots).directory scope? = .error e ↔
      (∀ r ∈ roots, ¬Covers (Name.bare r.1) n) ∧ e = .resolution n) ∧
    (∀ dir, (ofList roots).directory scope? = .ok dir ↔ ∃ root rest,
      Governs (registered roots) n root ∧ n = root.1 ++ rest ∧
        dir = (names rest).foldl FilePath.join root.2) ∧
    (∀ root, (ofList roots).root? n = some root →
      (⟨root.1.utf8ByteSize⟩ : String.Pos.Raw).IsValid n) ∧
    (∀ roots', roots.Perm roots' → ((registered roots).map Prod.fst).Nodup →
      (ofList roots').directory scope? = (ofList roots).directory scope?) ∧
    (∀ before r between r' after, roots = before ++ r :: (between ++ r' :: after) →
      Name.bare r.1 = Name.bare r'.1 →
      (ofList roots).directory scope? = (ofList (before ++ (between ++ r' :: after))).directory scope?) := by
  intro n
  refine ⟨fun e => ?_, fun dir => ?_, fun root hroot => ?_, fun roots' hperm hdistinct => ?_,
    fun before r between r' after hsplit heq => ?_⟩
  · rw [directory_eq_error_iff, roots_ofList, registered, List.forall_mem_map]
  · rw [directory_eq_ok_iff, roots_ofList]
  · obtain ⟨rest, hrest⟩ := (governs_of_root? hroot).covers.exists_append
    exact String.Pos.Raw.isValid_iff_exists_append.2 ⟨root.1, rest, hrest, rfl⟩
  · have hmap : (registered roots).Perm (registered roots') := hperm.map _
    refine directory_congr (fun root h => ?_) fun r' hr' => ?_
    · rw [roots_ofList] at h ⊢
      exact h.perm hmap hdistinct
    · rw [roots_ofList] at hr' ⊢
      exact ⟨r', hmap.mem_iff.2 hr', rfl⟩
  · have hregistered : registered roots = registered before ++
        (Name.bare r.1, r.2) :: registered (between ++ r' :: after) := by
      rw [hsplit, registered, List.map_append]
      rfl
    have hmem : (Name.bare r'.1, r'.2) ∈ registered (between ++ r' :: after) :=
      List.mem_map_of_mem (List.mem_append_right _ List.mem_cons_self)
    have hshort : registered (before ++ (between ++ r' :: after)) =
        registered before ++ registered (between ++ r' :: after) := List.map_append
    refine directory_congr (fun root h => ?_) fun x hx => ?_
    · rw [roots_ofList] at h ⊢
      rw [hregistered]
      exact Governs.of_repeated (hshort ▸ h) hmem heq
    · rw [roots_ofList, hregistered] at hx
      rw [roots_ofList, hshort]
      rcases List.mem_append.1 hx with hx | hx
      · exact ⟨x, List.mem_append_left _ hx, rfl⟩
      · rcases List.mem_cons.1 hx with rfl | hx
        · exact ⟨_, List.mem_append_right _ hmem, heq.symm⟩
        · exact ⟨x, List.mem_append_right _ hx, rfl⟩

/-- Roots of which one is below the others, and two have one prefix. -/
def layeredRoots : List (String × String) := [("App\\", "src"), ("\\App\\Tests", "tests"), ("App", "lib")]

/-- A namespace goes to the longest prefix above it, and to the last root of a prefix that there is twice. -/
theorem directory_ofList_layered :
    (ofList layeredRoots).directory (some "\\App\\Tests\\Unit") = .ok "tests/Unit" ∧
      (ofList layeredRoots).directory (some "Application") = .error (.resolution "Application") ∧
      (⟨9⟩ : String.Pos.Raw).IsValid "App\\Tests\\Unit" ∧
      (ofList layeredRoots.tail.reverse).directory (some "App\\Tests") =
        (ofList layeredRoots.tail).directory (some "App\\Tests") ∧
      (ofList layeredRoots).directory (some "App") = (ofList layeredRoots.tail).directory (some "App") := by
  refine ⟨?_, ?_, ?_, ?_, ?_⟩
  · refine ((directory_ofList layeredRoots (some "\\App\\Tests\\Unit")).2.1 _).2
      ⟨("App\\Tests", "tests"), "\\Unit", ⟨?_, ?_, ?_⟩, by decide +kernel, by decide +kernel⟩
    · decide +kernel
    · decide +kernel
    · exact ⟨[("App", "src")], [("App", "lib")], by decide +kernel, by decide +kernel⟩
  · exact ((directory_ofList layeredRoots (some "Application")).1 _).2
      ⟨by decide +kernel, congrArg Error.resolution (by decide +kernel)⟩
  · exact (directory_ofList layeredRoots (some "\\App\\Tests\\Unit")).2.2.1 ("App\\Tests", "tests") (by decide +kernel)
  · exact (directory_ofList layeredRoots.tail (some "App\\Tests")).2.2.2.1 _ (List.reverse_perm _).symm (by decide +kernel)
  · exact (directory_ofList layeredRoots (some "App")).2.2.2.2 [] ("App\\", "src") [("\\App\\Tests", "tests")]
      ("App", "lib") [] rfl (by decide +kernel)

end PhpGraft.PrefixMap

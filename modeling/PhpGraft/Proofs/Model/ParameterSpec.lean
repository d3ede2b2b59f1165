import PhpGraft.Model.MethodSpec
import PhpGraft.Proofs.Model.DocBlock
import PhpGraft.Proofs.Model.TypeSpec
import PhpGraft.Proofs.Model.ValueSpec

/-!
# Parameters read back

The declaration of a parameter shows its type if types are declared, and else its tag in the doc comment of
the method does. The declaration and the tag together are what the parameter is read back from
(`exists_realized`, `docLine?_cases`, `splitParamTag?_tagValue`).
-/

namespace PhpGraft

open Lexer Text

/-! ## Values and attributes -/

/-- Things that are made one by one, each with what is looked for. -/
theorem exists_mapM {ε α β γ : Type} {f : α → Except ε β} {g : β → γ} {k : α → γ} {l : List α}
    (h : ∀ a ∈ l, ∃ b, f a = .ok b ∧ g b = k a) : ∃ bs, l.mapM f = .ok bs ∧ bs.map g = l.map k := by
  induction l with
  | nil => exact ⟨[], rfl, rfl⟩
  | cons a l ih =>
    obtain ⟨⟨b, hb, hg⟩, hl⟩ := List.forall_mem_cons.1 h
    obtain ⟨bs, hbs, hgs⟩ := ih hl
    refine ⟨b :: bs, ?_, ?_⟩
    · rw [List.mapM_cons, hb, hbs]
      rfl
    · rw [List.map_cons, List.map_cons, hg, hgs]

/-- A default that is a plain value becomes an expression and is read back from it. -/
theorem ValueSpec.exists_default {v? : Option ValueSpec} (h : ∀ v ∈ v?, v.IsPlain) :
    ∃ e?, v?.mapM materialize = .ok e? ∧ e?.map recover = v? := by
  cases v? with
  | none => exact ⟨none, rfl, rfl⟩
  | some v =>
    obtain ⟨e, he, hv⟩ := (h v rfl).exists_expr
    refine ⟨some e, ?_, congrArg some hv⟩
    rw [Option.mapM_some, he]
    rfl

/-- An attribute whose arguments are source text. -/
def AttributeSpec.IsSource (a : AttributeSpec) : Prop := ∀ arg ∈ a.args, ∃ text, arg = .source text

/-- Attributes whose arguments are source text are read back from what they become. -/
theorem AttributeSpec.exists_attributes {as : List AttributeSpec} (h : ∀ a ∈ as, a.IsSource) :
    ∃ bs, realizeAttributes as = .ok bs ∧ bs.map recover = as := by
  have hone : ∀ a ∈ as, ∃ b, realize a = .ok b ∧ recover b = id a := by
    intro a ha
    have hargs : ∀ arg ∈ a.args, ∃ text, arg.realize = .ok text ∧ AttributeArg.source text = id arg := by
      intro arg harg
      obtain ⟨text, rfl⟩ := h a ha arg harg
      exact ⟨text, rfl, rfl⟩
    obtain ⟨texts, htexts, hsame⟩ := exists_mapM hargs
    rw [List.map_id] at hsame
    refine ⟨⟨a.name, texts⟩, ?_, ?_⟩
    · rw [realize, htexts]
      rfl
    · rw [recover, hsame]
      rfl
  obtain ⟨bs, hbs, hsame⟩ := exists_mapM hone
  rw [List.map_id] at hsame
  exact ⟨bs, hbs, hsame⟩

namespace ParameterSpec

variable {p : ParameterSpec} {typed : Bool}

/-! ## Declarations of parameters -/

/-- A parameter whose parts are read back: its name is an ASCII identifier, its type was parsed, its default
is a plain value and its attributes have source text for arguments. -/
structure IsPlain (p : ParameterSpec) : Prop where
  name : Name.isIdentifier p.name = true
  type : ∀ t ∈ p.type?, t.IsParsed
  default : ∀ v ∈ p.default?, v.IsPlain
  attributes : ∀ a ∈ p.attributes, a.IsSource

/-- What a declaration shows of a parameter. -/
def declared (typed : Bool) (p : ParameterSpec) : ParameterSpec :=
  { p with type? := if typed then p.type? else none, docHint? := none }

/-- A type that is declared is read back. -/
theorem map_ofHint {t? : Option TypeSpec} (h : ∀ t ∈ t?, t.IsParsed) :
    (t?.map TypeSpec.hint).map .ofHint = t? := by
  cases t? with
  | none => rfl
  | some t => exact congrArg some (h t rfl).isSpelled.ofHint_hint

/-- What the declaration of a parameter shows of it is read back. -/
theorem IsPlain.exists_param (h : p.IsPlain) (typed : Bool) :
    ∃ q, p.realize typed = .ok q ∧ recover q = p.declared typed := by
  obtain ⟨e?, he, hdefault⟩ := ValueSpec.exists_default h.default
  obtain ⟨bs, hbs, hattributes⟩ := AttributeSpec.exists_attributes h.attributes
  have htype : (if typed then p.type?.map TypeSpec.hint else none).map TypeSpec.ofHint =
      if typed then p.type? else none := by
    split
    · exact map_ofHint h.type
    · rfl
  refine ⟨{ name := p.name
            type? := if typed then p.type?.map TypeSpec.hint else none
            default? := e?
            byRef := p.byRef
            variadic := p.variadic
            modifiers := p.modifiers
            attributes := bs }, ?_, ?_⟩
  · rw [realize, he, hbs]
    rfl
  · rw [recover, declared]
    dsimp only
    rw [htype, hdefault, hattributes]

/-! ## Tags of parameters -/

/-- A type that the tag of a parameter can show. -/
structure IsHint (hint : String) : Prop where
  nonempty : hint.toList ≠ []
  noBlank : ∀ c ∈ hint.toList, isBlank c = false

/-- The value of the tag that shows a type for a parameter. -/
def tagValue (p : ParameterSpec) (hint : String) : String :=
  hint ++ " " ++ (if p.variadic then "..." else "") ++ "$" ++ p.name

/-- The value of the tag is the type, and the name behind its marks. -/
theorem toList_tagValue (p : ParameterSpec) (hint : String) : (p.tagValue hint).toList =
    hint.toList ++ ' ' :: ((if p.variadic then ['.', '.', '.'] else []) ++ '$' :: p.name.toList) := by
  rw [tagValue, String.toList_append, String.toList_append, String.toList_append, String.toList_append,
    List.append_assoc, List.append_assoc, List.append_assoc]
  split <;> rfl

/-- There are no blanks in the name of a parameter behind its marks. -/
theorem IsPlain.blank_marked (h : p.IsPlain) :
    ∀ c ∈ (if p.variadic then ['.', '.', '.'] else []) ++ '$' :: p.name.toList, isBlank c = false := by
  refine List.forall_mem_append.2 ⟨?_, List.forall_mem_cons.2 ⟨rfl, ?_⟩⟩
  · split <;> exact noBlank_of_any rfl
  · exact blank_of_isQualified (isQualified_of_ident h.name)

/-- The tag of a parameter is read as a tag. -/
theorem IsPlain.isTag (h : p.IsPlain) {hint : String} (hhint : IsHint hint) :
    DocBlock.IsTag ("param", p.tagValue hint) := by
  have hmarked := h.blank_marked
  have hparam : "param".toList ≠ [] ∧ ∀ c ∈ "param".toList, isBlank c = false :=
    ⟨by decide, noBlank_of_any (by decide)⟩
  refine ⟨hparam.1, hparam.2, trim_eq_self (fun c hc => ?_) fun c hc => ?_, fun hn => ?_⟩
  · rw [toList_tagValue, List.head?_append_of_ne_nil _ hhint.nonempty] at hc
    exact hhint.noBlank c (List.mem_of_mem_head? hc)
  · rw [toList_tagValue, List.getLast?_append_of_ne_nil _ (List.cons_ne_nil _ _),
      List.getLast?_cons_of_ne_nil (List.append_ne_nil_of_right_ne_nil _ (List.cons_ne_nil _ _))] at hc
    exact hmarked c (List.mem_of_getLast? hc)
  · rw [toList_tagValue, List.mem_append, List.mem_cons] at hn
    rcases hn with hn | hn | hn
    · exact absurd (hhint.noBlank _ hn) (by decide)
    · cases hn
    · exact absurd (hmarked _ hn) (by decide)

/-- The type and the name are read back from the tag of a parameter. -/
theorem IsPlain.splitParamTag? (h : p.IsPlain) {hint : String} (hhint : IsHint hint) :
    MethodSpec.splitParamTag? (p.tagValue hint) = some (hint, p.name) := by
  have htake {as : List Char} (bs : List Char) (ha : ∀ c ∈ as, isBlank c = false)
      (hb : ∀ c ∈ bs.head?, isBlank c = true) :
      (as ++ bs).takeWhile (!isBlank ·) = as := by
    rw [List.takeWhile_append_of_pos (by simpa using ha)]
    cases bs with
    | nil => simp
    | cons c bs => simp [hb c rfl]
  have hstart {cs : List Char} (hcs : ∀ c ∈ cs, isBlank c = false) : trimStart (' ' :: cs) = cs := by
    rw [trimStart, List.dropWhile_cons_of_pos rfl]
    cases cs with
    | nil => rfl
    | cons c cs => exact List.dropWhile_cons_of_neg (by simp [hcs c List.mem_cons_self])
  have hhint_eq : (p.tagValue hint).toList.takeWhile (!isBlank ·) = hint.toList := by
    rw [toList_tagValue]
    exact htake _ hhint.noBlank (by rintro c ⟨⟩; rfl)
  -- behind the blank stands the name with its marks, up to the end
  have hmarked : (trimStart ((p.tagValue hint).toList.drop hint.toList.length)).takeWhile (!isBlank ·) =
      (if p.variadic then ['.', '.', '.'] else []) ++ '$' :: p.name.toList := by
    have hall := htake [] h.blank_marked (fun c hc => by cases hc)
    rw [List.append_nil] at hall
    rw [toList_tagValue, List.drop_left, hstart h.blank_marked, hall]
  rw [MethodSpec.splitParamTag?, hhint_eq, hmarked]
  cases p.variadic <;> simp [MethodSpec.dropDots]

/-- A parameter shows a type only if it may: any type in the tag if types are declared, and else only its
own. -/
def ShowsHint (typed : Bool) (p : ParameterSpec) : Prop :=
  if typed then ∀ hint ∈ p.docHint?, IsHint hint else p.docHint? = none

/-- What the tag of a parameter shows makes the parameter of its declaration the parameter itself; without a
tag it is that already. -/
theorem IsPlain.docLine?_cases (h : p.IsPlain) (hshows : p.ShowsHint typed) :
    (p.docLine? typed = none ∧ p.declared typed = p) ∨
      ∃ hint, p.docLine? typed = some (p.tagValue hint) ∧ IsHint hint ∧
        (p.declared typed).withTag typed hint = p := by
  obtain ⟨name, type?, default?, byRef, variadic, docHint?, modifiers, attributes⟩ := p
  unfold ShowsHint at hshows
  dsimp only at hshows
  cases typed with
  | true =>
    cases docHint? with
    | none => cases type? <;> exact .inl ⟨rfl, rfl⟩
    | some hint => exact .inr ⟨hint, rfl, hshows hint rfl, rfl⟩
  | false =>
    obtain rfl : docHint? = none := hshows
    cases type? with
    | none => exact .inl ⟨rfl, rfl⟩
    | some t =>
      have ht : t.IsSpelled := (h.type t rfl).isSpelled
      refine .inr ⟨t.docType, rfl, ⟨ht.docType_ne_nil, ht.blank_docType⟩, ?_⟩
      rw [withTag, if_neg Bool.false_ne_true, ht.ofDocType?_docType]
      rfl

end ParameterSpec

end PhpGraft

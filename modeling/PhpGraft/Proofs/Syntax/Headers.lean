import PhpGraft.Proofs.Syntax.Statements
import PhpGraft.Syntax.Printer

/-!
# Lines written

The first lines of declarations show the parts of those declarations. Each is put together from its
words; a word ends where the blank or the sign behind it starts.
-/

namespace PhpGraft

open Lexer Text

/-- A type that is a single name. -/
def TypeHint.IsSingle (h : TypeHint) : Prop := isNameText h.name.toList = true

/-- A parameter that is written as its parts. -/
structure Param.IsPlain (p : Param) : Prop extends p.IsQuiet where
  name : isAsciiIdent p.name.toList = true
  single : ∀ h ∈ p.type?, h.IsSingle

namespace Lexes

variable {α : Type}

/-- A name that is an identifier. -/
theorem ident {s : String} (h : isAsciiIdent s.toList = true) : Lexes s.toList [.name s] Breaks :=
  name (isNameText_of_isQualified (isQualified_of_ident h))

/-- A variable whose name is an identifier. -/
theorem varIdent {s : String} (h : isAsciiIdent s.toList = true) :
    Lexes ("$" ++ s).toList [.var s] Breaks := by
  cases hs : s.toList with
  | nil => simp [hs, isAsciiIdent] at h
  | cons c cs =>
    rw [hs, isAsciiIdent, Bool.and_eq_true] at h
    have hstart : isIdentStart c = true := (isIdentStart_of_ascii h.1).1
    refine var (by simpa [hs] using hstart) (List.all_eq_true.2 fun d hd => ?_)
    rw [hs, List.mem_cons] at hd
    rcases hd with rfl | hd
    · exact isIdentChar_of_start hstart
    · exact isIdentChar_of_ascii (List.all_eq_true.1 h.2 d hd)

/-- A sign with a blank behind it. -/
theorem signBlank {c : Char} (h : isSign c = true) : Lexes [c, ' '] [.sign c] Anything :=
  (sign h).append_of_anything (blank (g := [' ']) rfl)

/-- What is written only under a condition. -/
theorem ite {p : Prop} [Decidable p] {cs : List Char} {ps : List Part} {ok : List Char → Prop}
    (h : p → Lexes cs ps ok) : Lexes (if p then cs else []) (if p then ps else []) ok := by
  split
  · next hp => exact h hp
  · exact nil

/-- Texts with commas between them. -/
theorem intercalate {f : α → String} {g : α → List Part} {xs : List α}
    (h : ∀ x ∈ xs, Lexes (f x).toList (g x) Breaks) :
    Lexes (", ".intercalate (xs.map f)).toList (commaParts g xs) Breaks := by
  induction xs with
  | nil => exact nil
  | cons x xs ih =>
    have hx := h x (List.mem_cons_self ..)
    have hxs := ih fun y hy => h y (List.mem_cons_of_mem _ hy)
    cases xs with
    | nil => exact hx
    | cons y xs =>
      rw [List.map_cons, List.map_cons, String.intercalate_cons_cons, String.toList_append,
        String.toList_append, List.append_assoc]
      exact hx.append ((signBlank (c := ',') rfl).append_of_anything hxs) fun f _ => breaks_cons rfl _

/-- Names with commas between them. -/
theorem names {names : List String} (h : ∀ n ∈ names, isNameText n.toList = true) :
    Lexes (", ".intercalate names).toList (commaParts (fun n => [.name n]) names) Breaks := by
  have := intercalate (f := id) (g := fun n => [Part.name n]) fun n hn => name (h n hn)
  rwa [List.map_id] at this

/-- The keywords of modifiers, each with a blank behind it. -/
theorem lead (ms : Modifiers) : Lexes ms.lead.toList ms.parts Anything := by
  have hkeyword (m : Modifier) :
      Lexes (m.keyword ++ " ").toList [.name m.keyword] Anything :=
    keyword (by cases m <;> decide) (String.toList_append ..)
  have hlist (l : List Modifier) : Lexes (String.join ((l.map Modifier.keyword).map (· ++ " "))).toList
      ((l.map Modifier.keyword).map Part.name) Anything := by
    induction l with
    | nil => exact nil
    | cons m l ih =>
      rw [List.map_cons, List.map_cons, List.map_cons, String.join_cons, String.toList_append]
      exact (hkeyword m).append_of_anything ih
  exact hlist _

/-- A type that is a single name. -/
theorem typeHint {h : TypeHint} (hs : h.IsSingle) : Lexes h.text.toList h.parts Breaks := by
  have hname := name hs
  rw [TypeHint.text, TypeHint.parts]
  cases h.nullable with
  | false => exact hname
  | true =>
    rw [if_pos rfl, if_pos rfl, String.toList_append]
    refine question.append hname fun f _ => ?_
    cases e : h.name.toList with
    | nil => simp [TypeHint.IsSingle, e, isNameText] at hs
    | cons c cs =>
      simp only [TypeHint.IsSingle, e, isNameText, Bool.and_eq_true] at hs
      rintro d ⟨⟩
      exact ⟨startsName_ne hs.1.2 rfl, startsName_ne hs.1.2 rfl⟩

/-- An equals sign between blanks. -/
theorem equalsBetween : Lexes " = ".toList [.sign '='] Anything := by
  have hblank : Lexes [' '] [] Anything := blank rfl
  have hequals : Lexes ['=', ' '] [.sign '='] Anything := equals.append hblank fun f _ => by
    rintro d ⟨⟩
    decide
  exact hblank.append_of_anything hequals

end Lexes

/-- What stands behind an optional value with a blank at its front breaks a word. -/
theorem breaks_getD_append {α : Type} {x? : Option α} {f : α → String} {rest : List Char}
    (h : Breaks rest) (hf : ∀ x, ∃ cs, (f x).toList = ' ' :: cs) :
    Breaks (((x?.map f).getD "").toList ++ rest) := by
  cases x? with
  | none => exact h
  | some x =>
    obtain ⟨cs, hcs⟩ := hf x
    rw [Option.map_some, Option.getD_some, hcs]
    exact breaks_cons rfl _

/-- A default value shows its parts. -/
theorem lexes_default {default? : Option Expr} (h : ∀ e ∈ default?, e.isPlain = true) :
    Lexes ((default?.map fun e => " = " ++ e.text).getD "").toList (defaultParts default?)
      Breaks := by
  cases default? with
  | none => exact .nil
  | some e =>
    have htext : ((some e).map fun e => " = " ++ e.text).getD "" = " = " ++ e.text := rfl
    rw [htext, String.toList_append]
    exact Lexes.equalsBetween.append_of_anything (Expr.lexes (h e rfl))

/-- A type with a blank behind it shows its parts. -/
theorem lexes_type {type? : Option TypeHint} (h : ∀ t ∈ type?, t.IsSingle) :
    Lexes ((type?.map fun t => t.text ++ " ").getD "").toList (typeParts type?) Anything := by
  cases type? with
  | none => exact .nil
  | some t =>
    have htext : ((some t).map fun t => t.text ++ " ").getD "" = t.text ++ " " := rfl
    rw [htext, String.toList_append]
    exact (Lexes.typeHint (h t rfl)).append_blank rfl rfl rfl

/-- The mark of a reference shows its parts. -/
theorem lexes_ref (byRef : Bool) :
    Lexes (if byRef then "&" else "").toList (refParts byRef) Anything := by
  cases byRef with
  | false => exact .nil
  | true => exact .sign (c := '&') rfl

/-- A parameter shows its parts. -/
theorem Param.lexes {p : Param} (hp : p.IsPlain) : Lexes p.text.toList p.parts Breaks := by
  have hdots : Lexes (if p.variadic then "..." else "").toList (dotsParts p.variadic) Anything := by
    cases p.variadic with
    | false => exact .nil
    | true => exact .ellipsis
  have hvar : Lexes (("$" ++ p.name).toList ++
      ((p.default?.map fun e => " = " ++ e.text).getD "").toList)
      (.var p.name :: defaultParts p.default?) Breaks :=
    (Lexes.varIdent hp.name).append (lexes_default hp.default) fun f hf =>
      breaks_getD_append hf fun e => ⟨_, String.toList_append ..⟩
  have hparts := (Lexes.lead p.modifiers).append_of_anything <|
    (lexes_type hp.single).append_of_anything <| (lexes_ref p.byRef).append_of_anything <|
      hdots.append_of_anything hvar
  have htext : p.text.toList = p.modifiers.lead.toList ++
      (((p.type?.map fun t => t.text ++ " ").getD "").toList ++
        ((if p.byRef then "&" else "").toList ++ ((if p.variadic then "..." else "").toList ++
          (("$" ++ p.name).toList ++
            ((p.default?.map fun e => " = " ++ e.text).getD "").toList)))) := by
    simp only [Param.text, hp.attributes, List.map_nil, String.join_nil, String.empty_append,
      String.toList_append, List.append_assoc]
  rw [htext]
  exact hparts

/-! ## Members -/

/-- A keyword with a blank behind it. -/
theorem lexes_keyword {s t : String} (ht : t = s ++ " ") (h : isNameText s.toList = true) :
    Lexes t.toList [.name s] Anything := by
  subst ht
  exact Lexes.keyword h (String.toList_append ..)

/-- A keyword between blanks. -/
theorem lexes_between {s t : String} (ht : t = " " ++ (s ++ " ")) (h : isNameText s.toList = true) :
    Lexes t.toList [.name s] Anything := by
  subst ht
  rw [String.toList_append]
  exact (Lexes.blank (g := [' ']) rfl).append_of_anything (lexes_keyword rfl h)

/-- A sign at the end of a line. -/
theorem lexes_sign {s : String} {c : Char} (hs : s.toList = [c]) (h : isSign c = true) :
    Lexes s.toList [.sign c] Anything := by
  rw [hs]
  exact .sign h

/-- A constant shows its parts. -/
theorem ConstDecl.lexes {d : ConstDecl} (hname : isAsciiIdent d.name.toList = true)
    (hvalue : d.value.isPlain = true) :
    Lexes d.text.toList (d.modifiers.parts ++ d.parts) Anything := by
  have hassigned : Lexes (d.name.toList ++ (" = ".toList ++ d.value.text.toList))
      (.name d.name :: .sign '=' :: d.value.parts) Breaks :=
    (Lexes.ident hname).append (Lexes.equalsBetween.append_of_anything (Expr.lexes hvalue))
      fun f _ => breaks_cons rfl _
  have hconst : Lexes ("const ".toList ++ ((d.name.toList ++ (" = ".toList ++ d.value.text.toList)) ++
      ";".toList)) d.parts Anything :=
    (lexes_keyword (s := "const") rfl rfl).append_of_anything
      (hassigned.append (lexes_sign (s := ";") rfl rfl) fun f _ => breaks_cons rfl _)
  have htext : d.text.toList = d.modifiers.lead.toList ++ ("const ".toList ++
      ((d.name.toList ++ (" = ".toList ++ d.value.text.toList)) ++ ";".toList)) := by
    simp only [ConstDecl.text, String.toList_append, List.append_assoc]
  rw [htext]
  exact (Lexes.lead d.modifiers).append_of_anything hconst

/-- A property shows its parts. -/
theorem PropertyDecl.lexes {d : PropertyDecl} (hname : isAsciiIdent d.name.toList = true)
    (htype : ∀ t ∈ d.type?, t.IsSingle) (hdefault : ∀ e ∈ d.default?, e.isPlain = true) :
    Lexes d.text.toList
      ((if d.modifiers.isEmpty then [.name "var"] else d.modifiers.parts) ++ d.parts) Anything := by
  have hannounced : Lexes (if d.modifiers.isEmpty then "var " else d.modifiers.lead).toList
      (if d.modifiers.isEmpty then [.name "var"] else d.modifiers.parts) Anything := by
    split
    · exact lexes_keyword rfl rfl
    · exact Lexes.lead d.modifiers
  have hvar : Lexes (("$" ++ d.name).toList ++
      ((d.default?.map fun e => " = " ++ e.text).getD "").toList)
      (.var d.name :: defaultParts d.default?) Breaks :=
    (Lexes.varIdent hname).append (lexes_default hdefault) fun f hf =>
      breaks_getD_append hf fun e => ⟨_, String.toList_append ..⟩
  have hparts := hannounced.append_of_anything <| (lexes_type htype).append_of_anything <|
    hvar.append (lexes_sign (s := ";") rfl rfl) fun f _ => breaks_cons rfl _
  have htext : d.text.toList = (if d.modifiers.isEmpty then "var " else d.modifiers.lead).toList ++
      (((d.type?.map fun t => t.text ++ " ").getD "").toList ++ ((("$" ++ d.name).toList ++
        ((d.default?.map fun e => " = " ++ e.text).getD "").toList) ++ ";".toList)) := by
    simp only [PropertyDecl.text, String.toList_append, List.append_assoc]
  rw [htext]
  exact hparts

/-- The parts of a method without its block. -/
def MethodDecl.headerParts (d : MethodDecl) : List Part :=
  d.modifiers.parts ++ .name "function" :: (refParts d.byRef ++ (.name d.name :: .sign '(' ::
    ((commaParts Param.parts d.params ++ [.sign ')']) ++ returnParts d.returns?)))

/-- The first line of a method shows its parts. -/
theorem MethodDecl.lexes {d : MethodDecl} (hname : isAsciiIdent d.name.toList = true)
    (hparams : ∀ p ∈ d.params, p.IsPlain) (hreturns : ∀ t ∈ d.returns?, t.IsSingle) :
    Lexes d.header.toList d.headerParts Breaks := by
  have hreturn : Lexes ((d.returns?.map fun t => ": " ++ t.text).getD "").toList
      (returnParts d.returns?) Breaks := by
    cases hr : d.returns? with
    | none => exact .nil
    | some t =>
      have htext : ((some t).map fun t => ": " ++ t.text).getD "" = ": " ++ t.text := rfl
      rw [htext, String.toList_append]
      have hblank : Lexes [' '] [] Anything := .blank rfl
      have hcolon : Lexes ": ".toList [.sign ':'] Anything := Lexes.colon.append hblank fun f _ => by
        rintro c ⟨⟩
        decide
      exact hcolon.append_of_anything (Lexes.typeHint (hreturns t hr))
  have hlist : Lexes (", ".intercalate (d.params.map Param.text)).toList
      (commaParts Param.parts d.params) Breaks := .intercalate fun p hp => Param.lexes (hparams p hp)
  have hparams : Lexes ((", ".intercalate (d.params.map Param.text)).toList ++ ")".toList)
      (commaParts Param.parts d.params ++ [.sign ')']) Anything :=
    hlist.append (lexes_sign (s := ")") rfl rfl) fun f _ => breaks_cons rfl _
  have hbehind := (lexes_sign (s := "(") rfl rfl).append_of_anything <|
    hparams.append_of_anything hreturn
  have hparts := (Lexes.lead d.modifiers).append_of_anything <|
    (lexes_keyword (s := "function") rfl rfl).append_of_anything <|
      (lexes_ref d.byRef).append_of_anything <|
        (Lexes.ident hname).append hbehind fun f _ => breaks_cons rfl _
  have htext : d.header.toList = d.modifiers.lead.toList ++ ("function ".toList ++
      ((if d.byRef then "&" else "").toList ++ (d.name.toList ++ ("(".toList ++
        (((", ".intercalate (d.params.map Param.text)).toList ++ ")".toList) ++
          ((d.returns?.map fun t => ": " ++ t.text).getD "").toList))))) := by
    simp only [MethodDecl.header, String.toList_append, List.append_assoc]
  rw [htext]
  exact hparts

/-! ## Statements -/

/-- The names behind `use` show their parts. -/
theorem lexes_traitUse {traits : List String} (h : ∀ n ∈ traits, isNameText n.toList = true) :
    Lexes ("use " ++ ", ".intercalate traits ++ ";").toList
      (.name "use" :: (commaParts (fun n => [.name n]) traits ++ [.sign ';'])) Anything := by
  rw [String.toList_append, String.toList_append, List.append_assoc]
  exact (lexes_keyword (s := "use") rfl rfl).append_of_anything <|
    (Lexes.names h).append (lexes_sign (s := ";") rfl rfl) fun f _ => breaks_cons rfl _

/-- An import shows its parts. -/
theorem lexes_useDecl {name : String} {alias? : Option String}
    (hname : isNameText name.toList = true) (halias : ∀ a ∈ alias?, isNameText a.toList = true) :
    Lexes ("use " ++ name ++ (alias?.map fun a => " as " ++ a).getD "" ++ ";").toList
      (PlainStatement.useDecl name alias?).parts Anything := by
  have hbehind : Lexes (((alias?.map fun a => " as " ++ a).getD "").toList ++ ";".toList)
      ((alias?.map fun a => [Part.name "as", .name a]).getD [] ++ [.sign ';']) Anything := by
    cases alias? with
    | none => exact lexes_sign (s := ";") rfl rfl
    | some a =>
      have has := lexes_between (s := "as") rfl rfl
      have htext : ((some a).map fun a => " as " ++ a).getD "" = " as " ++ a := rfl
      rw [htext, String.toList_append]
      exact (has.append_of_anything (Lexes.name (halias a rfl))).append
        (lexes_sign (s := ";") rfl rfl) fun f _ => breaks_cons rfl _
  have hparts := (lexes_keyword (s := "use") rfl rfl).append_of_anything <|
    (Lexes.name hname).append hbehind fun f _ => by
      rw [List.append_assoc]
      exact breaks_getD_append (breaks_cons rfl _) fun a => ⟨_, String.toList_append ..⟩
  rw [String.toList_append, String.toList_append, String.toList_append, List.append_assoc,
    List.append_assoc]
  exact hparts

/-- What follows the name of a class shows its parts. -/
theorem ClassDecl.lexes_heritage {d : ClassDecl}
    (hparent : ∀ p ∈ d.parent?, isNameText p.toList = true)
    (hinterfaces : ∀ n ∈ d.interfaces, isNameText n.toList = true) :
    Lexes d.heritage.toList (heritageParts d.parent? d.interfaces) Breaks := by
  have himplements : Lexes (if d.interfaces.isEmpty then ""
      else " implements " ++ ", ".intercalate d.interfaces).toList
      (if d.interfaces.isEmpty then []
        else .name "implements" :: commaParts (fun n => [.name n]) d.interfaces) Breaks := by
    split
    · exact .nil
    · rw [String.toList_append]
      exact (lexes_between (s := "implements") rfl rfl).append_of_anything (Lexes.names hinterfaces)
  have hextends : Lexes ((d.parent?.map fun p => " extends " ++ p).getD "").toList
      ((d.parent?.map fun p => [Part.name "extends", .name p]).getD []) Breaks := by
    cases hp : d.parent? with
    | none => exact .nil
    | some p =>
      have htext : ((some p).map fun p => " extends " ++ p).getD "" = " extends " ++ p := rfl
      rw [htext, String.toList_append]
      exact (lexes_between (s := "extends") rfl rfl).append_of_anything (Lexes.name (hparent p hp))
  rw [ClassDecl.heritage, String.toList_append]
  refine hextends.append himplements fun f hf => ?_
  split
  · exact hf
  · rw [String.toList_append]
    exact breaks_cons rfl _

/-- The first line of a class shows its parts. -/
theorem PlainClass.lexes {c : PlainClass} (hname : isAsciiIdent c.name.toList = true)
    (hparent : ∀ p ∈ c.parent?, isNameText p.toList = true)
    (hinterfaces : ∀ n ∈ c.interfaces, isNameText n.toList = true) :
    Lexes (c.modifiers.lead ++ "class " ++ c.name ++ c.decl.heritage).toList c.headParts Breaks := by
  have hheritage : Lexes c.decl.heritage.toList (heritageParts c.parent? c.interfaces) Breaks :=
    ClassDecl.lexes_heritage hparent hinterfaces
  have hbreaks (f : List Char) (hf : Breaks f) : Breaks (c.decl.heritage.toList ++ f) := by
    rw [ClassDecl.heritage, String.toList_append, List.append_assoc]
    refine breaks_getD_append ?_ fun p => ⟨_, String.toList_append ..⟩
    split
    · exact hf
    · rw [String.toList_append]
      exact breaks_cons rfl _
  have hparts := (Lexes.lead c.modifiers).append_of_anything <|
    (lexes_keyword (s := "class") rfl rfl).append_of_anything <|
      (Lexes.ident hname).append hheritage hbreaks
  rw [String.toList_append, String.toList_append, String.toList_append, List.append_assoc,
    List.append_assoc]
  exact hparts

/-- The line of a namespace shows its parts. -/
theorem lexes_namespace {name : String} (h : isNameText name.toList = true) :
    Lexes ("namespace " ++ name ++ ";").toList [.name "namespace", .name name, .sign ';']
      Anything := by
  rw [String.toList_append, String.toList_append, List.append_assoc]
  exact (lexes_keyword (s := "namespace") rfl rfl).append_of_anything <|
    (Lexes.name h).append (lexes_sign (s := ";") rfl rfl) fun f _ => breaks_cons rfl _

/-- The text of an expression does not continue an equals sign. -/
theorem Expr.apart {e : Expr} (h : e.isPlain = true) (f : List Char) :
    Lexes.Apart (e.text.toList ++ f) := by
  have hcons {c : Char} {cs : List Char} (hc : c ≠ '>' ∧ c ≠ ':') : Lexes.Apart (c :: cs) := by
    rintro d ⟨⟩
    exact hc
  have hname {s : String} (hs : isNameText s.toList = true) (g : List Char) :
      Lexes.Apart (s.toList ++ g) := by
    cases e : s.toList with
    | nil => simp [e, isNameText] at hs
    | cons c cs =>
      simp only [e, isNameText, Bool.and_eq_true] at hs
      exact hcons ⟨startsName_ne hs.1.2 rfl, startsName_ne hs.1.2 rfl⟩
  cases e with
  | null => exact hcons (by decide)
  | bool b => cases b <;> exact hcons (by decide)
  | int n =>
    cases n with
    | ofNat n =>
      rw [Expr.text, Decimal.intText, Decimal.natText, String.toList_ofList]
      cases e : Decimal.ofNat n with
      | nil => exact absurd e (Decimal.ofNat_ne_nil n)
      | cons c cs =>
        have hdigit : c.isDigit = true := Decimal.isDigit_of_mem_ofNat (e ▸ List.mem_cons_self ..)
        refine hcons ⟨?_, ?_⟩ <;> (rintro rfl; exact absurd hdigit (by decide))
    | negSucc n =>
      rw [Expr.text, Decimal.intText, String.toList_append]
      exact hcons (by decide)
  | string s =>
    rw [Expr.text, quoteString, String.toList_ofList]
    exact hcons (by decide)
  | array items =>
    rw [Expr.text, String.toList_append, String.toList_append]
    exact hcons (by decide)
  | const name =>
    rw [Expr.isPlain, Bool.and_eq_true] at h
    rw [Expr.text]
    exact hname h.1 f
  | classConst c name =>
    rw [Expr.isPlain, Bool.and_eq_true, Bool.and_eq_true] at h
    rw [Expr.text, String.toList_append, String.toList_append, List.append_assoc, List.append_assoc]
    exact hname h.1.1 _
  | float x | raw s => simp [Expr.isPlain] at h

/-- The line of a directive shows its parts. -/
theorem lexes_directive {key : String} {value : Expr} (hkey : isAsciiIdent key.toList = true)
    (hvalue : value.isPlain = true) :
    Lexes ("declare(" ++ key ++ "=" ++ value.text ++ ");").toList
      (PlainStatement.directive key value).parts Anything := by
  have hopen : Lexes "declare(".toList [.name "declare", .sign '('] Anything :=
    (Lexes.name (s := "declare") rfl).append (lexes_sign (s := "(") rfl rfl)
      fun f _ => breaks_cons rfl _
  have hclose : Lexes ");".toList [.sign ')', .sign ';'] Anything :=
    (lexes_sign (s := ")") rfl rfl).append_of_anything (lexes_sign (s := ";") rfl rfl)
  have hassigned : Lexes (key.toList ++ ("=".toList ++ value.text.toList))
      (.name key :: .sign '=' :: value.parts) Breaks :=
    (Lexes.ident hkey).append
      (Lexes.equals.append (Expr.lexes hvalue) fun f _ => Expr.apart hvalue f)
      fun f _ => breaks_cons rfl _
  have hparts := hopen.append_of_anything <| hassigned.append hclose fun f _ => breaks_cons rfl _
  have htext : ("declare(" ++ key ++ "=" ++ value.text ++ ");").toList = "declare(".toList ++
      ((key.toList ++ ("=".toList ++ value.text.toList)) ++ ");".toList) := by
    simp only [String.toList_append, List.append_assoc]
  rw [htext]
  exact hparts

end PhpGraft

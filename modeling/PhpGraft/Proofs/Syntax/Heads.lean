import PhpGraft.Proofs.Model.Name
import PhpGraft.Proofs.Syntax.Comments
import PhpGraft.Proofs.Syntax.Entries

/-!
# Nodes that were read

A name in a source is made of identifiers and backslashes (`Lexer.IsNameText`), so that the head of a
class or interface that was read is one line, and a namespace that has a name has one between its
backslashes. Source text that was read is not empty. So each node of a file that was read has a line of
its own (`Outline.isRead_of_parse`).
-/

namespace PhpGraft

open Text Lexer

/-! ## Names -/

/-- A text of identifiers and backslashes, and not of backslashes alone. -/
structure Lexer.IsNameText (cs : List Char) : Prop where
  /-- The characters of identifiers, and backslashes. -/
  chars : ∀ c ∈ cs, isIdentChar c = true ∨ c = '\\'
  /-- Something stands between the backslashes. -/
  named : ∃ c ∈ cs, c ≠ '\\'

/-- A token with a text that is one of its kind. Only the end of the source has no text. -/
structure Token.IsRead (t : Token) : Prop where
  /-- The token has a text. -/
  text : t.kind ≠ .eof → t.text ≠ []
  /-- The text of a name is one. -/
  name : t.kind = .name → IsNameText t.text
  /-- The text of a single character is that character. -/
  punct : ∀ c, t.kind = .punct c → t.text = [c]
  /-- The text of a close tag is one. -/
  closeTag : t.kind = .closeTag → t.text = ['?', '>']

namespace Lexer

variable {c : Char} {cs : List Char} {start : Nat} {ts : List Token}

/-- What continues a name is made of identifiers and backslashes. -/
theorem forall_take_nameLength (cs : List Char) :
    ∀ c ∈ cs.take (nameLength cs), isIdentChar c = true ∨ c = '\\' := by
  induction cs with
  | nil => exact List.forall_mem_nil _
  | cons c cs ih =>
    unfold nameLength
    split
    · next hc =>
      rw [List.take_succ_cons]
      refine List.forall_mem_cons.2 ⟨?_, ih⟩
      rw [Bool.or_eq_true, Bool.and_eq_true, beq_iff_eq] at hc
      exact hc.imp id And.left
    · exact List.forall_mem_nil _

/-- What starts a name and what continues it are a name. -/
theorem isNameText_of_startsName (h : startsName c cs = true) :
    IsNameText (c :: cs.take (nameLength cs)) := by
  rw [startsName, Bool.or_eq_true, Bool.and_eq_true, beq_iff_eq] at h
  refine ⟨List.forall_mem_cons.2 ⟨h.imp isIdentChar_of_start And.left, forall_take_nameLength cs⟩, ?_⟩
  rcases h with hc | ⟨-, hnext⟩
  · refine ⟨c, List.mem_cons_self, ?_⟩
    rintro rfl
    exact absurd hc (by decide)
  · cases cs with
    | nil => cases hnext
    | cons d cs =>
      -- the backslash at the front is followed by an identifier
      have hd : isIdentStart d = true := hnext
      rw [nameLength, if_pos (by rw [isIdentChar_of_start hd, Bool.true_or]), List.take_succ_cons]
      refine ⟨d, List.mem_cons_of_mem _ List.mem_cons_self, ?_⟩
      rintro rfl
      exact absurd hd (by decide)

/-- The tokens of a source have texts of their kinds. -/
theorem isRead_of_tokens (h : tokens start cs = .ok ts) : ∀ t ∈ ts, t.IsRead := by
  induction ts generalizing start cs with
  | nil => exact List.forall_mem_nil _
  | cons t ts ih =>
    obtain ⟨g, -, ⟨-, hts⟩ | ⟨c, rest, kind, n, more, -, hs, hm, hts⟩⟩ := tokens_cases h
    · obtain ⟨rfl, rfl⟩ := List.cons.inj hts
      exact List.forall_mem_singleton.2 ⟨fun he => absurd rfl he, nofun, nofun, nofun⟩
    · obtain ⟨rfl, rfl⟩ := List.cons.inj hts
      have hstands := naming_scan c rest kind n hs
      refine List.forall_mem_cons.2 ⟨⟨fun _ => List.cons_ne_nil _ _, fun hname => ?_, fun p hp => ?_,
        fun htag => ?_⟩, ih hm⟩
      · obtain rfl : kind = .name := hname
        obtain ⟨hstart, rfl⟩ := hstands
        exact isNameText_of_startsName hstart
      · obtain rfl : kind = .punct p := hp
        obtain ⟨rfl, rfl⟩ := hstands
        rfl
      · obtain rfl : kind = .closeTag := htag
        obtain ⟨rfl, hhead, rfl⟩ := hstands
        obtain ⟨rest, rfl⟩ := List.head?_eq_some_iff.1 hhead
        rfl

/-- The tokens of a file behind the first one have texts of their kinds. -/
theorem isRead_of_file {source : String} (h : file source = .ok ts) : ∀ t ∈ ts.tail, t.IsRead := by
  obtain ⟨before, code, more, -, -, hm, rfl⟩ | ⟨-, rfl⟩ := file_cases h
  · exact isRead_of_tokens hm
  · exact List.forall_mem_nil _

/-- What is left of a name without the backslashes at its ends is not empty. -/
theorem IsNameText.bare_ne {name : String} (h : IsNameText name.toList) : Name.bare name ≠ "" :=
  have ⟨_, hc, hne⟩ := h.named
  Name.bare_ne_of_mem hc hne

end Lexer

/-! ## Lines -/

/-- A text without newlines and carriage returns. -/
def IsLine (s : String) : Prop := ∀ c ∈ s.toList, c ≠ '\n' ∧ c ≠ '\r'

instance (s : String) : Decidable (IsLine s) :=
  List.decidableBAll (fun c => c ≠ '\n' ∧ c ≠ '\r') s.toList

namespace IsLine

variable {s s' : String}

/-- Nothing is a line. -/
theorem empty : IsLine "" := by decide

/-- A line behind a line is a line. -/
theorem append (h : IsLine s) (h' : IsLine s') : IsLine (s ++ s') := by
  unfold IsLine
  rw [String.toList_append]
  exact List.forall_mem_append.2 ⟨h, h'⟩

/-- A line or another one is a line. -/
theorem ite {p : Prop} [Decidable p] (h : IsLine s) (h' : IsLine s') : IsLine (if p then s else s') := by
  split
  · exact h
  · exact h'

/-- Lines put together are a line. -/
theorem join {ls : List String} (h : ∀ l ∈ ls, IsLine l) : IsLine (String.join ls) := by
  intro c hc
  rw [String.toList_join, List.mem_flatMap] at hc
  obtain ⟨l, hl, hc⟩ := hc
  exact h l hl c hc

/-- Names are lines. -/
theorem of_isNameText (h : IsNameText s.toList) : IsLine s := by
  intro c hc
  constructor <;> rintro rfl <;> exact absurd (h.chars _ hc) (by decide)

/-- Names with commas between them are a line. -/
theorem commaNames {names : List String} (h : ∀ name ∈ names, IsNameText name.toList) :
    IsLine (", ".intercalate names) := by
  match names with
  | [] => decide
  | [name] => exact of_isNameText (h name List.mem_cons_self)
  | name :: next :: names =>
    obtain ⟨hname, hnames⟩ := List.forall_mem_cons.1 h
    rw [String.intercalate_cons_cons]
    exact ((of_isNameText hname).append (by decide)).append (commaNames hnames)

/-- The keywords ahead of a class are on its line. -/
theorem lead (modifiers : Modifiers) : IsLine modifiers.lead := by
  refine join fun l hl => ?_
  obtain ⟨keyword, hkeyword, rfl⟩ := List.mem_map.1 hl
  obtain ⟨m, -, rfl⟩ := List.mem_map.1 hkeyword
  cases m <;> decide

end IsLine

/-! ## Kinds -/

/-- A kind of node that was read: nodes of it have a line of their own, the head of a class or interface
is one line, and a namespace has a name between its backslashes if it has one. -/
structure NodeKind.IsRead (kind : NodeKind) : Prop where
  /-- Nodes of the kind have a line of their own. -/
  hasLine : kind.HasLine
  /-- The head is one line. -/
  head : IsLine kind.headLine
  /-- The name of a namespace is one, or it is empty. -/
  scope : ∀ name, kind = .namespaceDecl name → name = "" ∨ IsNameText name.toList

/-- The line that starts a class whose names are names. -/
theorem ClassDecl.isLine_head {d : ClassDecl} (hname : ∀ name ∈ d.name?, IsNameText name.toList)
    (hparent : ∀ name ∈ d.parent?, IsNameText name.toList)
    (hinterfaces : ∀ name ∈ d.interfaces, IsNameText name.toList) :
    IsLine (NodeKind.classDecl d).headLine := by
  have hheritage : IsLine d.heritage := by
    refine .append ?_ (.ite (by decide) (.append (by decide) (.commaNames hinterfaces)))
    cases hp : d.parent? with
    | none => decide
    | some parent => exact .append (s := " extends ") (by decide) (.of_isNameText (hparent parent hp))
  rw [NodeKind.headLine]
  cases hn : d.name? with
  | none => exact .append (.append (by decide) hheritage) (by decide)
  | some name =>
    exact .append (.append (.append (.lead _) (by decide)) (.of_isNameText (hname name hn))) hheritage

/-- The line that starts an interface whose names are names. -/
theorem InterfaceDecl.isLine_head {d : InterfaceDecl} (hname : IsNameText d.name.toList)
    (hparents : ∀ name ∈ d.parents, IsNameText name.toList) :
    IsLine (NodeKind.interfaceDecl d).headLine :=
  .append (.append (by decide) (.of_isNameText hname))
    (.ite (by decide) (.append (by decide) (.commaNames hparents)))

namespace Reader

variable {file : List Token} {α : Type}

/-- A token that is taken is one of the tokens. -/
theorem draws_expect {p : Token → Bool} (hp : FailsEnd p) :
    Draws file (expect p) fun t => t ∈ file ∧ p t = true := by
  intro ts t rest hts h
  refine ⟨leaves_expect hp h, ?_⟩
  unfold expect at h
  split at h
  · next hpeek =>
    obtain ⟨rfl, -⟩ := Prod.mk.inj (Option.some.inj h)
    exact ⟨hts.mem (peek_mem (hp hpeek)), hpeek⟩
  · cases h

/-- Things with commas between them have a property that each one has. -/
theorem Draws.commaList {item : Reader α} {hitem : Advances item} {P : α → Prop}
    (h : Draws file item P) : Draws file (commaList item hitem) fun xs => ∀ x ∈ xs, P x := by
  intro ts xs rest hts hxs
  unfold Reader.commaList at hxs
  split at hxs
  · cases hxs
  · next x mid hx =>
    have := hitem hx
    have := length_advance_le mid
    obtain ⟨hmid, hP⟩ := h hts hx
    split at hxs
    · next hcomma =>
      split at hxs
      · cases hxs
      · next ys last hys =>
        obtain ⟨rfl, rfl⟩ := Prod.mk.inj (Option.some.inj hxs)
        have hbehind := (restOf_advance (failsEnd_isPunct _) hcomma).trans hmid
        obtain ⟨hlast, hall⟩ := Draws.commaList h (hbehind.suffix.trans hts) hys
        exact ⟨hlast.trans hbehind, List.forall_mem_cons.2 ⟨hP, hall⟩⟩
    · obtain ⟨rfl, rfl⟩ := Prod.mk.inj (Option.some.inj hxs)
      exact ⟨hmid, List.forall_mem_singleton.2 hP⟩
termination_by ts => ts.length

variable (hfile : ∀ t ∈ file, t.IsRead)

section Names

include hfile

/-- What is read as a name is one. -/
theorem draws_name : Draws file name fun s => IsNameText s.toList := by
  refine (draws_expect (failsEnd_kind .name (by decide))).bind fun t ⟨hmem, hname⟩ => .pure ?_
  rw [Token.source, String.toList_ofList]
  exact (hfile t hmem).name (eq_of_beq hname)

/-- A name behind a keyword is one. -/
theorem draws_nameBehind (keyword : String) :
    Draws file (nameBehind keyword) fun name? => ∀ name ∈ name?, IsNameText name.toList := by
  refine (leaves_eatKeyword _).draws.bind fun _ _ => .ite ?_ (.pure nofun)
  refine (draws_name hfile).bind fun name hname => .pure fun other hother => ?_
  obtain rfl := Option.some.inj hother
  exact hname

/-- Names behind a keyword are names. -/
theorem draws_namesBehind (keyword : String) :
    Draws file (namesBehind keyword) fun names => ∀ name ∈ names, IsNameText name.toList :=
  (leaves_eatKeyword _).draws.bind fun _ _ =>
    .ite (draws_name hfile).commaList (.pure (List.forall_mem_nil _))

/-- The head of a class whose name is one is a line. -/
theorem draws_classHeritage {name? : Option String} (hname : ∀ name ∈ name?, IsNameText name.toList)
    (modifiers : Modifiers) :
    Draws file (classHeritage name? modifiers) fun d => IsLine (NodeKind.classDecl d).headLine :=
  (draws_nameBehind hfile _).bind fun _ hparent => (draws_namesBehind hfile _).bind fun _ hinterfaces =>
    .pure (ClassDecl.isLine_head hname hparent hinterfaces)

/-- The head of a class or interface that was read is a line. -/
theorem draws_classLikeHead : Draws file classLikeHead fun kind =>
    kind.category.isClassLike = true ∧ IsLine kind.headLine := by
  have hinterface : Draws file interfaceHead fun d => IsLine (NodeKind.interfaceDecl d).headLine :=
    (leaves_expectKeyword _).draws.bind fun _ _ => (draws_name hfile).bind fun _ hname =>
      (draws_namesBehind hfile _).bind fun _ hparents => .pure (InterfaceDecl.isLine_head hname hparents)
  have hanonymous : Draws file anonymousClass fun d => IsLine (NodeKind.classDecl d).headLine :=
    (leaves_expectKeyword _).draws.bind fun _ _ => (leaves_expectKeyword _).draws.bind fun _ _ =>
      (leaves_expectKeyword _).draws.bind fun _ _ =>
        draws_classHeritage hfile (fun name hname => absurd hname (Option.not_mem_none name)) _
  have hnamed : Draws file namedClass fun d => IsLine (NodeKind.classDecl d).headLine := by
    refine (leaves_classModifiers _).draws.bind fun _ _ => (draws_name hfile).bind fun name hname => ?_
    refine draws_classHeritage hfile (fun other hother => ?_) _
    obtain rfl := Option.some.inj hother
    exact hname
  have hmap {α : Type} {r : Reader α} {kind : α → NodeKind}
      (hlike : ∀ x, (kind x).category.isClassLike = true)
      (hr : Draws file r fun x => IsLine (kind x).headLine) : Draws file (kind <$> r) fun kind =>
        kind.category.isClassLike = true ∧ IsLine kind.headLine :=
    hr.map fun x hline => ⟨hlike x, hline⟩
  intro ts kind rest hts h
  unfold classLikeHead at h
  repeat' split at h
  · exact hmap (fun _ => rfl) hinterface hts h
  · exact hmap (fun _ => rfl) hanonymous hts h
  · exact hmap (fun _ => rfl) hnamed hts h

end Names

end Reader

/-! ## Source text -/

/-- The comments in a gap are not empty. -/
theorem GapParts.ne_nil_of_mem {gap : List Char} {c : GapComment} (h : c ∈ (ofGap gap).comments) :
    c.text ≠ [] := by
  fun_induction ofGap gap with
  | case1 => cases h
  | case2 => cases h
  | case3 gap c' cs hdrop n hn rest ih =>
    rcases List.mem_cons.1 h with rfl | h
    · exact List.cons_ne_nil _ _
    · exact ih h

/-- The runs of comments that are not empty are not empty. -/
theorem CommentRun.ne_nil_of_followedBy {run r : CommentRun} {cs : List GapComment}
    (hrun : run.text ≠ []) (hcs : ∀ c ∈ cs, c.text ≠ []) (h : r ∈ run.followedBy cs) : r.text ≠ [] := by
  induction cs generalizing run with
  | nil => exact List.mem_singleton.1 h ▸ hrun
  | cons c cs ih =>
    obtain ⟨hc, hcs⟩ := List.forall_mem_cons.1 hcs
    rw [followedBy] at h
    split at h
    · refine ih (fun hnil => ?_) hcs h
      exact hc (List.append_eq_nil_iff.1 hnil).2
    · rcases List.mem_cons.1 h with rfl | h
      · exact hrun
      · exact ih hc hcs h

/-- Comments that stand by themselves are not empty. -/
theorem Placement.ne_nil_of_mem {gap text : List Char} {afterItem atEnd : Bool}
    (h : text ∈ (Placement.ofGap gap afterItem atEnd).detached) : text ≠ [] := by
  obtain ⟨r, hr, rfl⟩ := Placement.exists_run h
  have hcomments : ∀ c ∈ (GapParts.ofGap gap).comments, c.text ≠ [] := fun _ => GapParts.ne_nil_of_mem
  unfold CommentRun.ofComments at hr
  split at hr
  · cases hr
  · next c cs hgap =>
    rw [hgap] at hcomments
    obtain ⟨hc, hcs⟩ := List.forall_mem_cons.1 hcomments
    exact CommentRun.ne_nil_of_followedBy hc hcs hr

namespace NodeKind.IsRead

/-- Source text that is not empty was read. -/
theorem verbatim {text : List Char} (h : text ≠ []) : (NodeKind.verbatim (String.ofList text)).IsRead where
  hasLine he := h (by simpa using congrArg String.toList he)
  head := .empty
  scope _ := nofun

/-- Directives, imports and members have nothing to ask for. -/
theorem of_category {kind : NodeKind}
    (h : kind.category = .directive ∨ kind.category = .useDecl ∨ kind.category.memberRank?.isSome = true) :
    kind.IsRead := by
  cases kind with
  | directive | useDecl | traitUse | constDecl | propertyDecl | methodDecl =>
    exact ⟨trivial, IsLine.empty, nofun⟩
  | _ => simp [category, Category.memberRank?] at h

/-- Classes and interfaces whose heads are lines have nothing else to ask for. -/
theorem of_isClassLike {kind : NodeKind} (h : kind.category.isClassLike = true)
    (hline : IsLine kind.headLine) : kind.IsRead := by
  cases kind with
  | classDecl | interfaceDecl => exact ⟨trivial, hline, nofun⟩
  | _ => cases h

end NodeKind.IsRead

namespace Reader

/-- Everything that is read in a file is of such a kind. -/
theorem makes_isRead {file : List Token} (hfile : ∀ t ∈ file, t.IsRead) : Makes file NodeKind.IsRead where
  directive := draws_directive fun _ _ => .of_category (.inl rfl)
  imports := draws_imports fun _ _ => .of_category (.inr (.inl rfl))
  classLikeHead _ _ _ hts h :=
    (draws_classLikeHead hfile hts h).imp id fun ⟨hlike, hline⟩ => .of_isClassLike hlike hline
  memberKinds := draws_memberKinds (fun _ => .of_category (.inr (.inr rfl)))
    (fun _ => .of_category (.inr (.inr rfl))) (fun _ _ => .of_category (.inr (.inr rfl)))
    fun _ _ _ => .of_category (.inr (.inr rfl))
  namespaceDecl ts hts := by
    refine ⟨trivial, IsLine.empty, fun name hname => ?_⟩
    rw [← NodeKind.namespaceDecl.inj hname]
    unfold namespaceName
    split
    · next hpeek =>
      have hexpect : expect (·.kind == .name) ts = some (peek ts, advance ts) := if_pos hpeek
      have hmem := (draws_expect (failsEnd_kind .name (by decide)) hts hexpect).2.1
      rw [Token.source, String.toList_ofList]
      exact .inr ((hfile _ hmem).name (eq_of_beq hpeek))
    · exact .inl rfl
  statement ts taken rest hts hclose h := by
    refine .verbatim ?_
    cases ts with
    | nil => cases h
    | cons t ts =>
      have htaken : taken ≠ [] := ne_nil_of_statementSpan h fun ht => hclose (by
        simp [peek, skipDocs, isDoc, ht])
      obtain ⟨first, more, rfl⟩ := List.exists_cons_of_ne_nil htaken
      obtain ⟨rfl, -⟩ := List.cons.inj (append_of_statementSpan h)
      have heof : first.kind ≠ .eof := fun he => by
        rw [statementSpan, if_pos (beq_of_eq he)] at h
        cases h
      have htext := (hfile first (hts.mem List.mem_cons_self)).text heof
      exact fun hnil => htext (List.append_eq_nil_iff.1 hnil).1
  comments _ _ _ _ h := .verbatim (Placement.ne_nil_of_mem h)

end Reader

/-- The statements of a file that was read are made of nodes that were read. -/
theorem Outline.isRead_of_parse {source : String} {file : Outline}
    (h : Outline.parse source = .ok file) :
    ∃ statements, file = .file statements ∧ ∀ o ∈ statements, o.AllKinds NodeKind.IsRead := by
  obtain ⟨ts, statements, hfile, rfl, hall⟩ := Outline.all_of_parse h
  exact ⟨statements, rfl, hall _ (Reader.makes_isRead (Lexer.isRead_of_file hfile))⟩

end PhpGraft

import PhpGraft.Proofs.Syntax.Blocks
import PhpGraft.Proofs.Syntax.DocComments
import PhpGraft.Proofs.Syntax.Headers
import PhpGraft.Syntax.Printer

/-!
# Printed files

What a step of the printer adds to the text shows certain parts, whatever was written before and
however deep the step writes. The printer of an outline is put together from such steps, and so the
text of a file shows the parts of its statements.
-/

namespace PhpGraft

open Lexer Text

namespace LineBuffer

/-- A buffer with more text at its end, at the depth of the other one. -/
structure Adds (b b' : LineBuffer) (cs : List Char) : Prop where
  indent : b'.indent = b.indent
  depth : b'.depth = b.depth
  text : b'.text.toList = b.text.toList ++ cs

/-- A step of the printer whose text shows some parts. -/
def Emits (f : LineBuffer → LineBuffer) (ps : List Part) : Prop :=
  ∀ b, ∃ cs, Adds b (f b) cs ∧ Lexes cs ps Anything

variable {b b' b'' : LineBuffer} {cs ds : List Char}

/-- More text behind more text. -/
theorem Adds.trans (h₁ : Adds b b' cs) (h₂ : Adds b' b'' ds) : Adds b b'' (cs ++ ds) where
  indent := h₂.indent.trans h₁.indent
  depth := h₂.depth.trans h₁.depth
  text := by rw [h₂.text, h₁.text, List.append_assoc]

/-- A line is its text and a newline. -/
theorem adds_raw (b : LineBuffer) (s : String) : Adds b (b.raw s) (s.toList ++ ['\n']) where
  indent := rfl
  depth := rfl
  text := by
    simp [LineBuffer.text, raw, String.toList_join]

/-- One level of indentation is white space. -/
theorem isMargin_unit (i : Indent) : IsMargin i.unit.toList := by
  cases i with
  | spaces width =>
    have hpush (n : Nat) : IsMargin (Nat.repeat (fun s : String => s.push ' ') n "").toList := by
      induction n with
      | zero => exact nofun
      | succ n ih =>
        intro c hc
        rw [Nat.repeat, String.toList_push, List.mem_append] at hc
        exact hc.elim (ih c) fun h => .inl (List.mem_singleton.1 h)
    rw [Indent.unit, String.pushn_eq_repeat_push]
    exact hpush _
  | tab => exact fun c hc => .inr (List.mem_singleton.1 hc)

/-- What stands ahead of a line is white space. -/
theorem isMargin_margin (b : LineBuffer) : IsMargin b.margin.toList := by
  intro c hc
  rw [margin, String.toList_join, List.mem_flatMap] at hc
  obtain ⟨s, hs, hc⟩ := hc
  rw [List.eq_of_mem_replicate hs] at hc
  exact isMargin_unit _ c hc

/-- More text leaves the margin as it is. -/
theorem Adds.margin_eq (h : Adds b b' cs) : b'.margin = b.margin := by
  rw [margin, margin, h.indent, h.depth]

/-- A line stands behind the margin. -/
theorem adds_line (b : LineBuffer) (s : String) :
    Adds b (b.line s) (b.margin.toList ++ (s.toList ++ ['\n'])) := by
  have := b.adds_raw (b.margin ++ s)
  rwa [String.toList_append, List.append_assoc] at this

/-- An empty line has no margin. -/
theorem adds_lineOrBlank (b : LineBuffer) (s : String) :
    Adds b (b.lineOrBlank s) (indented b.margin.toList s.toList ++ ['\n']) := by
  rw [lineOrBlank, indented]
  by_cases hs : s = ""
  · rw [hs]
    exact b.adds_raw ""
  · rw [if_neg (by simpa using hs), if_neg (by simpa using hs), List.append_assoc]
    exact b.adds_line s

/-- A line of a body is written as it is if it is raw. -/
theorem adds_bodyLine (b : LineBuffer) (l : BodyLine) :
    Adds b (b.bodyLine l) (Body.written b.margin.toList l ++ ['\n']) := by
  rw [bodyLine, Body.written]
  split
  · exact b.adds_raw l.text
  · exact b.adds_lineOrBlank l.text

/-- Steps that each write a text that depends on the margin write these texts. -/
theorem adds_foldl {α : Type} {step : LineBuffer → α → LineBuffer} (line : List Char → α → List Char)
    (h : ∀ b x, Adds b (step b x) (line b.margin.toList x)) (xs : List α) (b : LineBuffer) :
    Adds b (xs.foldl step b) (xs.flatMap (line b.margin.toList)) := by
  induction xs generalizing b with
  | nil => exact ⟨rfl, rfl, by simp⟩
  | cons x xs ih =>
    have hfirst := h b x
    have hrest := ih (step b x)
    rw [hfirst.margin_eq] at hrest
    exact hfirst.trans hrest

/-- What is written one level deeper is added at the depth of the buffer. -/
theorem Adds.nested {f : LineBuffer → LineBuffer} (h : Adds b.deeper (f b.deeper) cs) :
    Adds b (b.nested f) cs where
  indent := h.indent
  depth := by
    change (f b.deeper).depth - 1 = b.depth
    rw [h.depth]
    rfl
  text := h.text

namespace Emits

variable {f g : LineBuffer → LineBuffer} {ps qs : List Part}

/-- Nothing shows nothing. -/
theorem nil : Emits (fun b => b) [] := fun b => ⟨[], ⟨rfl, rfl, by simp⟩, .nil⟩

/-- A step that does the same shows the same. -/
theorem congr (hf : Emits f ps) (h : ∀ b, g b = f b) : Emits g ps := by
  rwa [funext h]

/-- One step behind another. -/
theorem comp (hf : Emits f ps) (hg : Emits g qs) : Emits (fun b => g (f b)) (ps ++ qs) := by
  intro b
  obtain ⟨cs, hcs, hps⟩ := hf b
  obtain ⟨ds, hds, hqs⟩ := hg (f b)
  exact ⟨cs ++ ds, hcs.trans hds, hps.append_of_anything hqs⟩

/-- One level deeper, a step shows the same. -/
theorem nested (hf : Emits f ps) : Emits (fun b => b.nested f) ps := by
  intro b
  obtain ⟨cs, hcs, hps⟩ := hf b.deeper
  exact ⟨cs, hcs.nested, hps⟩

/-- A line shows what its text shows ahead of a newline. -/
theorem line {s : String} (h : Lexes s.toList ps Breaks) : Emits (fun b => b.line s) ps := by
  intro b
  have hline : Lexes (s.toList ++ ['\n']) ps Anything := h.append_blank (g := []) rfl rfl rfl
  exact ⟨_, b.adds_line s, (Lexes.blank b.isMargin_margin.blank).append_of_anything hline⟩

/-- An empty line shows nothing. -/
theorem blank : Emits LineBuffer.blank [] := fun b => ⟨_, b.adds_raw "", .blank rfl⟩

/-- A block on lines of its own is one block. -/
theorem block {body : Body} (h : body.Enclosable) :
    Emits (fun b => ((b.line "\x7b").block body).line "\x7d") [.block body] := by
  intro b
  have hopen := b.adds_line "\x7b"
  have hbody : Adds (b.line "\x7b") ((b.line "\x7b").block body) _ :=
    (adds_foldl (fun m l => Body.written m l ++ ['\n']) adds_bodyLine body.lines
      (b.line "\x7b").deeper).nested
  have hclose := ((b.line "\x7b").block body).adds_line "\x7d"
  rw [hbody.margin_eq, hopen.margin_eq] at hclose
  refine ⟨_, (hopen.trans hbody).trans hclose, ?_⟩
  have hblock := h.lexes (b.line "\x7b").deeper.isMargin_margin b.isMargin_margin
  have hnewline : Lexes ['\n'] [] Anything := .blank rfl
  have hline := hblock.append_of_anything hnewline
  have htext := (Lexes.blank b.isMargin_margin.blank).append_of_anything hline
  have hbraces : "\x7b".toList = ['{'] ∧ "\x7d".toList = ['}'] := ⟨rfl, rfl⟩
  simpa only [hbraces, List.append_assoc, List.cons_append, List.nil_append, List.append_nil] using
    htext

end Emits

end LineBuffer

/-! ## Members -/

/-- A doc comment that can be written and read back. -/
def IsStored (d : String) : Prop := ∃ a ls, StoredDoc a ls ∧ d.toList = docText a ls

/-- A stored doc comment is written behind the margin, and each of its other lines behind one of its own. -/
theorem LineBuffer.adds_doc (b : LineBuffer) {a : List Char} {ls : List (List Char)} (h : StoredDoc a ls)
    {d : String} (hd : d.toList = docText a ls) :
    Adds b (b.lines (linesOf d))
      (b.margin.toList ++ (docText a (ls.map (indented b.margin.toList)) ++ ['\n'])) := by
  have hlines : linesOf d = (('/' :: '*' :: '*' :: a) :: ls).map String.ofList := by
    rw [linesOf, hd, h.self_eq.2]
  have htext := adds_foldl (fun m s => indented m s.toList ++ ['\n']) adds_lineOrBlank (linesOf d) b
  rw [hlines, List.flatMap_map] at htext
  have hfront (m : List Char) : indented m ('/' :: '*' :: '*' :: a) = m ++ '/' :: '*' :: '*' :: a :=
    if_neg fun h => by cases h
  have hjoin := joinWith_concat ('/' :: '*' :: '*' :: a) (ls.map (indented b.margin.toList))
  rw [List.flatMap_cons, List.flatMap_map] at hjoin
  have hsame : (('/' :: '*' :: '*' :: a) :: ls).flatMap
        (fun l => indented b.margin.toList (String.ofList l).toList ++ ['\n']) =
      b.margin.toList ++ (docText a (ls.map (indented b.margin.toList)) ++ ['\n']) := by
    rw [docText, hjoin, List.flatMap_cons, String.toList_ofList, hfront]
    simp only [String.toList_ofList, List.append_assoc]
  rw [hlines, ← hsame]
  exact htext

namespace LineBuffer.Emits

/-- The lines of a stored doc comment are one doc comment. -/
theorem doc {d : String} (h : IsStored d) : Emits (fun b => b.lines (linesOf d)) [.doc d] := by
  obtain ⟨a, ls, hstored, hd⟩ := h
  intro b
  refine ⟨_, b.adds_doc hstored hd, ?_⟩
  have hdoc := hstored.lexes b.isMargin_margin
  rw [← hd, String.ofList_toList] at hdoc
  have hnewline : Lexes ['\n'] [] Anything := .blank rfl
  have hline := hdoc.append_of_anything hnewline
  exact (Lexes.blank b.isMargin_margin.blank).append_of_anything hline

/-- What stands above a node without comments and attributes is its doc comment. -/
theorem preamble {n : Node} (hcomment : n.comment? = none) (hattributes : n.attributes = [])
    (hdoc : ∀ d ∈ n.doc?, IsStored d) : Emits (fun b => b.preamble n) (docParts n.doc?) := by
  unfold LineBuffer.preamble
  rw [hcomment, hattributes]
  cases h : n.doc? with
  | none => exact nil
  | some d => exact doc (hdoc d h)

end LineBuffer.Emits

/-- A member that can be written and read back: its names are names, its values are plain, and its
body can stand between braces. -/
def NodeKind.IsWritten : NodeKind → Prop
  | .traitUse traits adaptations? =>
    traits ≠ [] ∧ adaptations? = none ∧ ∀ n ∈ traits, isNameText n.toList = true
  | .constDecl d => isAsciiIdent d.name.toList = true ∧ d.value.isPlain = true
  | .propertyDecl d =>
    isAsciiIdent d.name.toList = true ∧ (∀ t ∈ d.type?, t.IsSingle ∧ t.IsQuiet) ∧
      ∀ e ∈ d.default?, e.isPlain = true
  | .methodDecl d =>
    isAsciiIdent d.name.toList = true ∧ (∀ p ∈ d.params, p.IsPlain) ∧
      (∀ t ∈ d.returns?, t.IsSingle) ∧ ∀ b ∈ d.body?, b.Enclosable
  | _ => False

/-- Such a member can be read. -/
theorem NodeKind.IsWritten.isMember {kind : NodeKind} (h : kind.IsWritten) : kind.IsMember := by
  cases kind with
  | traitUse traits adaptations? => exact ⟨h.1, h.2.1⟩
  | constDecl d => exact h.2
  | propertyDecl d => exact ⟨fun t ht => (h.2.1 t ht).2, h.2.2⟩
  | methodDecl d => exact fun p hp => (h.2.1 p hp).toIsQuiet
  | _ => exact h

namespace LineBuffer.Emits

/-- A method is its first line, and a semicolon or a block behind it. -/
theorem methodDecl {d : MethodDecl} (h : (NodeKind.methodDecl d).IsWritten) :
    Emits (fun b => b.leafLines (.methodDecl d)) (NodeKind.methodDecl d).memberParts := by
  obtain ⟨hname, hparams, hreturns, hbody⟩ := h
  have hheader := d.lexes hname hparams hreturns
  have hparts : (NodeKind.methodDecl d).memberParts = d.headerParts ++ bodyParts d.body? := by
    simp [NodeKind.memberParts, MethodDecl.parts, MethodDecl.headerParts]
  rw [hparts]
  cases hb : d.body? with
  | none =>
    have hline : Lexes (d.header ++ ";").toList (d.headerParts ++ [.sign ';']) Breaks := by
      rw [String.toList_append]
      exact hheader.append ((lexes_sign rfl rfl).mono fun _ _ => trivial) fun f _ => breaks_cons rfl f
    have hleaf (b : LineBuffer) : b.leafLines (.methodDecl d) = b.line (d.header ++ ";") := by
      rw [LineBuffer.leafLines, hb]
    simp only [hleaf]
    exact line hline
  | some body =>
    have hleaf (b : LineBuffer) : b.leafLines (.methodDecl d) =
        (((b.line d.header).line "\x7b").block body).line "\x7d" := by
      rw [LineBuffer.leafLines, hb]
    simp only [hleaf]
    exact (line hheader).comp (block (hbody body hb))

/-- The lines of a member show the member. -/
theorem leafLines {kind : NodeKind} (h : kind.IsWritten) :
    Emits (fun b => b.leafLines kind) kind.memberParts := by
  cases kind with
  | traitUse traits adaptations? =>
    obtain ⟨-, rfl, hnames⟩ := h
    exact line ((lexes_traitUse hnames).mono fun _ _ => trivial)
  | constDecl d => exact line ((ConstDecl.lexes h.1 h.2).mono fun _ _ => trivial)
  | propertyDecl d =>
    exact line ((PropertyDecl.lexes h.1 (fun t ht => (h.2.1 t ht).1) h.2.2).mono fun _ _ => trivial)
  | methodDecl d => exact methodDecl h
  | _ => exact absurd h id

/-- A member is written with its doc comment above it. -/
theorem member {m : DocMember} (h : m.kind.IsWritten) (hdoc : ∀ d ∈ m.doc?, IsStored d) :
    Emits m.outline.write m.parts := by
  have hwrite (b : LineBuffer) : m.outline.write b =
      (b.preamble { kind := m.kind, doc? := m.doc? }).leafLines m.kind := by
    obtain ⟨doc?, kind⟩ := m
    cases kind with
    | traitUse traits adaptations? => rw [DocMember.outline, Outline.leaf, Outline.write]; rfl
    | constDecl d => rw [DocMember.outline, Outline.leaf, Outline.write]; rfl
    | propertyDecl d => rw [DocMember.outline, Outline.leaf, Outline.write]; rfl
    | methodDecl d => rw [DocMember.outline, Outline.leaf, Outline.write]; rfl
    | _ => exact absurd h id
  exact ((preamble (n := { kind := m.kind, doc? := m.doc? }) rfl rfl hdoc).comp (leafLines h)).congr
    hwrite

/-- Items of a scope show what each of them shows. -/
theorem writeAll {α : Type} {outline : α → Outline} {parts : α → List Part} {xs : List α}
    (h : ∀ x ∈ xs, Emits (outline x).write (parts x)) (before? : Option Category) :
    Emits (Outline.writeAll before? (xs.map outline)) (xs.flatMap parts) := by
  induction xs generalizing before? with
  | nil =>
    exact nil.congr fun b => by rw [List.map_nil, Outline.writeAll]
  | cons x xs ih =>
    have hrest := (h x (List.mem_cons_self ..)).comp
      (ih (fun x hx => h x (List.mem_cons_of_mem _ hx)) (some (outline x).category))
    cases before? with
    | none => exact hrest.congr fun b => by rw [List.map_cons, Outline.writeAll]
    | some before =>
      by_cases hseparated : before.separated (outline x).category = true
      · refine (blank.comp hrest).congr fun b => ?_
        rw [List.map_cons, Outline.writeAll]
        exact congrArg (fun b => Outline.writeAll _ _ (Outline.write _ b)) (if_pos hseparated)
      · refine hrest.congr fun b => ?_
        rw [List.map_cons, Outline.writeAll]
        exact congrArg (fun b => Outline.writeAll _ _ (Outline.write _ b)) (if_neg hseparated)

end LineBuffer.Emits

/-! ## Statements -/

/-- A class that can be written and read back. -/
structure PlainClass.IsWritten (c : PlainClass) : Prop where
  doc : ∀ d ∈ c.doc?, IsStored d
  name : isAsciiIdent c.name.toList = true
  modifiers : ∀ m, c.modifiers.has m = true → m ∈ [Modifier.isAbstract, .isFinal, .isReadonly]
  parent : ∀ p ∈ c.parent?, isNameText p.toList = true
  interfaces : ∀ n ∈ c.interfaces, isNameText n.toList = true
  members : ∀ m ∈ c.members, m.kind.IsWritten ∧ ∀ d ∈ m.doc?, IsStored d

/-- A statement that can be written and read back. -/
def PlainStatement.IsWritten : PlainStatement → Prop
  | directive key value => isAsciiIdent key.toList = true ∧ value.isPlain = true
  | .useDecl name alias? =>
    (eqIgnoreCase name "function" = false ∧ eqIgnoreCase name "const" = false) ∧
      isNameText name.toList = true ∧ ∀ a ∈ alias?, isNameText a.toList = true
  | .classDecl c => c.IsWritten

/-- Such a statement can be read. -/
theorem PlainStatement.IsWritten.isRead {s : PlainStatement} (h : s.IsWritten) : s.IsRead := by
  cases s with
  | directive key value => exact h.2
  | useDecl name alias? => exact h.1
  | classDecl c => exact ⟨h.modifiers, fun m hm => (h.members m hm).1.isMember⟩

namespace LineBuffer.Emits

/-- A character on a line of its own. -/
theorem sign {s : String} {c : Char} (hs : s.toList = [c]) (h : isSign c = true) :
    Emits (fun b => b.line s) [.sign c] :=
  line ((lexes_sign hs h).mono fun _ _ => trivial)

/-- A class is its first line and its members in braces. -/
theorem plainClass {c : PlainClass} (h : c.IsWritten) :
    Emits c.outline.write (PlainStatement.classDecl c).parts := by
  have hpreamble := preamble (n := { kind := .classDecl c.decl, doc? := c.doc? }) rfl rfl h.doc
  have hhead := line (PlainClass.lexes h.name h.parent h.interfaces)
  have hmembers := writeAll
    (fun m hm => member (h.members m hm).1 (h.members m hm).2) none
  have hopen := sign (s := "\x7b") rfl rfl
  have hclose := sign (s := "\x7d") rfl rfl
  have hall := hpreamble.comp (hhead.comp (hopen.comp (hmembers.nested.comp hclose)))
  exact hall.congr fun b => by
    rw [PlainClass.outline, Outline.write.eq_def]
    rfl

/-- A statement is written as its parts. -/
theorem statement {s : PlainStatement} (h : s.IsWritten) : Emits s.outline.write s.parts := by
  cases s with
  | directive key value =>
    refine (line ((lexes_directive h.1 h.2).mono fun _ _ => trivial)).congr fun b => ?_
    rw [PlainStatement.outline, Outline.leaf, Outline.write.eq_def]
    rfl
  | useDecl name alias? =>
    refine (line ((lexes_useDecl h.2.1 h.2.2).mono fun _ _ => trivial)).congr fun b => ?_
    rw [PlainStatement.outline, Outline.leaf, Outline.write.eq_def]
    cases alias? with
    | none =>
      have hname : "use " ++ name ++ ";" = "use " ++ name ++ "" ++ ";" := by rw [String.append_empty]
      change b.line _ = b.line _
      rw [Option.map_none, Option.getD_none, ← hname]
    | some other =>
      have hname : "use " ++ name ++ " as " ++ other ++ ";" =
          "use " ++ name ++ (" as " ++ other) ++ ";" := by
        simp only [String.append_assoc]
      change b.line _ = b.line _
      rw [Option.map_some, Option.getD_some, ← hname]
  | classDecl c => exact plainClass h

/-- A namespace governs the statements behind it. -/
theorem namespaceDecl {name : String} {ss : List PlainStatement} (hname : isNameText name.toList = true)
    (h : ∀ s ∈ ss, s.IsWritten) :
    Emits (Outline.mk { kind := .namespaceDecl name } (ss.map PlainStatement.outline)).write
      ([.name "namespace", .name name, .sign ';'] ++ ss.flatMap PlainStatement.parts) := by
  have hempty : name.isEmpty = false := by
    refine Bool.eq_false_iff.2 fun he => ?_
    rw [String.isEmpty_iff.1 he] at hname
    exact absurd hname nofun
  have hline := line ((lexes_namespace hname).mono fun _ _ => trivial)
  have hstatements := writeAll
    (fun s hs => statement (h s hs)) none
  cases ss with
  | nil =>
    rw [List.flatMap_nil, List.append_nil]
    refine hline.congr fun b => ?_
    rw [List.map_nil, Outline.write.eq_def]
    dsimp only
    rw [hempty]
    rfl
  | cons s ss =>
    refine (hline.comp (blank.comp hstatements)).congr fun b => ?_
    rw [Outline.write.eq_def]
    dsimp only
    rw [hempty]
    rfl

end LineBuffer.Emits

/-! ## Files -/

/-- A file that can be written and read back. -/
structure PlainFile.IsWritten (f : PlainFile) : Prop where
  root : ∀ s ∈ f.root, s.IsWritten
  scope : ∀ scope ∈ f.scope?, isNameText scope.1.toList = true ∧ ∀ s ∈ scope.2, s.IsWritten

/-- The statements of a file, and what they show. -/
def PlainFile.items (f : PlainFile) : List (Outline × List Part) :=
  f.root.map (fun s => (s.outline, s.parts)) ++
    (f.scope?.map fun scope =>
      (Outline.mk { kind := .namespaceDecl scope.1 } (scope.2.map PlainStatement.outline),
        [.name "namespace", .name scope.1, .sign ';'] ++
          scope.2.flatMap PlainStatement.parts)).toList

/-- The statements of a file one by one. -/
theorem PlainFile.items_eq (f : PlainFile) :
    f.items.map Prod.fst = f.outlines ∧ f.items.flatMap Prod.snd = f.parts := by
  obtain ⟨root, scope?⟩ := f
  cases scope? <;> simp [items, outlines, parts, List.flatMap_map, Function.comp_def]

/-- A printed file is read back as it is. -/
theorem Outline.parse_print {f : PlainFile} (h : f.IsWritten) (indent : Indent) :
    Outline.parse ((Outline.file f.outlines).print indent) =
      .ok (Outline.file f.reread.outlines) := by
  have hread : f.IsRead :=
    ⟨fun s hs => (h.root s hs).isRead, fun scope hscope s hs => ((h.scope scope hscope).2 s hs).isRead⟩
  obtain ⟨houtlines, hparts⟩ := f.items_eq
  have hemits := @LineBuffer.Emits.writeAll _ Prod.fst Prod.snd f.items
    (fun item hitem => by
      rcases List.mem_append.1 hitem with hroot | hscope
      · obtain ⟨s, hs, rfl⟩ := List.mem_map.1 hroot
        exact LineBuffer.Emits.statement (h.root s hs)
      · obtain ⟨scope, hs, rfl⟩ := Option.map_eq_some_iff.1 (Option.mem_toList.1 hscope)
        exact LineBuffer.Emits.namespaceDecl (h.scope scope hs).1 (h.scope scope hs).2) none
  rw [houtlines, hparts] at hemits
  have hstart : ((LineBuffer.empty indent).line "<?php").text.toList = openTag ++ ['\n'] := by
    simp [LineBuffer.text, LineBuffer.line, LineBuffer.raw, LineBuffer.margin, LineBuffer.empty, openTag]
  obtain ⟨code, hcode, hscans⟩ : ∃ code, (Outline.file f.outlines).print indent =
      String.ofList (openTag ++ code) ∧ Scans code (f.parts ++ [.word .eof ""]) := by
    by_cases hnil : f.items = []
    · rw [← houtlines, ← hparts, hnil]
      refine ⟨['\n'], ?_, Scans.nil.blank_append (g := ['\n']) rfl⟩
      rw [← hstart, String.ofList_toList]
      rfl
    · have hchildren : f.outlines.isEmpty = false := by
        rw [← houtlines]
        simpa using hnil
      obtain ⟨cs, hcs, hlexes⟩ := hemits ((LineBuffer.empty indent).line "<?php").blank
      refine ⟨['\n'] ++ (['\n'] ++ cs), ?_, (Scans.blank_append rfl (Scans.blank_append rfl ?_))⟩
      · have hprint : (Outline.file f.outlines).print indent =
            (Outline.writeAll none f.outlines ((LineBuffer.empty indent).line "<?php").blank).text := by
          have hfile : (Outline.file f.outlines).children = f.outlines := rfl
          rw [print, hfile, hchildren]
          rfl
        have hblank := ((LineBuffer.empty indent).line "<?php").adds_raw ""
        have htext := (hblank.trans hcs).text
        rw [hstart] at htext
        rw [hprint, ← String.toList_inj, String.toList_ofList]
        simpa using htext
      · have := hlexes [] _ trivial Scans.nil
        rwa [List.append_nil] at this
  rw [hcode]
  exact Outline.parse_of_scans hread hscans

end PhpGraft

import PhpGraft.Proofs.Syntax.Provenance
import PhpGraft.Proofs.Text.Lines
import PhpGraft.Syntax.Printer

/-!
# Entries of printed files

The printer writes one entry after another. An entry is a line with its margin; where it holds source
text, that may have newlines of its own. What is written for a node does not depend on what was written
before it (`puts_write`), provided that each node has a line of its own: the comments behind a node
without one would go to the line of another node. So the entries of a node are those of its children
between others that are the same whatever its children are (`exists_entries`), and the head of a class
or interface is an entry of its own (`exists_entries_head`).
-/

namespace PhpGraft

open Text

/-- Whether nodes of a kind have a line of their own: a file has none, and neither has source text that
is empty. -/
def NodeKind.HasLine : NodeKind → Prop
  | file => False
  | verbatim source => source ≠ ""
  | _ => True

/-- The line that starts a class or interface, without its margin. -/
def NodeKind.headLine : NodeKind → String
  | classDecl d =>
    match d.name? with
    | some name => d.modifiers.lead ++ "class " ++ name ++ d.heritage
    | none => "return new class" ++ d.heritage ++ " \x7b"
  | interfaceDecl d => d.header
  | _ => ""

/-- An outline all nodes of which have a line of their own. -/
def Outline.HasLines (o : Outline) : Prop := o.All fun n => n.kind.HasLine

namespace LineBuffer

/-- A buffer with more entries behind those that were written. -/
def put (b : LineBuffer) (es : List String) : LineBuffer :=
  { b with written := es.reverse ++ b.written }

/-- The white space ahead of a line at some depth. -/
def marginAt (indent : Indent) (depth : Nat) : String := (⟨indent, depth, []⟩ : LineBuffer).margin

/-- A step of the printer that puts certain entries behind those that were written, whatever those
are. -/
def Puts (f : LineBuffer → LineBuffer) (es : Indent → Nat → List String) : Prop :=
  ∀ b, f b = b.put (es b.indent b.depth)

/-- A step of the printer that puts entries behind those that were written. -/
def Appends (f : LineBuffer → LineBuffer) : Prop := ∃ es, Puts f es

/-- A step of the printer that puts at least one entry behind those that were written. -/
def AppendsLine (f : LineBuffer → LineBuffer) : Prop :=
  ∃ (es : Indent → Nat → List String) (e : Indent → Nat → String), Puts f fun i d => es i d ++ [e i d]

namespace Puts

variable {f g : LineBuffer → LineBuffer} {es fs : Indent → Nat → List String} {α : Type}

/-- The entries of a step are what it writes where nothing was written. -/
theorem eq_written (h : Puts f es) (i : Indent) (d : Nat) : (f ⟨i, d, []⟩).written.reverse = es i d := by
  rw [h]
  simp [put]

/-- A step that does the same puts the same entries. -/
theorem congr (h : Puts f es) (hg : ∀ b, g b = f b) (hfs : ∀ i d, fs i d = es i d) : Puts g fs := by
  intro b
  rw [hg, h, hfs]

/-- Nothing puts nothing. -/
theorem nil : Puts (fun b => b) fun _ _ => [] := fun _ => rfl

/-- One step behind another. -/
theorem comp (hf : Puts f es) (hg : Puts g fs) : Puts (fun b => g (f b)) fun i d => es i d ++ fs i d := by
  intro b
  dsimp only
  rw [hf, hg]
  simp [put]

/-- A step one level deeper. -/
theorem nested (h : Puts f es) : Puts (fun b => b.nested f) fun i d => es i (d + 1) := by
  intro b
  change (f b.deeper).shallower = _
  rw [h]
  rfl

/-- A line without indentation. -/
theorem raw (s : String) : Puts (fun b => b.raw s) fun _ _ => [s] := fun _ => rfl

/-- A line. -/
theorem line (s : String) : Puts (fun b => b.line s) fun i d => [marginAt i d ++ s] := fun _ => rfl

/-- An empty line. -/
theorem blank : Puts LineBuffer.blank fun _ _ => [""] := fun _ => rfl

/-- A line, or an empty one for an empty text. -/
theorem lineOrBlank (s : String) :
    Puts (fun b => b.lineOrBlank s) fun i d => [if s.isEmpty then "" else marginAt i d ++ s] := by
  intro b
  unfold LineBuffer.lineOrBlank
  dsimp only
  split <;> rfl

/-- The same step for one thing after another. -/
theorem foldl {step : LineBuffer → α → LineBuffer} {es : α → Indent → Nat → List String}
    (h : ∀ x, Puts (fun b => step b x) (es x)) (xs : List α) :
    Puts (fun b => xs.foldl step b) fun i d => xs.flatMap fun x => es x i d := by
  induction xs with
  | nil => exact nil
  | cons x xs ih => exact (h x).comp ih

/-- Comments behind a node go to its last entry. -/
theorem trailingOf {e : Indent → Nat → String} (h : Puts f fun i d => es i d ++ [e i d]) (n : Node) :
    Puts (fun b => (f b).trailingOf n) fun i d => es i d ++ [e i d ++ n.trailing?.getD ""] := by
  intro b
  dsimp only
  rw [h, LineBuffer.trailingOf]
  cases n.trailing? with
  | none => simp
  | some c => simp [put, trailing]

end Puts

namespace AppendsLine

variable {f g : LineBuffer → LineBuffer}

/-- A line. -/
theorem line (s : String) : AppendsLine fun b => b.line s := ⟨fun _ _ => [], _, .line s⟩

/-- One step behind another. -/
theorem behind (hf : Appends f) (hg : AppendsLine g) : AppendsLine fun b => g (f b) := by
  obtain ⟨es, hes⟩ := hf
  obtain ⟨fs, e, hfs⟩ := hg
  refine ⟨fun i d => es i d ++ fs i d, e, ?_⟩
  simpa only [List.append_assoc] using hes.comp hfs

/-- A step that puts one entry puts entries. -/
theorem appends (h : AppendsLine f) : Appends f :=
  have ⟨_, _, hes⟩ := h
  ⟨_, hes⟩

/-- Comments behind a node go to its last entry. -/
theorem trailingOf (h : AppendsLine f) (n : Node) : Appends fun b => (f b).trailingOf n :=
  have ⟨_, _, hes⟩ := h
  ⟨_, hes.trailingOf n⟩

/-- Source text that is not empty has a first line. -/
theorem verbatim {source : String} (h : source ≠ "") : AppendsLine fun b => b.verbatim source := by
  have hne : Text.lines source.toList ≠ [] := fun hlines => by
    have hflat := flatten_rows source.toList
    rw [List.map_eq_nil_iff.1 hlines] at hflat
    exact h (String.toList_inj.1 hflat.symm)
  obtain ⟨first, rest, hlines⟩ := List.exists_cons_of_ne_nil
    (fun hnil => hne (List.map_eq_nil_iff.1 hnil) :
      (Text.lines source.toList).map (fun l => String.ofList (trimEnd l)) ≠ [])
  have hputs := (Puts.line first).comp (Puts.foldl Puts.raw rest)
  rw [List.flatMap_singleton'] at hputs
  have hwrite : (fun b : LineBuffer => b.verbatim source) =
      fun b => rest.foldl LineBuffer.raw (b.line first) := by
    funext b
    rw [LineBuffer.verbatim, hlines]
  rw [hwrite]
  have hconcat (i : Indent) (d : Nat) : [marginAt i d ++ first] ++ rest =
      ([marginAt i d ++ first] ++ rest).dropLast ++
        [([marginAt i d ++ first] ++ rest).getLast (List.cons_ne_nil _ _)] :=
    (List.dropLast_concat_getLast _).symm
  refine ⟨fun i d => ([marginAt i d ++ first] ++ rest).dropLast,
    fun i d => ([marginAt i d ++ first] ++ rest).getLast (List.cons_ne_nil _ _), fun b => ?_⟩
  exact (hputs b).trans (congrArg b.put (hconcat _ _))

end AppendsLine

namespace Appends

variable {f g : LineBuffer → LineBuffer}

/-- One step behind another. -/
theorem comp (hf : Appends f) (hg : Appends g) : Appends fun b => g (f b) :=
  have ⟨_, hes⟩ := hf
  have ⟨_, hfs⟩ := hg
  ⟨_, hes.comp hfs⟩

/-- The same step for one thing after another. -/
theorem foldl {α : Type} {step : LineBuffer → α → LineBuffer} (h : ∀ x, Appends fun b => step b x)
    (xs : List α) : Appends fun b => xs.foldl step b :=
  ⟨_, Puts.foldl (fun x => (h x).choose_spec) xs⟩

/-- Source text. -/
theorem verbatim (source : String) : Appends fun b => b.verbatim source := by
  by_cases h : source = ""
  · subst h
    exact ⟨_, .nil⟩
  · have ⟨_, _, hes⟩ := AppendsLine.verbatim h
    exact ⟨_, hes⟩

/-- The lines of a body. -/
theorem block (body : Body) : Appends fun b => b.block body := by
  have hline (l : BodyLine) : Appends fun b => b.bodyLine l := by
    unfold bodyLine
    split
    · exact ⟨_, .raw l.text⟩
    · exact ⟨_, .lineOrBlank l.text⟩
  have ⟨_, hes⟩ := foldl hline body.lines
  exact ⟨_, hes.nested⟩

/-- What stands above a node. -/
theorem preamble (n : Node) : Appends fun b => b.preamble n := by
  have hattributes : Appends fun b => n.attributes.foldl (fun b a => b.line ("#[" ++ a.text ++ "]")) b :=
    foldl (fun _ => (AppendsLine.line _).appends) n.attributes
  have hlines (ls : List String) : Appends fun b => b.lines ls := foldl (fun l => ⟨_, .lineOrBlank l⟩) ls
  unfold LineBuffer.preamble
  cases n.comment? with
  | none =>
    cases n.doc? with
    | none => exact hattributes
    | some d => exact (hlines (Text.linesOf d)).comp hattributes
  | some c =>
    cases n.doc? with
    | none => exact (verbatim c).comp hattributes
    | some d => exact ((verbatim c).comp (hlines (Text.linesOf d))).comp hattributes

end Appends

/-- A method has a line of its own. -/
theorem AppendsLine.methodDecl (d : MethodDecl) : AppendsLine fun b => b.leafLines (.methodDecl d) := by
  cases hbody : d.body? with
  | none =>
    have hleaf (b : LineBuffer) : b.leafLines (.methodDecl d) = b.line (d.header ++ ";") := by
      rw [LineBuffer.leafLines, hbody]
    simp only [hleaf]
    exact .line _
  | some body =>
    have hleaf (b : LineBuffer) : b.leafLines (.methodDecl d) =
        (((b.line d.header).line "\x7b").block body).line "\x7d" := by
      rw [LineBuffer.leafLines, hbody]
    simp only [hleaf]
    have hhead := (AppendsLine.line d.header).appends
    have hopen := (AppendsLine.line "\x7b").appends
    exact .behind ((hhead.comp hopen).comp (.block body)) (.line "\x7d")

/-- Directives, imports, members and source text have a line of their own. -/
theorem AppendsLine.leafLines {kind : NodeKind} (h : kind.HasLine)
    (hns : kind.category ≠ .namespaceDecl) (hlike : kind.category.isClassLike = false) :
    AppendsLine fun b => b.leafLines kind := by
  cases kind with
  | file => exact absurd h id
  | namespaceDecl => exact absurd rfl hns
  | classDecl | interfaceDecl => cases hlike
  | directive key value => exact .line ("declare(" ++ key ++ "=" ++ value.text ++ ");")
  | useDecl name alias? =>
    cases alias? with
    | none => exact .line ("use " ++ name ++ ";")
    | some other => exact .line ("use " ++ name ++ " as " ++ other ++ ";")
  | traitUse traits adaptations? =>
    cases adaptations? with
    | none => exact .line ("use " ++ ", ".intercalate traits ++ ";")
    | some body =>
      have hhead := (AppendsLine.line ("use " ++ ", ".intercalate traits ++ " \x7b")).appends
      exact .behind (hhead.comp (.block body)) (.line "\x7d")
  | constDecl d => exact .line d.text
  | propertyDecl d => exact .line d.text
  | methodDecl d => exact .methodDecl d
  | verbatim source => exact .verbatim h

end LineBuffer

/-! ## Entries of outlines -/

open LineBuffer

namespace Outline

/-- The entries of an outline at some depth. -/
def entries (o : Outline) (i : Indent) (d : Nat) : List String := (o.write ⟨i, d, []⟩).written.reverse

/-- The entries of the items of a scope; the form of the one before them is given, if there is one. -/
def entriesAll (before? : Option Category) (os : List Outline) (i : Indent) (d : Nat) : List String :=
  (writeAll before? os ⟨i, d, []⟩).written.reverse

/-- The blank line ahead of an item, if there has to be one. -/
def separation (before? : Option Category) (c : Category) : List String :=
  if before?.any (·.separated c) then [""] else []

end Outline

/-- How the children of a node are written. -/
inductive Nesting where
  /-- They are not written. -/
  | none
  /-- At the depth of the node, with a blank line ahead of them if there are some. -/
  | spaced
  /-- One level deeper. -/
  | deeper
  deriving DecidableEq

/-- The entries of the children of a node. -/
def Nesting.entries (cs : List Outline) (i : Indent) (d : Nat) : Nesting → List String
  | none => []
  | spaced => if cs.isEmpty then [] else "" :: Outline.entriesAll .none cs i d
  | deeper => Outline.entriesAll .none cs i (d + 1)

/-- How the children of a kind of node are written. -/
def NodeKind.nesting : NodeKind → Nesting
  | namespaceDecl name => if name.isEmpty then .deeper else .spaced
  | classDecl _ | interfaceDecl _ => .deeper
  | _ => .none

/-- The statements of a namespace are written. -/
theorem NodeKind.nesting_ne_none {kind : NodeKind} (h : kind.category = .namespaceDecl) :
    kind.nesting ≠ .none := by
  cases kind with
  | namespaceDecl name =>
    unfold nesting
    dsimp only
    split
    · decide
    · decide
  | _ => cases h

/-- Two kinds of one form, of which both are anonymous classes or neither is one. -/
def NodeKind.SameForm (k k' : NodeKind) : Prop :=
  k.category = k'.category ∧ Reader.isAnonymous k = Reader.isAnonymous k'

namespace Outline

/-- A class or interface is written as its head between what stands above it and what is below it, which
are the same whatever its head is. -/
theorem exists_puts_head (n : Node) (hlike : n.kind.category.isClassLike = true) :
    ∃ top middle bottom : Indent → Nat → List String, ∀ kind, n.kind.SameForm kind → ∀ cs,
      Puts (writeAll none cs) (entriesAll none cs) →
        Puts (mk { n with kind } cs).write fun i d =>
          top i d ++ (marginAt i d ++ kind.headLine) ::
            (middle i d ++ entriesAll none cs i (d + 1) ++ bottom i d) := by
  obtain ⟨top, htop⟩ := Appends.preamble n
  have hhead (kind : NodeKind) := htop.comp (.line kind.headLine)
  cases hn : Reader.isAnonymous n.kind with
  | true =>
    refine ⟨top, fun _ _ => [], fun i d => [marginAt i d ++ "\x7d;" ++ n.trailing?.getD ""],
      fun kind ⟨hcategory, hform⟩ cs hcs => ?_⟩
    have hwhole := (((hhead kind).comp hcs.nested).comp (.line "\x7d;")).trailingOf n
    refine hwhole.congr (fun b => ?_) fun i d => by simp
    rw [hn] at hform
    cases kind with
    | classDecl d =>
      obtain ⟨name?, modifiers, parent?, interfaces⟩ := d
      cases name? with
      | none =>
        rw [write.eq_def]
        rfl
      | some name => cases hform
    | _ => cases hform
  | false =>
    refine ⟨top, fun i d => [marginAt i d ++ "\x7b"],
      fun i d => [marginAt i d ++ "\x7d" ++ n.trailing?.getD ""], fun kind ⟨hcategory, hform⟩ cs hcs => ?_⟩
    have hwhole := ((((hhead kind).comp (.line "\x7b")).comp hcs.nested).comp (.line "\x7d")).trailingOf n
    refine hwhole.congr (fun b => ?_) fun i d => by simp
    rw [hn] at hform
    rw [hcategory] at hlike
    cases kind with
    | classDecl d =>
      obtain ⟨name?, modifiers, parent?, interfaces⟩ := d
      cases name? with
      | none => cases hform
      | some name =>
        rw [write.eq_def]
        rfl
    | interfaceDecl d =>
      rw [write.eq_def]
      rfl
    | _ => cases hlike

/-- A namespace is written as its head and, below it or in a block, its statements. -/
theorem exists_puts_namespace {n : Node} {name : String} (h : n.kind = .namespaceDecl name) :
    ∃ top bottom : Indent → Nat → List String, ∀ cs, Puts (writeAll none cs) (entriesAll none cs) →
      Puts (mk n cs).write fun i d => top i d ++ n.kind.nesting.entries cs i d ++ bottom i d := by
  obtain ⟨top, htop⟩ := Appends.preamble n
  rw [h]
  by_cases hname : name.isEmpty = true
  · refine ⟨fun i d => top i d ++ [marginAt i d ++ "namespace \x7b"],
      fun i d => [marginAt i d ++ "\x7d" ++ n.trailing?.getD ""], fun cs hcs => ?_⟩
    have hwhole := (((htop.comp (.line "namespace \x7b")).comp hcs.nested).comp (.line "\x7d")).trailingOf n
    refine hwhole.congr (fun b => ?_) fun i d => ?_
    · rw [write.eq_def]
      simp only [h, hname, if_true]
    · simp [NodeKind.nesting, hname, Nesting.entries]
  · have hhead := (htop.comp (.line ("namespace " ++ name ++ ";"))).trailingOf n
    refine ⟨fun i d => top i d ++ [marginAt i d ++ ("namespace " ++ name ++ ";") ++ n.trailing?.getD ""],
      fun _ _ => [], fun cs hcs => ?_⟩
    cases hempty : cs.isEmpty with
    | true =>
      refine hhead.congr (fun b => ?_) fun i d => ?_
      · rw [write.eq_def]
        simp only [h, hname, Bool.false_eq_true, if_false, hempty, if_true]
      · simp [NodeKind.nesting, hname, Nesting.entries, hempty]
    | false =>
      refine ((hhead.comp .blank).comp hcs).congr (fun b => ?_) fun i d => ?_
      · rw [write.eq_def]
        simp only [h, hname, Bool.false_eq_true, if_false, hempty]
      · simp [NodeKind.nesting, hname, Nesting.entries, hempty]

/-- A node that has a line of its own is written as what is written for its children between entries
that are the same whatever its children are. -/
theorem exists_puts_node {n : Node} (h : n.kind.HasLine) :
    ∃ top bottom : Indent → Nat → List String, ∀ cs, Puts (writeAll none cs) (entriesAll none cs) →
      Puts (mk n cs).write fun i d => top i d ++ n.kind.nesting.entries cs i d ++ bottom i d := by
  by_cases hlike : n.kind.category.isClassLike = true
  · obtain ⟨top, middle, bottom, hwhole⟩ := exists_puts_head n hlike
    have hnesting : n.kind.nesting = .deeper := by
      cases hkind : n.kind <;> rw [hkind] at hlike <;> first | rfl | cases hlike
    refine ⟨fun i d => top i d ++ (marginAt i d ++ n.kind.headLine) :: middle i d, bottom, fun cs hcs => ?_⟩
    refine (hwhole n.kind ⟨rfl, rfl⟩ cs hcs).congr (fun _ => rfl) fun i d => ?_
    simp [hnesting, Nesting.entries]
  by_cases hns : n.kind.category = .namespaceDecl
  · cases hkind : n.kind with
    | namespaceDecl name => exact hkind ▸ exists_puts_namespace hkind
    | _ =>
      rw [hkind] at hns
      cases hns
  · obtain ⟨es, hes⟩ := (AppendsLine.behind (.preamble n)
      (.leafLines h hns (Bool.eq_false_iff.2 hlike))).trailingOf n
    refine ⟨es, fun _ _ => [], fun cs _ => hes.congr (fun b => ?_) fun i d => ?_⟩
    · obtain ⟨kind, _, _, _, _⟩ := n
      rw [write.eq_def]
      cases kind <;> first | rfl | exact absurd h id | exact absurd rfl hns | exact absurd rfl hlike
    · have hnesting : n.kind.nesting = .none := by
        cases hkind : n.kind <;> rw [hkind] at hlike hns <;>
          first | rfl | exact absurd rfl hns | exact absurd rfl hlike
      simp [hnesting, Nesting.entries]

/-- An item is written behind the blank line ahead of it. -/
theorem puts_writeAll_cons (before? : Option Category) {o : Outline} {os : List Outline}
    (ho : Puts o.write o.entries)
    (hos : Puts (writeAll (some o.category) os) (entriesAll (some o.category) os)) :
    Puts (writeAll before? (o :: os)) fun i d =>
      separation before? o.category ++ (o.entries i d ++ entriesAll (some o.category) os i d) := by
  have hseparation : Puts (fun b => if before?.any (·.separated o.category) then b.blank else b)
      fun _ _ => separation before? o.category := by
    unfold separation
    split
    · exact .blank
    · exact .nil
  refine (hseparation.comp (ho.comp hos)).congr (fun b => ?_) fun _ _ => rfl
  exact (writeAll.eq_def ..).trans (by cases before? <;> rfl)

mutual

/-- What an outline is written as does not depend on what was written before it. -/
theorem puts_write {o : Outline} (h : o.HasLines) : Puts o.write o.entries := by
  cases o with
  | mk n cs =>
    obtain ⟨top, bottom, hnode⟩ := exists_puts_node h.node
    have hputs := hnode cs (puts_writeAll none h.children)
    exact hputs.congr (fun _ => rfl) hputs.eq_written

/-- What the items of a scope are written as does not depend on what was written before them. -/
theorem puts_writeAll (before? : Option Category) {os : List Outline} (h : ∀ o ∈ os, o.HasLines) :
    Puts (writeAll before? os) (entriesAll before? os) := by
  cases os with
  | nil => exact Puts.nil.congr (fun b => by rw [writeAll]) fun _ _ => rfl
  | cons o os =>
    obtain ⟨ho, hos⟩ := List.forall_mem_cons.1 h
    have hputs := puts_writeAll_cons before? (puts_write ho) (puts_writeAll (some o.category) hos)
    exact hputs.congr (fun _ => rfl) hputs.eq_written

end

/-- The entries of a node are those of its children between others that are the same whatever its
children are. -/
theorem exists_entries {n : Node} (h : n.kind.HasLine) (i : Indent) (d : Nat) :
    ∃ top bottom : List String, ∀ cs : List Outline, (∀ c ∈ cs, c.HasLines) →
      (mk n cs).entries i d = top ++ n.kind.nesting.entries cs i d ++ bottom := by
  obtain ⟨top, bottom, hnode⟩ := exists_puts_node h
  exact ⟨top i d, bottom i d, fun cs hcs => (hnode cs (puts_writeAll none hcs)).eq_written i d⟩

/-- The entries of a class or interface are its head and others that are the same whatever its head
is. -/
theorem exists_entries_head (n : Node) (hlike : n.kind.category.isClassLike = true) {cs : List Outline}
    (hcs : ∀ c ∈ cs, c.HasLines) (i : Indent) (d : Nat) :
    ∃ before after : List String, ∀ kind, n.kind.SameForm kind →
      (mk { n with kind } cs).entries i d = before ++ (marginAt i d ++ kind.headLine) :: after := by
  obtain ⟨top, middle, bottom, hnode⟩ := exists_puts_head n hlike
  exact ⟨top i d, middle i d ++ entriesAll none cs i (d + 1) ++ bottom i d, fun kind hkind =>
    (hnode kind hkind cs (puts_writeAll none hcs)).eq_written i d⟩

/-- The entries of items are those of the first one behind the blank line ahead of it, and those of the
others. -/
theorem entriesAll_cons (before? : Option Category) {o : Outline} {os : List Outline}
    (h : ∀ o' ∈ o :: os, o'.HasLines) (i : Indent) (d : Nat) :
    entriesAll before? (o :: os) i d =
      separation before? o.category ++ (o.entries i d ++ entriesAll (some o.category) os i d) := by
  obtain ⟨ho, hos⟩ := List.forall_mem_cons.1 h
  exact (puts_writeAll_cons before? (puts_write ho) (puts_writeAll _ hos)).eq_written i d

end Outline

end PhpGraft

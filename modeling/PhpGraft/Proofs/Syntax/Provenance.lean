import PhpGraft.Proofs.Syntax.Leaving
import PhpGraft.Proofs.Syntax.Shape

/-!
# Where the nodes of a file come from

A property of kinds of nodes that every reader of a kind gives to what it reads is one that all nodes of
a file have (`Outline.all_of_parse`): the readers of items only put these nodes together.

The nodes of a file hold some of its source as it stands: the blocks of methods and of the traits that
a class uses, statements and members of no known form, and comments that stand by themselves. All of it
was read at some place in the tokens of the file (`Outline.isTaken_of_parse`).
-/

namespace PhpGraft

open Text

/-! ## Source text in nodes -/

/-- The block of a node: the body of a method, or what resolves the conflicts of traits. -/
def NodeKind.block? : NodeKind → Option Body
  | methodDecl d => d.body?
  | traitUse _ adaptations? => adaptations?
  | _ => none

/-- The text of a node that is source text. -/
def NodeKind.text? : NodeKind → Option String
  | verbatim source => some source
  | _ => none

/-- A block that was read somewhere in the tokens of a file, with its source. -/
def Body.IsTaken (file : List Token) (source : List Char) (body : Body) : Prop :=
  ∃ ts rest, ts <:+ file ∧ Reader.blockSource? 0 ts = some (source, rest) ∧ ofSource source = body

/-- Source text that was read somewhere in the tokens of a file. -/
inductive IsTakenText (file : List Token) : List Char → Prop where
  /-- A statement or a member. -/
  | statement {ts taken rest : List Token} (hts : ts <:+ file)
    (h : Reader.statementSpan (Reader.peek ts) 0 ts = .ok (taken, rest)) :
    IsTakenText file (Token.span taken)
  /-- Comments that stand by themselves. -/
  | comments {ts : List Token} {afterItem : Bool} {text : List Char} (hts : ts <:+ file)
    (h : text ∈ (Reader.placement afterItem ts).detached) : IsTakenText file text

/-- A kind of node whose source text was read somewhere in the tokens of a file. -/
structure NodeKind.IsTaken (file : List Token) (kind : NodeKind) : Prop where
  /-- The block of the node, if it has one. -/
  block : ∀ body ∈ kind.block?, ∃ source, body.IsTaken file source
  /-- The text of the node, if it is source text. -/
  text : ∀ source ∈ kind.text?, IsTakenText file source.toList

/-- An outline of nodes that have a property. -/
inductive Outline.All (P : Node → Prop) : Outline → Prop where
  | mk {n : Node} {children : List Outline} (hn : P n) (hchildren : ∀ o ∈ children, All P o) :
    All P (.mk n children)

/-- An outline whose source text was read somewhere in the tokens of a file. -/
def Outline.IsTaken (file : List Token) (o : Outline) : Prop := o.All fun n => n.kind.IsTaken file

variable {file : List Token} {α β : Type}

namespace Outline

/-- The nodes of an outline have what follows from what they have. -/
theorem All.mono {P Q : Node → Prop} (h : ∀ n, P n → Q n) {o : Outline} (ho : o.All P) : o.All Q := by
  induction ho with
  | mk hn _ ih => exact .mk (h _ hn) ih

/-- The node at the top of an outline has what all nodes have. -/
theorem All.node {P : Node → Prop} {o : Outline} (h : o.All P) : P o.node := by
  cases h with
  | mk hn _ => exact hn

/-- The nodes below another one have what all nodes have. -/
theorem All.children {P : Node → Prop} {o : Outline} (h : o.All P) : ∀ c ∈ o.children, c.All P := by
  cases h with
  | mk _ hchildren => exact hchildren

/-- A node without children is all of its outline. -/
theorem all_leaf {P : Node → Prop} {n : Node} (h : P n) : (leaf n).All P := .mk h (List.forall_mem_nil _)

/-- An outline of nodes whose kinds have a property. -/
def AllKinds (Q : NodeKind → Prop) (o : Outline) : Prop := o.All fun n => Q n.kind

variable {Q : NodeKind → Prop}

/-- Comments above a node do not change its kind. -/
theorem AllKinds.withComment {o : Outline} (h : o.AllKinds Q) (comment? : Option String) :
    (o.withComment comment?).AllKinds Q := by
  cases h with
  | mk hn hchildren => exact .mk hn hchildren

/-- Comments behind a node do not change its kind. -/
theorem AllKinds.withTrailing {o : Outline} (h : o.AllKinds Q) (trailing? : Option String) :
    (o.withTrailing trailing?).AllKinds Q := by
  cases h with
  | mk hn hchildren => exact .mk hn hchildren

end Outline

namespace Reader

/-! ## Readers of parts -/

/-- A reader that never takes the end of the source, and whose answers within a file have a property. -/
def Draws (file : List Token) (r : Reader α) (P : α → Prop) : Prop :=
  ∀ ⦃ts x rest⦄, ts <:+ file → r ts = some (x, rest) → RestOf rest ts ∧ P x

/-- A reader that never takes the end of the source, whatever its answers are. -/
theorem Leaves.draws {r : Reader α} (h : Leaves r) : Draws file r fun _ => True :=
  fun _ _ _ _ hr => ⟨h hr, trivial⟩

namespace Draws

variable {r s : Reader α} {P Q : α → Prop}

/-- An answer without reading has the property that it has. -/
theorem pure {x : α} (h : P x) : Draws file (Pure.pure x : Reader α) P := by
  intro ts y rest _ hr
  obtain ⟨rfl, rfl⟩ := Prod.mk.inj (Option.some.inj hr)
  exact ⟨.refl ts, h⟩

/-- What is read second can have the property because of what is read first. -/
theorem bind {f : α → Reader β} {R : β → Prop} (hr : Draws file r P)
    (hf : ∀ x, P x → Draws file (f x) R) : Draws file (r >>= f) R := by
  intro ts y rest hts h
  obtain ⟨x, mid, hx, hy⟩ := bind_eq_some h
  obtain ⟨hmid, hP⟩ := hr hts hx
  obtain ⟨hrest, hR⟩ := hf x hP (hmid.suffix.trans hts) hy
  exact ⟨hrest.trans hmid, hR⟩

/-- Answers that are changed have a property if those before have it afterwards. -/
theorem map {R : β → Prop} (hr : Draws file r P) {g : α → β} (hg : ∀ x, P x → R (g x)) :
    Draws file (g <$> r) R := by
  intro ts y rest hts h
  obtain ⟨x, hx, rfl⟩ := map_eq_some h
  obtain ⟨hrest, hP⟩ := hr hts hx
  exact ⟨hrest, hg x hP⟩

/-- The answers of one of two readers have a property if those of both have. -/
theorem ite {p : Prop} [Decidable p] (hr : Draws file r P) (hs : Draws file s P) :
    Draws file (if p then r else s) P := by
  split
  · exact hr
  · exact hs

end Draws

/-! ## Items -/

/-- A property of kinds of nodes that everything has that is read in a file. -/
structure Makes (file : List Token) (Q : NodeKind → Prop) : Prop where
  /-- Directives have it. -/
  directive : Draws file directive Q
  /-- Imports have it. -/
  imports : Draws file imports fun kinds => ∀ k ∈ kinds, Q k
  /-- Classes and interfaces have it. -/
  classLikeHead : Draws file classLikeHead Q
  /-- Members have it. -/
  memberKinds : Draws file memberKinds fun kinds => ∀ k ∈ kinds, Q k
  /-- Namespaces have it. -/
  namespaceDecl : ∀ ⦃ts⦄, ts <:+ file → Q (.namespaceDecl (namespaceName ts).1)
  /-- Statements and members of no known form have it. -/
  statement : ∀ ⦃ts taken rest⦄, ts <:+ file → (peek ts).kind ≠ .closeTag →
    statementSpan (peek ts) 0 ts = .ok (taken, rest) → Q (.verbatim (String.ofList (Token.span taken)))
  /-- Comments that stand by themselves have it. -/
  comments : ∀ ⦃ts text⦄ (afterItem : Bool), ts <:+ file → text ∈ (placement afterItem ts).detached →
    Q (.verbatim (String.ofList text))

variable {Q : NodeKind → Prop}

/-- Nodes have kinds with a property if the kinds that they are made of have it. -/
theorem allKinds_nodesOf {doc? : Option String} {attributes : List Attribute} {kinds : List NodeKind}
    (h : ∀ k ∈ kinds, Q k) : ∀ o ∈ nodesOf doc? attributes kinds, o.AllKinds Q := by
  cases kinds with
  | nil => exact List.forall_mem_nil _
  | cons kind kinds =>
    obtain ⟨hkind, hkinds⟩ := List.forall_mem_cons.1 h
    refine List.forall_mem_cons.2 ⟨Outline.all_leaf hkind, fun o ho => ?_⟩
    obtain ⟨k, hk, rfl⟩ := List.mem_map.1 ho
    exact Outline.all_leaf (hkinds k hk)

/-- A reader of statements or members that never takes the end of the source, and whose nodes are of
kinds with a property. -/
def ItemReader.Draws (file : List Token) (Q : NodeKind → Prop) (item : ItemReader) : Prop :=
  ∀ ⦃ts found rest⦄, ts <:+ file → item ts = .ok (found, rest) →
    RestOf rest ts ∧ ∀ o ∈ found, o.AllKinds Q

/-- A reader of statements of known forms that never takes the end of the source, and whose nodes are of
kinds with a property. -/
def StatementReader.Draws (file : List Token) (Q : NodeKind → Prop) (read : StatementReader) : Prop :=
  ∀ ⦃ts found rest⦄, ts <:+ file → read ts = .ok (some (found, rest)) →
    RestOf rest ts ∧ ∀ o ∈ found, o.AllKinds Q

/-- Comments that are put in place are source text. -/
theorem Items.allKinds_settle (hQ : Makes file Q) {items : Items} {ts : List Token}
    (h : ∀ o ∈ items, o.AllKinds Q) (hts : ts <:+ file) (afterItem : Bool) :
    ∀ o ∈ items.settle (placement afterItem ts), o.AllKinds Q :=
  forall_settle h (fun _ _ ho => ho.withTrailing _) fun _ htext =>
    Outline.all_leaf (hQ.comments afterItem hts htext)

/-- Items behind items are of kinds with a property if all of them are. -/
theorem Items.allKinds_push {items : Items} (h : ∀ o ∈ items, o.AllKinds Q) {found : List Outline}
    (hfound : ∀ o ∈ found, o.AllKinds Q) (comment? : Option (List Char)) :
    ∀ o ∈ items.push comment? found, o.AllKinds Q :=
  forall_push h (fun _ _ ho => ho.withComment _) hfound comment?

/-- The items of a scope are of kinds with a property if what is read as an item is. -/
theorem draws_scopeItems (hQ : Makes file Q) {item : ItemReader} {hitem : ItemReader.Advances item}
    {unclosed : ParseError} (hdraws : ItemReader.Draws file Q item) {items : Items} {ts rest : List Token}
    {found : List Outline} (hitems : ∀ o ∈ items, o.AllKinds Q) (hts : ts <:+ file)
    (h : scopeItems item hitem unclosed items ts = .ok (found, rest)) :
    RestOf rest ts ∧ ∀ o ∈ found, o.AllKinds Q := by
  have hsettled := Items.allKinds_settle hQ hitems hts (!items.isEmpty)
  unfold scopeItems at h
  dsimp only at h
  split at h
  · next hclose =>
    obtain ⟨rfl, rfl⟩ := Prod.mk.inj (Except.ok.inj h)
    exact ⟨restOf_advance (failsEnd_isPunct _) hclose, fun o ho => hsettled o (List.mem_reverse.1 ho)⟩
  · split at h
    · cases h
    · split at h
      · cases h
      · next read mid hread =>
        have := hitem hread
        obtain ⟨hmid, hnodes⟩ := hdraws hts hread
        obtain ⟨hrest, hfound⟩ :=
          draws_scopeItems hQ hdraws (Items.allKinds_push hsettled hnodes _) (hmid.suffix.trans hts) h
        exact ⟨hrest.trans hmid, hfound⟩
termination_by ts.length

namespace Makes

variable (hQ : Makes file Q)
include hQ

/-- A statement or a member that is source text is taken from where it is read. -/
theorem verbatim : ItemReader.Draws file Q Reader.verbatim := by
  intro ts found rest hts h
  unfold Reader.verbatim at h
  split at h
  · cases h
  · next hclose =>
    cases hspan : statementSpan (peek ts) 0 ts with
    | error e =>
      rw [hspan] at h
      cases h
    | ok parts =>
      rw [hspan] at h
      obtain ⟨rfl, rfl⟩ := Prod.mk.inj (Except.ok.inj h)
      refine ⟨restOf_statementSpan hspan, List.forall_mem_singleton.2 ?_⟩
      exact Outline.all_leaf (hQ.statement hts (fun he => hclose (beq_of_eq he)) hspan)

/-- A member is of a known form, or source text. -/
theorem member : ItemReader.Draws file Q Reader.member := by
  have hknown : Reader.Draws file knownMember fun found => ∀ o ∈ found, o.AllKinds Q :=
    leaves_preamble.draws.bind fun _ _ => hQ.memberKinds.bind fun _ h => .pure (allKinds_nodesOf h)
  intro ts found rest hts h
  unfold Reader.member at h
  split at h
  · next hread =>
    obtain rfl := Except.ok.inj h
    exact hknown hts hread
  · exact hQ.verbatim hts h

/-! ## Statements -/

/-- A class or interface is a node with its members below it. -/
theorem classLikeBody {doc? : Option String} {attributes : List Attribute} {kind : NodeKind}
    (hkind : Q kind) : StatementReader.Draws file Q (Reader.classLikeBody doc? attributes kind) := by
  intro ts found rest hts h
  unfold Reader.classLikeBody at h
  split at h
  · cases h
  next hopen =>
    have hinner : RestOf (advance ts) ts := restOf_advance (failsEnd_isPunct _) (by simpa using hopen)
    split at h
    · cases h
    · next members mid hmembers =>
      obtain ⟨hmid, hnodes⟩ := draws_scopeItems hQ hQ.member (List.forall_mem_nil _)
        (hinner.suffix.trans hts) hmembers
      have hfound : ∀ o ∈ [Outline.mk { kind, doc?, attributes } members], o.AllKinds Q :=
        List.forall_mem_singleton.2 (.mk hkind hnodes)
      have hbehind := hmid.trans hinner
      dsimp only at h
      repeat' split at h
      · obtain ⟨rfl, rfl⟩ := Prod.mk.inj (Option.some.inj (Except.ok.inj h))
        exact ⟨hbehind, hfound⟩
      · next hend =>
        obtain ⟨rfl, rfl⟩ := Prod.mk.inj (Option.some.inj (Except.ok.inj h))
        exact ⟨(restOf_advance (failsEnd_isPunct _) hend).trans hbehind, hfound⟩
      · cases h

omit hQ in
/-- Statements that cannot be wrong are nodes of what is read. -/
theorem simple {read : Reader (List NodeKind)} (doc? : Option String)
    (h : Reader.Draws file read fun kinds => ∀ k ∈ kinds, Q k) :
    StatementReader.Draws file Q (Reader.simple doc? read) := by
  have hnodes : Reader.Draws file (nodesOf doc? [] <$> read) fun found => ∀ o ∈ found, o.AllKinds Q :=
    h.map fun _ => allKinds_nodesOf
  exact fun _ _ _ hts hread => hnodes hts (Except.ok.inj hread)

/-- A statement of a known form is a directive, an import, a class or an interface. -/
theorem knownStatement : StatementReader.Draws file Q Reader.knownStatement := by
  intro ts found rest hts h
  unfold Reader.knownStatement at h
  split at h
  · cases h
  · next mid hpreamble =>
    have hmid := leaves_preamble hpreamble
    have hbehind {read : StatementReader} (hread : StatementReader.Draws file Q read)
        (h : read mid = .ok (some (found, rest))) : RestOf rest ts ∧ ∀ o ∈ found, o.AllKinds Q :=
      (hread (hmid.suffix.trans hts) h).imp (fun hrest => hrest.trans hmid) id
    repeat' split at h
    · exact hbehind (simple _ (hQ.directive.map fun _ h => List.forall_mem_singleton.2 h)) h
    · exact hbehind (simple _ hQ.imports) h
    · refine hbehind (fun ts found rest hts h => ?_) h
      unfold classLike at h
      split at h
      · cases h
      · next kind inner hhead =>
        obtain ⟨hinner, hkind⟩ := hQ.classLikeHead hts hhead
        obtain ⟨hrest, hfound⟩ := hQ.classLikeBody hkind (hinner.suffix.trans hts) h
        exact ⟨hrest.trans hinner, hfound⟩

/-- A statement is of a known form, or source text. -/
theorem anyStatement : ItemReader.Draws file Q Reader.statement := by
  intro ts found rest hts h
  unfold Reader.statement at h
  split at h
  · cases h
  · next hknown =>
    obtain rfl := Except.ok.inj h
    exact hQ.knownStatement hts hknown
  · exact hQ.verbatim hts h

/-- A namespace is a node, and perhaps a block with the statements in it. -/
theorem draws_namespaceDecl {ts rest : List Token} {head : Node} {block? : Option (List Outline)}
    (hts : ts <:+ file) (hahead : namespaceAhead ts = true)
    (h : Reader.namespaceDecl ts = .ok ((head, block?), rest)) :
    RestOf rest ts ∧ Q head.kind ∧ ∀ items ∈ block?, ∀ o ∈ items, o.AllKinds Q := by
  unfold Reader.namespaceDecl at h
  dsimp only at h
  split at h
  · cases h
  · next block? mid hbody =>
    obtain ⟨hfound, rfl⟩ := Prod.mk.inj (Except.ok.inj h)
    obtain ⟨rfl, rfl⟩ := Prod.mk.inj hfound
    have hkeyword := restOf_advance (failsEnd_isKeyword _) (Bool.and_eq_true_iff.1 hahead).1
    have hbehind := (restOf_namespaceName (advance ts)).trans hkeyword
    have hkind := hQ.namespaceDecl (hkeyword.suffix.trans hts)
    unfold namespaceBody at hbody
    repeat' split at hbody
    · next hend =>
      obtain ⟨rfl, rfl⟩ := Prod.mk.inj (Except.ok.inj hbody)
      exact ⟨(restOf_advance (failsEnd_isPunct _) hend).trans hbehind, hkind,
        fun items hitems => absurd hitems (Option.not_mem_none items)⟩
    · cases hbody
    · next hopen _ items last hitems =>
      obtain ⟨rfl, rfl⟩ := Prod.mk.inj (Except.ok.inj hbody)
      have hinner := (restOf_advance (failsEnd_isPunct _) hopen).trans hbehind
      obtain ⟨hrest, hnodes⟩ := draws_scopeItems hQ hQ.anyStatement (List.forall_mem_nil _)
        (hinner.suffix.trans hts) hitems
      refine ⟨hrest.trans hinner, hkind, fun items' h => ?_⟩
      obtain rfl := Option.some.inj h
      exact hnodes
    · cases hbody

end Makes

end Reader

namespace Draft

variable {Q : NodeKind → Prop}

/-- A draft of statements whose nodes are of kinds with a property. -/
structure AllKinds (Q : NodeKind → Prop) (d : Draft) : Prop where
  /-- The finished statements. -/
  root : ∀ o ∈ d.root, o.AllKinds Q
  /-- The namespace whose statements are being read, and those statements. -/
  scope : ∀ head items, d.scope? = some (head, items) → Q head.kind ∧ ∀ o ∈ items, o.AllKinds Q

variable {d : Draft} {ts : List Token}

/-- Comments that are put in place are source text. -/
theorem AllKinds.settle (hQ : Reader.Makes file Q) (h : d.AllKinds Q) (hts : ts <:+ file)
    (afterItem : Bool) : (d.settle (Reader.placement afterItem ts)).AllKinds Q := by
  obtain ⟨root, scope?⟩ := d
  cases scope? with
  | none => exact ⟨Reader.Items.allKinds_settle hQ h.root hts afterItem, fun _ _ he => by cases he⟩
  | some inner =>
    obtain ⟨head, items⟩ := inner
    refine ⟨h.root, fun head' items' he => ?_⟩
    obtain ⟨rfl, rfl⟩ := Prod.mk.inj (Option.some.inj he)
    obtain ⟨hhead, hitems⟩ := h.scope head items rfl
    refine ⟨?_, Reader.Items.allKinds_settle hQ hitems hts afterItem⟩
    split
    · exact hhead
    · exact hhead

/-- A statement behind a draft is of kinds with a property as the draft is. -/
theorem AllKinds.push (h : d.AllKinds Q) {found : List Outline} (hfound : ∀ o ∈ found, o.AllKinds Q)
    (comment? : Option (List Char)) : (d.push comment? found).AllKinds Q := by
  obtain ⟨root, scope?⟩ := d
  cases scope? with
  | none => exact ⟨Reader.Items.allKinds_push h.root hfound comment?, fun _ _ he => by cases he⟩
  | some inner =>
    obtain ⟨head, items⟩ := inner
    refine ⟨h.root, fun head' items' he => ?_⟩
    obtain ⟨rfl, rfl⟩ := Prod.mk.inj (Option.some.inj he)
    obtain ⟨hhead, hitems⟩ := h.scope head items rfl
    exact ⟨hhead, Reader.Items.allKinds_push hitems hfound comment?⟩

/-- The end of a namespace changes no kinds. -/
theorem AllKinds.close (h : d.AllKinds Q) : d.close.AllKinds Q := by
  obtain ⟨root, scope?⟩ := d
  cases scope? with
  | none => exact h
  | some inner =>
    obtain ⟨head, items⟩ := inner
    obtain ⟨hhead, hitems⟩ := h.scope head items rfl
    refine ⟨List.forall_mem_cons.2 ⟨.mk hhead fun o ho => ?_, h.root⟩, fun _ _ he => by cases he⟩
    exact hitems o (List.mem_reverse.1 ho)

/-- A namespace behind a draft is of kinds with a property as the draft is. -/
theorem AllKinds.pushNamespace (h : d.AllKinds Q) {head : Node} (hhead : Q head.kind)
    {block? : Option (List Outline)} (hblock : ∀ items ∈ block?, ∀ o ∈ items, o.AllKinds Q) :
    (d.pushNamespace head block?).AllKinds Q := by
  cases block? with
  | none =>
    refine ⟨h.close.root, fun head' items' he => ?_⟩
    obtain ⟨rfl, rfl⟩ := Prod.mk.inj (Option.some.inj he)
    exact ⟨hhead, List.forall_mem_nil _⟩
  | some items =>
    exact ⟨List.forall_mem_cons.2 ⟨.mk hhead (hblock items rfl), h.close.root⟩, h.close.scope⟩

end Draft

/-- The statements of a file are of kinds with a property that everything has that is read there. -/
theorem Reader.Makes.statements {Q : NodeKind → Prop} (hQ : Reader.Makes file Q) {d : Draft}
    {ts : List Token} {found : List Outline} (hd : d.AllKinds Q) (hts : ts <:+ file)
    (h : Reader.statements d ts = .ok found) : ∀ o ∈ found, o.AllKinds Q := by
  have hsettled := hd.settle hQ hts d.afterItem
  unfold Reader.statements at h
  dsimp only at h
  split at h
  · obtain rfl := Except.ok.inj h
    exact fun o ho => hsettled.close.root o (List.mem_reverse.1 ho)
  · split at h
    · next hahead =>
      split at h
      · cases h
      · next head block? rest hnamespace =>
        obtain ⟨hrest, hhead, hblock⟩ := hQ.draws_namespaceDecl hts hahead hnamespace
        refine Reader.Makes.statements hQ (hsettled.pushNamespace ?_ hblock) (hrest.suffix.trans hts) h
        exact hhead
    · split at h
      · cases h
      · split at h
        · cases h
        · next found rest hstatement =>
          obtain ⟨hrest, hfound⟩ := hQ.anyStatement hts hstatement
          exact Reader.Makes.statements hQ (hsettled.push hfound _) (hrest.suffix.trans hts) h
termination_by ts.length
decreasing_by
  · exact Reader.advances_statement ‹_›
  · exact Reader.length_lt_of_namespaceDecl ‹_›

/-- The statements of a file that was read are of kinds with each property that everything has that is
read behind its first token. -/
theorem Outline.all_of_parse {source : String} {file : Outline}
    (h : Outline.parse source = .ok file) :
    ∃ ts statements, Lexer.file source = .ok ts ∧ file = .file statements ∧
      ∀ Q, Reader.Makes ts.tail Q → ∀ o ∈ statements, o.AllKinds Q := by
  unfold Outline.parse at h
  cases htokens : Lexer.file source with
  | error e => rw [htokens] at h; cases h
  | ok ts =>
    rw [htokens] at h
    cases ts with
    | nil =>
      obtain rfl := Except.ok.inj h
      exact ⟨[], [], rfl, rfl, fun _ _ => List.forall_mem_nil _⟩
    | cons first rest =>
      dsimp only [bind, Except.bind] at h
      split at h
      · cases hstatements : Reader.statements ⟨[], none⟩ rest with
        | error e => rw [hstatements] at h; cases h
        | ok statements =>
          rw [hstatements] at h
          obtain rfl := Except.ok.inj h
          refine ⟨first :: rest, statements, rfl, rfl, fun Q hQ => ?_⟩
          have hdraft : Draft.AllKinds Q ⟨[], none⟩ :=
            ⟨List.forall_mem_nil _, fun _ _ he => by cases he⟩
          exact hQ.statements hdraft List.suffix_rfl hstatements
      · obtain rfl := Except.ok.inj h
        exact ⟨first :: rest, [], rfl, rfl, fun _ _ => List.forall_mem_nil _⟩

/-! ## Source text -/

/-- A node without a block and without source text has all of it from anywhere. -/
theorem NodeKind.IsTaken.of_plain {kind : NodeKind} (hblock : kind.block? = none)
    (htext : kind.text? = none) : kind.IsTaken file where
  block body h := by
    rw [hblock] at h
    cases h
  text source h := by
    rw [htext] at h
    cases h

namespace Reader

/-- A block is taken from where it is read. -/
theorem draws_block : Draws file block fun body => ∃ source, body.IsTaken file source := by
  have hsource : Draws file (blockSource? 0) fun source => (Body.ofSource source).IsTaken file source :=
    fun ts source rest hts h => ⟨leaves_blockSource? 0 h, ts, rest, hts, h, rfl⟩
  exact (leaves_expectPunct _).draws.bind fun _ _ => hsource.bind fun source h => .pure ⟨source, h⟩

/-- A block is taken from where it is read, if there is one. -/
theorem draws_blockOrNone :
    Draws file blockOrNone fun body? => ∀ body ∈ body?, ∃ source, body.IsTaken file source := by
  refine (leaves_eatPunct _).draws.bind fun _ _ => .ite (.pure nofun) ?_
  refine draws_block.bind fun body h => .pure ?_
  intro body' hbody
  obtain rfl := Option.some.inj hbody
  exact h

variable {Q : NodeKind → Prop}

/-- Methods have a property if all have it whose body is taken from where it is read. -/
theorem draws_method (modifiers : Modifiers)
    (hQ : ∀ d, (∀ body ∈ d.body?, ∃ source, body.IsTaken file source) → Q (.methodDecl d)) :
    Draws file (method modifiers) fun d => Q (.methodDecl d) :=
  (leaves_expectKeyword _).draws.bind fun _ _ => (leaves_eatPunct _).draws.bind fun _ _ =>
    leaves_name.draws.bind fun _ _ => (leaves_expectPunct _).draws.bind fun _ _ =>
      leaves_params.draws.bind fun _ _ => leaves_returnType.draws.bind fun _ _ =>
        draws_blockOrNone.bind fun _ h => .pure (hQ _ h)

/-- Uses of traits have a property if all have it for which what resolves the conflicts is taken from
where it is read. -/
theorem draws_traitUse (hQ : ∀ traits adaptations?,
      (∀ body ∈ adaptations?, ∃ source, body.IsTaken file source) → Q (.traitUse traits adaptations?)) :
    Draws file traitUse Q :=
  leaves_nameList.draws.bind fun _ _ => draws_blockOrNone.bind fun _ h => .pure (hQ _ _ h)

/-- Kinds that are made of what is read have a property if all such kinds have it. -/
theorem draws_kinds {r : Reader (List α)} (hr : Leaves r) {kind : α → NodeKind} (hQ : ∀ x, Q (kind x)) :
    Draws file r fun xs => ∀ k ∈ xs.map kind, Q k := by
  refine fun ts xs rest _ h => ⟨hr h, fun k hk => ?_⟩
  obtain ⟨x, -, rfl⟩ := List.mem_map.1 hk
  exact hQ x

/-- Members have a property if all constants and properties have it, and all methods and uses of traits
whose blocks are taken from where they are read. -/
theorem draws_memberKinds (hconst : ∀ d, Q (.constDecl d)) (hproperty : ∀ d, Q (.propertyDecl d))
    (hmethod : ∀ d, (∀ body ∈ d.body?, ∃ source, body.IsTaken file source) → Q (.methodDecl d))
    (htraits : ∀ traits adaptations?, (∀ body ∈ adaptations?, ∃ source, body.IsTaken file source) →
      Q (.traitUse traits adaptations?)) :
    Draws file memberKinds fun kinds => ∀ k ∈ kinds, Q k := by
  refine (leaves_eatKeyword _).draws.bind fun _ _ => .ite ?_ ?_
  · exact (draws_traitUse htraits).bind fun kind h => .pure (List.forall_mem_singleton.2 h)
  refine leaves_modifiers.draws.bind fun _ _ => (leaves_eatKeyword _).draws.bind fun _ _ => .ite ?_ ?_
  · exact (draws_kinds (leaves_constants _) hconst).bind fun _ h => .pure h
  refine leaves_look.draws.bind fun _ _ => .ite ?_ (.ite (fun _ _ _ _ h => nomatch h) ?_)
  · exact (draws_method _ hmethod).bind fun d h => .pure (List.forall_mem_singleton.2 h)
  · exact (draws_kinds (leaves_properties _) hproperty).bind fun _ h => .pure h

/-- The head of a class or interface has no source text. -/
theorem isTaken_of_classLikeHead {ts rest : List Token} {kind : NodeKind}
    (h : classLikeHead ts = some (kind, rest)) : kind.IsTaken file := by
  unfold classLikeHead at h
  repeat' split at h
  all_goals
    obtain ⟨_, -, rfl⟩ := map_eq_some h
    exact .of_plain rfl rfl

/-- Directives have a property that all of them have. -/
theorem draws_directive (hQ : ∀ key value, Q (.directive key value)) : Draws file directive Q :=
  (leaves_expectKeyword _).draws.bind fun _ _ => (leaves_expectPunct _).draws.bind fun _ _ =>
    leaves_name.draws.bind fun _ _ => (leaves_expectPunct _).draws.bind fun _ _ =>
      (leaves_expression _).draws.bind fun _ _ => (leaves_expectPunct _).draws.bind fun _ _ =>
        (leaves_expectPunct _).draws.bind fun _ _ => .pure (hQ _ _)

/-- Imports have a property that all of them have. -/
theorem draws_imports (hQ : ∀ name alias?, Q (.useDecl name alias?)) :
    Draws file imports fun kinds => ∀ k ∈ kinds, Q k := by
  refine fun ts kinds rest _ h => ⟨leaves_imports h, fun k hk => ?_⟩
  obtain ⟨_, _, -, h⟩ := bind_eq_some h
  obtain ⟨_, _, -, h⟩ := bind_eq_some h
  split at h
  · cases h
  · obtain ⟨names, _, hnames, h⟩ := bind_eq_some h
    obtain ⟨_, _, -, h⟩ := bind_eq_some h
    obtain ⟨rfl, -⟩ := Prod.mk.inj (Option.some.inj h)
    refine forall_of_commaList (fun _ _ _ hname => ?_) hnames k hk
    obtain ⟨_, _, -, hname⟩ := bind_eq_some hname
    obtain ⟨_, _, -, hname⟩ := bind_eq_some hname
    obtain ⟨rfl, -⟩ := Prod.mk.inj (Option.some.inj hname)
    exact hQ _ _

/-- Source text that was read makes a node. -/
theorem isTaken_verbatim {text : List Char} (h : IsTakenText file text) :
    (NodeKind.verbatim (String.ofList text)).IsTaken file := by
  refine ⟨nofun, fun source hsource => ?_⟩
  obtain rfl := Option.some.inj hsource
  rwa [String.toList_ofList]

/-- All source text of what is read in a file is taken from where it is read. -/
theorem makes_isTaken (file : List Token) : Makes file fun kind => kind.IsTaken file where
  directive := draws_directive fun _ _ => .of_plain rfl rfl
  imports := draws_imports fun _ _ => .of_plain rfl rfl
  classLikeHead _ _ _ _ h := ⟨leaves_classLikeHead h, isTaken_of_classLikeHead h⟩
  memberKinds := draws_memberKinds (fun _ => .of_plain rfl rfl) (fun _ => .of_plain rfl rfl)
    (fun _ h => ⟨h, nofun⟩) fun _ _ h => ⟨h, nofun⟩
  namespaceDecl _ _ := .of_plain rfl rfl
  statement _ _ _ hts _ h := isTaken_verbatim (.statement hts h)
  comments _ _ _ hts h := isTaken_verbatim (.comments hts h)

end Reader

/-- All source text in a file that was read was taken from its tokens behind the first one. -/
theorem Outline.isTaken_of_parse {source : String} {file : Outline}
    (h : Outline.parse source = .ok file) : ∃ ts, Lexer.file source = .ok ts ∧ file.IsTaken ts.tail := by
  obtain ⟨ts, statements, hfile, rfl, hall⟩ := Outline.all_of_parse h
  exact ⟨ts, hfile, .mk (.of_plain rfl rfl) (hall _ (Reader.makes_isTaken ts.tail))⟩

end PhpGraft

import PhpGraft.Proofs.Syntax.Runs
import PhpGraft.Proofs.Syntax.Scopes

/-!
# The gaps between the items of a file

The reader looks for comments in the gap ahead of each statement and each member, and in the gap ahead
of the end of each scope: of the file, of a namespace, and of the body of a class or interface. Each
comment of such a gap is kept in exactly one place of the scope.
-/

namespace PhpGraft

open Reader

/-- What a scope is: a file or a namespace without a block, the block of a namespace, or the body of a
class or interface. -/
inductive ScopeLevel where
  | file | block | body

/-- The first item that a reader gives: its node and the outlines below it. -/
def Reader.ItemReader.ReadsFirst (item : ItemReader) (ts : List Token) (n : Node)
    (children? : Option (List Outline)) : Prop :=
  ∃ children more rest, item ts = .ok (.mk n children :: more, rest) ∧ children? = some children

/-- What is read next in a scope: a node, and the outlines below it. Those below a namespace without a
block are read later. -/
def ScopeLevel.Reads (level : ScopeLevel) (ts : List Token) (n : Node)
    (children? : Option (List Outline)) : Prop :=
  match level with
  | file =>
    (namespaceAhead ts = true ∧ ∃ rest, namespaceDecl ts = .ok ((n, children?), rest)) ∨
      (namespaceAhead ts = false ∧ statement.ReadsFirst ts n children?)
  | block => statement.ReadsFirst ts n children?
  | body => member.ReadsFirst ts n children?

/-- A gap between the items of a scope, or ahead of its end. -/
structure ItemGap where
  /-- What the scope is. -/
  level : ScopeLevel
  /-- The path to the scope. -/
  scope : List Nat
  /-- The number of outlines of the scope that stand ahead of the gap. -/
  count : Nat
  /-- Whether there is an item that comments of the gap can stand behind. -/
  afterItem : Bool
  /-- The tokens behind the gap. -/
  tokens : List Token
  /-- The path to the item behind the gap, if there is one. -/
  next : List Nat

namespace ItemGap

/-- The source of a gap. -/
def text (g : ItemGap) : List Char := (g.tokens.head?.map Token.gap).getD []

/-- Whether the scope ends behind a gap. -/
def atEnd (g : ItemGap) : Bool := scopeEnds g.tokens

/-- Where the comments of a gap belong. -/
def placement (g : ItemGap) : Placement := Reader.placement g.afterItem g.tokens

/-- The gap behind the first outlines of a scope. -/
def behind (level : ScopeLevel) (scope : List Nat) (count : Nat) (afterItem : Bool)
    (ts : List Token) : ItemGap where
  level := level
  scope := scope
  count := count
  afterItem := afterItem
  tokens := ts
  next := scope ++ [count + (Reader.placement afterItem ts).detached.length]

end ItemGap

/-- The gap behind the items of a scope that were read so far. -/
def Reader.Items.gap (items : Items) (level : ScopeLevel) (scope : List Nat) (ts : List Token) :
    ItemGap :=
  .behind level scope items.length (!items.isEmpty) ts

/-- The gap behind a draft. A namespace without a block is the item ahead of the first gap in it, and a
namespace behind it is the item behind the last one. -/
def Draft.gap (d : Draft) (ts : List Token) : ItemGap :=
  match d.scope? with
  | none => d.root.gap .file [] ts
  | some (_, items) =>
    let g := ItemGap.behind .file [d.root.length] items.length true ts
    if namespaceAhead ts then { g with next := [d.root.length + 1] } else g

/-! ## The gaps that the reader gets to -/

/-- The items of a scope with certain tokens that are read before the loop gets to other tokens. -/
inductive Reader.ItemReader.Reaches (item : ItemReader) (start : List Token) :
    Items → List Token → Prop where
  /-- Nothing is read at first. -/
  | start : Reaches item start [] start
  /-- Another item is read, and the gap ahead of it is settled. -/
  | item {items : Items} {ts rest : List Token} {found : List Outline}
    (h : Reaches item start items ts) (hmore : scopeEnds ts = false)
    (hread : item ts = .ok (found, rest)) :
    Reaches item start ((items.settle (placement (!items.isEmpty) ts)).push
      (placement (!items.isEmpty) ts).leading? found) rest

/-- The draft of a file with certain tokens that is made before the loop gets to other tokens. -/
inductive Draft.Reaches (start : List Token) : Draft → List Token → Prop where
  /-- Nothing is read at first. -/
  | start : Reaches start ⟨[], none⟩ start
  /-- A namespace is read. -/
  | namespaceDecl {d : Draft} {ts rest : List Token} {head : Node} {block? : Option (List Outline)}
    (h : Reaches start d ts) (hahead : namespaceAhead ts = true)
    (hread : Reader.namespaceDecl ts = .ok ((head, block?), rest)) :
    Reaches start ((d.settle (placement d.afterItem ts)).pushNamespace
      { head with comment? := (placement d.afterItem ts).leading?.map String.ofList } block?) rest
  /-- A statement is read. -/
  | statement {d : Draft} {ts rest : List Token} {found : List Outline}
    (h : Reaches start d ts) (hmore : scopeEnds ts = false) (hahead : namespaceAhead ts = false)
    (hread : Reader.statement ts = .ok (found, rest)) :
    Reaches start ((d.settle (placement d.afterItem ts)).push
      (placement d.afterItem ts).leading? found) rest

/-- The block of statements of a namespace that is read next, and the tokens in it. -/
def Reader.OpensBlock (ts inner : List Token) : Prop :=
  namespaceAhead ts = true ∧ (peek (namespaceName (advance ts)).2).isPunct '{' = true ∧
    inner = advance (namespaceName (advance ts)).2

/-- The body of a class or interface that is read next: the node, and the tokens in the body. -/
inductive Reader.OpensBody (ts : List Token) : Node → List Token → Prop where
  | mk {doc? : Option String} {attributes : List Attribute} {kind : NodeKind} {mid rest : List Token}
    (hpreamble : preamble ts = some ((doc?, attributes), mid))
    (hplain : attributes.isEmpty = true →
      (peek mid).isKeyword "declare" = false ∧ (peek mid).isKeyword "use" = false)
    (hhead : classLikeHead mid = some (kind, rest)) (hopen : (peek rest).isPunct '{' = true) :
    OpensBody ts { kind, doc?, attributes } (advance rest)

/-- The gaps of a file between statements, those in the blocks of namespaces included. -/
inductive StatementGap (start : List Token) : ItemGap → Prop where
  /-- A gap of the file, or of a namespace without a block. -/
  | file {d : Draft} {ts : List Token} (h : Draft.Reaches start d ts) : StatementGap start (d.gap ts)
  /-- A gap in the block of a namespace. -/
  | block {d : Draft} {ts inner us : List Token} {items : Items} (h : Draft.Reaches start d ts)
    (hopens : OpensBlock ts inner) (hitems : statement.Reaches inner items us) :
    StatementGap start (items.gap .block (d.gap ts).next us)

/-- The gaps of a source, each with the outline that has its scope: the file, or a class that is read
and then given up. -/
inductive GapOf (source : String) : Outline → ItemGap → Prop where
  /-- A gap between statements. -/
  | statement {file : Outline} {tag : Token} {start : List Token} {g : ItemGap}
    (hparse : Outline.parse source = .ok file) (hlex : Lexer.file source = .ok (tag :: start))
    (htag : tag.kind = .openTag) (h : StatementGap start g) : GapOf source file g
  /-- A gap between the members of a class or interface. -/
  | member {file : Outline} {tag : Token} {start inner us rest : List Token} {g : ItemGap}
    {head : Node} {members : List Outline} {items : Items}
    (hparse : Outline.parse source = .ok file) (hlex : Lexer.file source = .ok (tag :: start))
    (htag : tag.kind = .openTag) (h : StatementGap start g) (hopens : OpensBody g.tokens head inner)
    (hread : knownStatement g.tokens = .ok (some ([.mk head members], rest)))
    (hitems : Reader.member.Reaches inner items us) : GapOf source file (items.gap .body g.next us)
  /-- A gap between the members of an anonymous class, if what follows the class is not the end of the
  statement, so that the statement is kept as source text. -/
  | dropped {tag : Token} {start inner us rest : List Token} {g : ItemGap} {unclosed : ParseError}
    {head : Node} {members : List Outline} {items : Items}
    (hlex : Lexer.file source = .ok (tag :: start))
    (htag : tag.kind = .openTag) (h : StatementGap start g) (hopens : OpensBody g.tokens head inner)
    (hread : scopeItems Reader.member advances_member unclosed [] inner = .ok (members, rest))
    (hnone : knownStatement g.tokens = .ok none)
    (hitems : Reader.member.Reaches inner items us) :
      GapOf source (.mk head members) (items.gap .body [] us)

/-- Whether a source is read, and what is read and the tokens behind the open tag pass a test. -/
def Outline.readsWith (source : String) (p : Outline → List Token → Bool) : Bool :=
  match Outline.parse source, Lexer.file source with
  | .ok file, .ok (tag :: start) => tag.kind == .openTag && p file start
  | _, _ => false

/-- What is read of a source that passes a test, and its tokens. -/
theorem Outline.exists_of_readsWith {source : String} {p : Outline → List Token → Bool}
    (h : readsWith source p = true) :
    ∃ file tag start, Outline.parse source = .ok file ∧ Lexer.file source = .ok (tag :: start) ∧
      tag.kind = .openTag ∧ p file start = true := by
  unfold readsWith at h
  split at h
  · next file tag start hparse hlex =>
    obtain ⟨htag, hp⟩ := Bool.and_eq_true_iff.1 h
    exact ⟨file, tag, start, hparse, hlex, eq_of_beq htag, hp⟩
  · cases h

/-! ## What the loops leave behind -/

namespace Reader

variable {item : ItemReader} {hitem : item.Advances} {unclosed : ParseError} {items : Items}
  {start ts rest : List Token} {found : List Outline}

/-- The loop over the items of a scope goes on from where it got to. -/
theorem ItemReader.Reaches.scopeItems_eq (h : item.Reaches start items ts) :
    scopeItems item hitem unclosed [] start = scopeItems item hitem unclosed items ts := by
  induction h with
  | start => rfl
  | @item items ts rest found _ hmore hread ih =>
    obtain ⟨hend, hclose⟩ := Bool.or_eq_false_iff.1 hmore
    rw [ih]
    conv_lhs => unfold scopeItems
    dsimp only
    rw [if_neg (Bool.eq_false_iff.1 hclose), if_neg (Bool.eq_false_iff.1 hend)]
    split
    · next hfail =>
      rw [hread] at hfail
      cases hfail
    · next hfound =>
      obtain ⟨rfl, rfl⟩ := Prod.mk.inj (Except.ok.inj (hread.symm.trans hfound))
      rfl

/-- There are no comments yet behind the item that was read last. -/
theorem ItemReader.Reaches.fresh (hbare : item.Bare) (h : item.Reaches start items ts) :
    items.Fresh := by
  cases h with
  | start => exact fun _ h => nomatch h
  | item _ _ hread =>
    obtain ⟨hne, htrailing⟩ := hbare hread
    exact Items.fresh_push hne htrailing _ _

/-- Reading items takes tokens from the front, but not the end of the source. -/
theorem ItemReader.Reaches.restOf {file : List Token} {Q : NodeKind → Prop}
    (hdraws : ItemReader.Draws file Q item) (hstart : start <:+ file)
    (h : item.Reaches start items ts) : RestOf ts start := by
  induction h with
  | start => exact .refl _
  | item _ _ hread ih => exact (hdraws (ih.suffix.trans hstart) hread).1.trans ih

end Reader

namespace Draft

variable {start ts : List Token} {d : Draft}

/-- The loop over the statements of a file goes on from where it got to. -/
theorem Reaches.statements_eq (h : Draft.Reaches start d ts) :
    Reader.statements ⟨[], none⟩ start = Reader.statements d ts := by
  induction h with
  | start => rfl
  | namespaceDecl _ hahead hread ih =>
    rw [ih]
    conv_lhs => unfold Reader.statements
    dsimp only
    rw [if_neg (Bool.eq_false_iff.1 (isEnd_of_namespaceAhead hahead)), if_pos hahead]
    split
    · next hfail =>
      rw [hread] at hfail
      cases hfail
    · next hfound =>
      obtain ⟨hpair, rfl⟩ := Prod.mk.inj (Except.ok.inj (hread.symm.trans hfound))
      obtain ⟨rfl, rfl⟩ := Prod.mk.inj hpair
      rfl
  | statement _ hmore hahead hread ih =>
    obtain ⟨hend, hclose⟩ := Bool.or_eq_false_iff.1 hmore
    rw [ih]
    conv_lhs => unfold Reader.statements
    dsimp only
    rw [if_neg (Bool.eq_false_iff.1 hend), if_neg (Bool.eq_false_iff.1 hahead),
      if_neg (Bool.eq_false_iff.1 hclose)]
    split
    · next hfail =>
      rw [hread] at hfail
      cases hfail
    · next hfound =>
      obtain ⟨rfl, rfl⟩ := Prod.mk.inj (Except.ok.inj (hread.symm.trans hfound))
      rfl

/-- Whether there are no comments yet behind the last item of a draft, which is a namespace without a
block if nothing is read in it. -/
def Fresh (d : Draft) : Prop :=
  match d.scope? with
  | none => d.root.Fresh
  | some (head, items) => items.Fresh ∧ (items = [] → head.trailing? = none)

/-- There are no comments yet behind the item that was read last. -/
theorem Reaches.fresh (h : Draft.Reaches start d ts) : d.Fresh := by
  cases h with
  | start => exact fun _ h => nomatch h
  | @namespaceDecl d ts rest head block? _ _ hread =>
    have hhead : head.trailing? = none := by
      unfold Reader.namespaceDecl at hread
      dsimp only at hread
      split at hread
      · cases hread
      · obtain ⟨hpair, -⟩ := Prod.mk.inj (Except.ok.inj hread)
        obtain ⟨rfl, -⟩ := Prod.mk.inj hpair
        rfl
    cases block? with
    | none => exact ⟨nofun, fun _ => hhead⟩
    | some items =>
      have hclosed : (d.settle (placement d.afterItem ts)).close.scope? = none := by
        rcases d with ⟨root, _ | ⟨h, items⟩⟩ <;> rfl
      unfold Fresh pushNamespace
      dsimp only
      rw [hclosed]
      intro last hlast
      obtain rfl := Option.some.inj hlast
      exact hhead
  | @statement d ts rest found _ _ _ hread =>
    obtain ⟨hne, htrailing⟩ := bare_statement hread
    rcases d with ⟨root, _ | ⟨head, items⟩⟩
    · exact Items.fresh_push hne htrailing _ _
    · refine ⟨Items.fresh_push hne htrailing _ _, fun hnil => ?_⟩
      obtain ⟨first, more, rfl⟩ := List.exists_cons_of_ne_nil hne
      simp [Items.push] at hnil

/-- Reading statements takes tokens from the front, but not the end of the source. -/
theorem Reaches.restOf (h : Draft.Reaches start d ts) : RestOf ts start := by
  induction h with
  | start => exact .refl _
  | namespaceDecl _ hahead hread ih =>
    exact ((makes_any start).draws_namespaceDecl ih.suffix hahead hread).1.trans ih
  | statement _ _ _ hread ih => exact ((makes_any start).anyStatement ih.suffix hread).1.trans ih

end Draft

namespace Reader

variable {ts inner : List Token} {head : Node}

/-- A token is no two keywords. -/
theorem eqIgnoreCase_of_isKeyword {t : Token} {a b : String} (ha : t.isKeyword a = true)
    (hb : t.isKeyword b = true) : Text.eqIgnoreCase a b = true := by
  have hsame {keyword : String} (h : t.isKeyword keyword = true) :
      Text.lowerAscii t.source = Text.lowerAscii keyword :=
    eq_of_beq (Bool.and_eq_true_iff.1 h).2
  exact beq_of_eq ((hsame ha).symm.trans (hsame hb))

/-- The words that a class or interface starts with. -/
def classWords : List String := ["interface", "return", "class", "abstract", "final", "readonly"]

/-- The modifiers of a class start with a modifier, or the class has none. -/
theorem exists_keyword_of_classModifiers {found modifiers : Modifiers} {ts rest : List Token}
    (h : classModifiers found ts = some (modifiers, rest)) :
    ∃ word ∈ classWords, (peek ts).isKeyword word = true := by
  induction ts with
  | nil => cases h
  | cons t ts ih =>
    unfold classModifiers at h
    split at h
    · next hdoc =>
      obtain ⟨word, hword, hkeyword⟩ := ih h
      refine ⟨word, hword, ?_⟩
      rw [peek, skipDocs, List.dropWhile_cons_of_pos hdoc]
      exact hkeyword
    next hdoc =>
      have hpeek : peek (t :: ts) = t := by
        rw [peek, skipDocs, List.dropWhile_cons_of_neg hdoc]
        rfl
      rw [hpeek]
      repeat' split at h
      · next hkeyword => exact ⟨"class", by decide, hkeyword⟩
      · next hkeyword => exact ⟨"abstract", by decide, hkeyword⟩
      · next hkeyword => exact ⟨"final", by decide, hkeyword⟩
      · next hkeyword => exact ⟨"readonly", by decide, hkeyword⟩
      · cases h

/-- A class or interface starts with one of some words. -/
theorem exists_keyword_of_classLikeHead {kind : NodeKind} {rest : List Token}
    (h : classLikeHead ts = some (kind, rest)) :
    ∃ word ∈ classWords, (peek ts).isKeyword word = true := by
  unfold classLikeHead at h
  repeat' split at h
  · next hkeyword => exact ⟨"interface", by decide, hkeyword⟩
  · next hahead =>
    obtain ⟨hreturn, -⟩ := Bool.and_eq_true_iff.1 (Bool.and_eq_true_iff.1 hahead).1
    exact ⟨"return", by decide, hreturn⟩
  · obtain ⟨decl, hclass, -⟩ := map_eq_some h
    obtain ⟨modifiers, mid, hmodifiers, -⟩ := bind_eq_some hclass
    exact exists_keyword_of_classModifiers hmodifiers

/-- Where a class or interface is read, there is a statement that is no namespace. -/
theorem OpensBody.more (h : OpensBody ts head inner) :
    scopeEnds ts = false ∧ namespaceAhead ts = false := by
  obtain ⟨hpreamble, -, hhead, -⟩ := h
  obtain ⟨⟨attributes', mid'⟩, hattributes, he⟩ := Option.bind_eq_some_iff.1 hpreamble
  obtain ⟨-, rfl⟩ := Prod.mk.inj (Option.some.inj he)
  unfold attributes at hattributes
  split at hattributes
  · next hopen =>
    have hkind : (peek ts).kind = .attributeOpen := eq_of_beq hopen
    constructor
    · simp [scopeEnds, Token.isEnd, Token.isPunct, hkind]
    · simp [namespaceAhead, Token.isKeyword, hkind]
  · obtain ⟨-, rfl⟩ := Prod.mk.inj (Option.some.inj hattributes)
    obtain ⟨word, hword, hkeyword⟩ := exists_keyword_of_classLikeHead hhead
    have hkind : (peek ts).kind = .name := eq_of_beq (Bool.and_eq_true_iff.1 hkeyword).1
    constructor
    · simp [scopeEnds, Token.isEnd, Token.isPunct, hkind]
    · refine Bool.eq_false_iff.2 fun hahead => ?_
      have hnamespace := (Bool.and_eq_true_iff.1 hahead).1
      have hsame := eqIgnoreCase_of_isKeyword hnamespace hkeyword
      exact absurd hsame
        ((by decide : ∀ w ∈ classWords, ¬Text.eqIgnoreCase "namespace" w = true) word hword)

/-- The tokens in a body are behind the head of the class or interface. -/
theorem OpensBody.restOf (h : OpensBody ts head inner) : RestOf inner ts := by
  obtain ⟨hpreamble, -, hhead, hopen⟩ := h
  exact (restOf_advance (failsEnd_isPunct _) hopen).trans
    ((leaves_classLikeHead hhead).trans (leaves_preamble hpreamble))

/-- The tokens in a block are behind the name of the namespace. -/
theorem OpensBlock.restOf (h : OpensBlock ts inner) : RestOf inner ts := by
  obtain ⟨hahead, hopen, rfl⟩ := h
  exact (restOf_advance (failsEnd_isPunct _) hopen).trans
    ((restOf_namespaceName _).trans
      (restOf_advance (failsEnd_isKeyword _) (Bool.and_eq_true_iff.1 hahead).1))

/-- What is read at a class or interface has the members of its body. -/
theorem OpensBody.exists_members {rest : List Token} {found : List Outline}
    (h : OpensBody ts head inner) (hread : knownStatement ts = .ok (some (found, rest))) :
    ∃ members unclosed mid, found = [.mk head members] ∧
      scopeItems member advances_member unclosed [] inner = .ok (members, mid) := by
  obtain ⟨hpreamble, hplain, hhead, hopen⟩ := h
  unfold knownStatement at hread
  rw [hpreamble] at hread
  dsimp only at hread
  split at hread
  · next hdeclare =>
    obtain ⟨hempty, hkeyword⟩ := Bool.and_eq_true_iff.1 hdeclare
    rw [(hplain hempty).1] at hkeyword
    cases hkeyword
  split at hread
  · next huse =>
    obtain ⟨hempty, hkeyword⟩ := Bool.and_eq_true_iff.1 huse
    rw [(hplain hempty).2] at hkeyword
    cases hkeyword
  · obtain ⟨kind', mid', hhead', hbody⟩ := exists_of_classLike hread
    obtain ⟨rfl, rfl⟩ := Prod.mk.inj (Option.some.inj (hhead.symm.trans hhead'))
    obtain ⟨members, mid, -, hmembers, hfound, -⟩ := exists_of_classLikeBody hbody
    exact ⟨members, _, mid, hfound, hmembers⟩

/-- What is read at a namespace with a block has the statements of the block. -/
theorem OpensBlock.exists_statements {rest : List Token} {block? : Option (List Outline)}
    (h : OpensBlock ts inner) (hread : namespaceDecl ts = .ok ((head, block?), rest)) :
    ∃ items unclosed mid, block? = some items ∧
      scopeItems statement advances_statement unclosed [] inner = .ok (items, mid) := by
  obtain ⟨-, hopen, rfl⟩ := h
  unfold namespaceDecl at hread
  dsimp only at hread
  split at hread
  · cases hread
  · next block? mid hbody =>
    obtain ⟨hfound, rfl⟩ := Prod.mk.inj (Except.ok.inj hread)
    obtain ⟨-, rfl⟩ := Prod.mk.inj hfound
    unfold namespaceBody at hbody
    split at hbody
    · next hend =>
      -- A brace is no semicolon.
      have hbrace := (eq_of_beq hopen).symm.trans (eq_of_beq hend)
      cases hbrace
    · split at hbody
      · cases hbody
      · next items last hitems =>
        obtain ⟨rfl, rfl⟩ := Prod.mk.inj (Except.ok.inj hbody)
        exact ⟨items, _, last, rfl, hitems⟩

end Reader

end PhpGraft

import PhpGraft.Proofs.Syntax.Gaps

/-!
# Comments and doc comments in what is read

Each run of comments in a gap between items is found again in the file that is read: behind the item
ahead of the gap, as a text of its own, or above the item behind the gap. No comment is in two of these
places (`comments_placed_once`).

Doc comments are tokens and in no gap. The last one ahead of an item is the doc comment of the item
(`last_doc_kept`). Those ahead of the end of a file, of a namespace or of a body are skipped: all that is
put there are the plain comments of the gap (`children_at_end`), so these doc comments are in nothing that
is read.
-/

namespace PhpGraft

open Reader

/-- An outline is a node that was read, with comments above it, and over what was read below it. -/
structure Outline.Shows (o : Outline) (n : Node) (children? : Option (List Outline))
    (comment? : Option (List Char)) : Prop where
  kind : o.node.kind = n.kind
  doc? : o.node.doc? = n.doc?
  comment? : o.node.comment? = comment?.map String.ofList
  children : ∀ children ∈ children?, o.children = children

namespace ItemGap

/-- The comments of a gap are in its scope: behind the item ahead of the gap, or by themselves. -/
structure KeepsBehind (g : ItemGap) (host scope : Outline) (before behind : List Outline) : Prop where
  /-- The scope is where it should be. -/
  at_scope : host.at? g.scope = some scope
  /-- What stands by itself is between the items ahead of the gap and those behind it. -/
  children : scope.children = before ++ g.placement.detached.map Outline.verbatim ++ behind
  /-- The items ahead of the gap are those that were read. -/
  count : before.length = g.count
  /-- What trails the item ahead of the gap is behind it. That item is the last one of the scope or, in
  a namespace without a block, the namespace itself if nothing else is ahead of the gap. -/
  trailing? : g.afterItem = true →
    ((scope :: before).getLast (List.cons_ne_nil _ _)).node.trailing? =
      g.placement.trailing?.map String.ofList

/-- The comments of a gap are in what is read: in its scope, or above the item behind it. -/
structure Keeps (g : ItemGap) (host scope : Outline) (before behind : List Outline) : Prop
    extends g.KeepsBehind host scope before behind where
  /-- Nothing is behind the gap where the scope ends. -/
  ended : g.atEnd = true → behind = []
  /-- What is read behind the gap has the comments above it. -/
  next : g.atEnd = false → ∃ n children? o, g.level.Reads g.tokens n children? ∧
    host.at? g.next = some o ∧ o.Shows n children? g.placement.leading?

end ItemGap

namespace Reader

/-- What was read first, with comments around it. -/
theorem ItemReader.readsFirst_of_put {item : ItemReader} {ts mid : List Token} {read o : Outline}
    {more : List Outline} {comment? : Option (List Char)}
    (hread : item ts = .ok (read :: more, mid)) (hput : read.Put comment? o) :
    ∃ n children?, item.ReadsFirst ts n children? ∧ o.Shows n children? comment? := by
  have hcomment := hput.comment?
  have hchildren := hput.children
  obtain ⟨hkind, hdoc⟩ := hput.node
  rcases read with ⟨n, children⟩
  refine ⟨n, some children, ⟨children, more, mid, hread, rfl⟩, ⟨hkind, hdoc, hcomment, ?_⟩⟩
  intro children' hsome
  obtain rfl := Option.some.inj hsome
  exact hchildren

end Reader

/-- The outline behind the gap in a scope. -/
theorem Outline.at?_behind {host scope o : Outline} {path : List Nat} {before gap tail : List Outline}
    (hat : host.at? path = some scope) (hchildren : scope.children = before ++ gap ++ o :: tail) :
    host.at? (path ++ [before.length + gap.length]) = some o := by
  rw [Outline.at?_append, hat, Option.bind_some, Outline.at?_singleton, hchildren]
  have hlength : before.length + gap.length = (before ++ gap).length := (List.length_append).symm
  rw [hlength, List.getElem?_append_right (Nat.le_refl _), Nat.sub_self]
  rfl

/-- A scope that starts with some items as they are behind a gap keeps the comments of the gap. -/
theorem Reader.Items.keepsBehind {items : Items} {path : List Nat} {afterItem : Bool}
    {ts : List Token} {host scope : Outline} {behind : List Outline} (level : ScopeLevel)
    (hat : host.at? path = some scope) (hfresh : items.Fresh)
    (hchildren : scope.children = (items.settle (placement afterItem ts)).reverse ++ behind)
    (hempty : items = [] → afterItem = true →
      scope.node.trailing? = (placement afterItem ts).trailing?.map String.ofList) :
    (ItemGap.behind level path items.length afterItem ts).KeepsBehind host scope
      (items.trailed (placement afterItem ts).trailing?).reverse behind where
  at_scope := hat
  children := by
    show _ = _ ++ (placement afterItem ts).detached.map Outline.verbatim ++ behind
    rw [hchildren, Items.settle_eq hfresh, List.reverse_append, List.reverse_reverse]
  count := (List.length_reverse).trans (Items.length_trailed _ _)
  trailing? hafter := by
    show _ = (placement afterItem ts).trailing?.map String.ofList
    cases items with
    | nil => exact hempty rfl hafter
    | cons last before =>
      show ((scope :: ((last.withTrailing _ :: before).reverse)).getLast _).node.trailing? = _
      simp only [List.reverse_cons, List.getLast_cons (List.append_ne_nil_of_right_ne_nil _
        (List.cons_ne_nil _ _)), List.getLast_append_singleton]
      rcases last with ⟨n, children⟩
      rfl

/-! ## One scope -/

/-- A block or a body that is read keeps the comments of each of its gaps. -/
theorem Reader.ItemReader.Reaches.exists_keeps {item : ItemReader} {hitem : item.Advances}
    {unclosed : ParseError} {items : Items} {start ts rest : List Token} {path : List Nat}
    {host scope : Outline} (level : ScopeLevel) (hbare : item.Bare)
    (hlevel : ∀ us n children?, item.ReadsFirst us n children? → level.Reads us n children?)
    (h : item.Reaches start items ts)
    (hread : scopeItems item hitem unclosed [] start = .ok (scope.children, rest))
    (hat : host.at? path = some scope) :
    ∃ before behind, (items.gap level path ts).Keeps host scope before behind := by
  rw [h.scopeItems_eq] at hread
  obtain ⟨behind, hchildren, hended, hnext⟩ := exists_items_behind hbare hread
  have hempty : items = [] → (!items.isEmpty) = true →
      scope.node.trailing? = (placement (!items.isEmpty) ts).trailing?.map String.ofList := by
    rintro rfl hafter
    cases hafter
  have hbehind := Items.keepsBehind level hat (h.fresh hbare) hchildren hempty
  refine ⟨_, behind, hbehind, hended, fun hmore => ?_⟩
  obtain ⟨read, more, mid, o, tail, hfirst, rfl, hput⟩ := hnext hmore
  obtain ⟨n, children?, hreads, hshows⟩ := ItemReader.readsFirst_of_put hfirst hput
  refine ⟨n, children?, o, hlevel ts n children? hreads, ?_, hshows⟩
  have hthere := Outline.at?_behind hat hbehind.children
  rw [hbehind.count, List.length_map] at hthere
  exact hthere

namespace Reader

/-- A namespace ahead is not the end of a scope. -/
theorem scopeEnds_of_namespaceAhead {ts : List Token} (h : namespaceAhead ts = true) :
    scopeEnds ts = false := by
  have hkind : (peek ts).kind = .name :=
    eq_of_beq (Bool.and_eq_true_iff.1 (Bool.and_eq_true_iff.1 h).1).1
  simp [scopeEnds, Token.isEnd, Token.isPunct, hkind]

variable {ts : List Token} {comment? : Option (List Char)} {inside behind : List Outline}

/-- Nothing is read next in a file only where it ends. -/
theorem NextStatement.ended_of_scopeEnds (h : NextStatement ts comment? inside behind)
    (hends : scopeEnds ts = true) : inside = [] ∧ behind = [] := by
  cases h with
  | ended => exact ⟨rfl, rfl⟩
  | namespaceDecl hahead =>
    rw [scopeEnds_of_namespaceAhead hahead] at hends
    cases hends
  | statement hmore =>
    rw [hmore] at hends
    cases hends

/-- What is read next in a file is a namespace behind its scope, or a statement in it. -/
theorem NextStatement.exists_next (h : NextStatement ts comment? inside behind)
    (hmore : scopeEnds ts = false) :
    ∃ n children? o tail, ScopeLevel.file.Reads ts n children? ∧ o.Shows n children? comment? ∧
      if namespaceAhead ts then inside = [] ∧ behind = o :: tail else inside = o :: tail := by
  cases h with
  | ended hend =>
    rw [scopeEnds, hend, Bool.true_or] at hmore
    cases hmore
  | @namespaceDecl head block? mid o tail trailing? hahead hread hnode hchildren =>
    refine ⟨head, block?, o, tail, .inl ⟨hahead, mid, hread⟩, ?_, ?_⟩
    · exact ⟨by rw [hnode], by rw [hnode], by rw [hnode], hchildren⟩
    · rw [if_pos hahead]
      exact ⟨rfl, rfl⟩
  | @statement read o more tail behind mid _ hahead hread hput =>
    obtain ⟨n, children?, hreads, hshows⟩ := ItemReader.readsFirst_of_put hread hput
    refine ⟨n, children?, o, tail, .inr ⟨hahead, hreads⟩, hshows, ?_⟩
    rw [hahead]
    rfl

end Reader

section Statements

variable {root items : Items} {ts : List Token} {inside behind found : List Outline}

/-- A file keeps the comments of each gap between its statements. -/
theorem Draft.exists_keeps_root (hfresh : root.Fresh)
    (hfinish : found = (root.settle (placement (!root.isEmpty) ts)).reverse ++ (inside ++ behind))
    (hnext : NextStatement ts (placement (!root.isEmpty) ts).leading? inside behind) :
    ∃ scope before behind, (Draft.gap ⟨root, none⟩ ts).Keeps (.file found) scope before behind := by
  have hempty : root = [] → (!root.isEmpty) = true → (Outline.file found).node.trailing? =
      (placement (!root.isEmpty) ts).trailing?.map String.ofList := by
    rintro rfl hafter
    cases hafter
  have hat : (Outline.file found).at? [] = some (.file found) := rfl
  have hbehind := Items.keepsBehind .file hat hfresh hfinish hempty
  refine ⟨.file found, _, inside ++ behind, hbehind, fun hends => ?_, fun hmore => ?_⟩
  · obtain ⟨rfl, rfl⟩ := hnext.ended_of_scopeEnds hends
    rfl
  · obtain ⟨n, children?, o, tail, hreads, hshows, hwhere⟩ := hnext.exists_next hmore
    refine ⟨n, children?, o, hreads, ?_, hshows⟩
    obtain ⟨tail', hsplit⟩ : ∃ tail', inside ++ behind = o :: tail' := by
      split at hwhere
      · obtain ⟨rfl, rfl⟩ := hwhere
        exact ⟨tail, rfl⟩
      · exact ⟨tail ++ behind, by rw [hwhere, List.cons_append]⟩
    rw [hsplit] at hbehind
    have hthere := Outline.at?_behind hbehind.at_scope hbehind.children
    rw [hbehind.count, List.length_map] at hthere
    exact hthere

/-- The comments ahead of the first statement of a namespace without a block go behind its head. -/
theorem Draft.exists_settle_scope {head : Node} (hhead : items = [] → head.trailing? = none)
    (p : Placement) :
    ∃ head' : Node, Draft.settle ⟨root, some (head, items)⟩ p =
        ⟨root, some (head', items.settle p)⟩ ∧
      (items = [] → head'.trailing? = p.trailing?.map String.ofList) := by
  unfold Draft.settle
  dsimp only
  cases items with
  | cons last before => exact ⟨head, rfl, nofun⟩
  | nil =>
    cases p.trailing? with
    | none => exact ⟨head, rfl, fun _ => hhead rfl⟩
    | some text => exact ⟨_, rfl, fun _ => rfl⟩

/-- A namespace without a block keeps the comments of each gap between its statements. It is the last
statement of the file so far. -/
theorem Draft.exists_keeps_scope {head head' : Node} (hitems : items.Fresh)
    (hempty : items = [] → head'.trailing? = (placement true ts).trailing?.map String.ofList)
    (hfinish : found = root.reverse ++
      .mk head' ((items.settle (placement true ts)).reverse ++ inside) :: behind)
    (hnext : NextStatement ts (placement true ts).leading? inside behind) :
    ∃ scope before behind,
      (Draft.gap ⟨root, some (head, items)⟩ ts).Keeps (.file found) scope before behind := by
  set scope := Outline.mk head' ((items.settle (placement true ts)).reverse ++ inside) with hscope
  have hfound : (Outline.file found).children = root.reverse ++ [] ++ scope :: behind := by
    rw [List.append_nil]
    exact hfinish
  have htop : (Outline.file found).at? [] = some (.file found) := rfl
  have hat : (Outline.file found).at? [root.length] = some scope := by
    have hthere := Outline.at?_behind htop hfound
    rwa [List.length_reverse] at hthere
  have hbehind : (ItemGap.behind .file [root.length] items.length true ts).KeepsBehind
      (.file found) scope (items.trailed (placement true ts).trailing?).reverse inside :=
    Items.keepsBehind .file hat hitems rfl fun hnil _ => hempty hnil
  unfold Draft.gap
  dsimp only
  split
  · next hahead =>
    -- The namespace ends with the next one, which stands behind it in the file.
    have hmore := scopeEnds_of_namespaceAhead hahead
    obtain ⟨n, children?, o, tail, hreads, hshows, hwhere⟩ := hnext.exists_next hmore
    rw [if_pos hahead] at hwhere
    obtain ⟨rfl, rfl⟩ := hwhere
    have hrest : (Outline.file found).children = root.reverse ++ [scope] ++ o :: tail := by
      rw [hfound]
      simp
    refine ⟨scope, _, [], ⟨hbehind.at_scope, hbehind.children, hbehind.count, hbehind.trailing?⟩,
      fun hends => absurd (hends.symm.trans hmore) nofun, fun _ => ?_⟩
    refine ⟨n, children?, o, hreads, ?_, hshows⟩
    have hthere := Outline.at?_behind htop hrest
    rwa [List.length_reverse] at hthere
  · next hahead =>
    refine ⟨scope, _, inside, hbehind, fun hends => (hnext.ended_of_scopeEnds hends).1,
      fun hmore => ?_⟩
    obtain ⟨n, children?, o, tail, hreads, hshows, hwhere⟩ := hnext.exists_next hmore
    rw [if_neg hahead] at hwhere
    rw [hwhere] at hbehind
    refine ⟨n, children?, o, hreads, ?_, hshows⟩
    have hthere := Outline.at?_behind hbehind.at_scope hbehind.children
    rw [hbehind.count, List.length_map] at hthere
    exact hthere

/-- A file that is read keeps the comments of each gap between its statements and between those of a
namespace without a block. -/
theorem Draft.Reaches.exists_keeps {start : List Token} {d : Draft} (h : Draft.Reaches start d ts)
    (hread : Reader.statements ⟨[], none⟩ start = .ok found) :
    ∃ scope before behind, (d.gap ts).Keeps (.file found) scope before behind := by
  rw [h.statements_eq] at hread
  obtain ⟨inside, behind, hfinish, hnext⟩ := exists_statements_behind hread
  have hfresh := h.fresh
  rcases d with ⟨root, _ | ⟨head, items⟩⟩
  · exact Draft.exists_keeps_root hfresh hfinish hnext
  · obtain ⟨hitems, hhead⟩ := hfresh
    obtain ⟨head', hsettle, hempty⟩ := Draft.exists_settle_scope hhead (placement true ts)
    have hafter : Draft.afterItem ⟨root, some (head, items)⟩ = true := rfl
    rw [hafter, hsettle] at hfinish
    exact Draft.exists_keeps_scope hitems hempty hfinish hnext

end Statements

/-! ## All gaps of a source -/

/-- What is read of a source that starts with an open tag: the statements behind it. -/
theorem Outline.exists_statements_of_parse {source : String} {file : Outline} {tag : Token} {start : List Token}
    (hparse : Outline.parse source = .ok file) (hlex : Lexer.file source = .ok (tag :: start))
    (htag : tag.kind = .openTag) :
    ∃ found, file = .file found ∧ Reader.statements ⟨[], none⟩ start = .ok found := by
  unfold Outline.parse at hparse
  rw [hlex] at hparse
  dsimp only [bind, Except.bind] at hparse
  rw [if_pos (beq_of_eq htag)] at hparse
  cases hread : Reader.statements ⟨[], none⟩ start with
  | error e =>
    rw [hread] at hparse
    cases hparse
  | ok found =>
    rw [hread] at hparse
    exact ⟨found, (Except.ok.inj hparse).symm, rfl⟩

/-- A draft is of a file or of a namespace without a block, and its gap is ahead of what is read
next. -/
theorem Draft.gap_eq (d : Draft) (ts : List Token) :
    (d.gap ts).level = .file ∧ (d.gap ts).tokens = ts := by
  rcases d with ⟨root, _ | ⟨head, items⟩⟩
  · exact ⟨rfl, rfl⟩
  · unfold Draft.gap
    dsimp only
    split <;> exact ⟨rfl, rfl⟩

section Gaps

variable {source : String} {start : List Token} {file host : Outline} {g : ItemGap}

/-- The first one of some statements is a statement unless it is a namespace. -/
theorem StatementGap.readsFirst (h : StatementGap start g) {n : Node}
    {children? : Option (List Outline)} (hahead : namespaceAhead g.tokens = false)
    (hreads : g.level.Reads g.tokens n children?) : statement.ReadsFirst g.tokens n children? := by
  cases h with
  | @file d ts _ =>
    obtain ⟨hlevel, htokens⟩ := d.gap_eq ts
    rw [hlevel] at hreads
    rcases hreads with ⟨hnamespace, -⟩ | ⟨-, hreads⟩
    · rw [hnamespace] at hahead
      cases hahead
    · exact hreads
  | block => exact hreads

/-- The tokens behind a gap between statements are tokens of the source. -/
theorem StatementGap.restOf (h : StatementGap start g) : RestOf g.tokens start := by
  cases h with
  | @file d ts h =>
    rw [(d.gap_eq ts).2]
    exact h.restOf
  | block h hopens hitems =>
    have hinner := hopens.restOf.trans h.restOf
    exact (hitems.restOf (makes_any start).anyStatement hinner.suffix).trans hinner

/-- A file that is read keeps the comments of each gap between statements. -/
theorem StatementGap.exists_keeps {found : List Outline} (h : StatementGap start g)
    (hread : Reader.statements ⟨[], none⟩ start = .ok found) :
    ∃ scope before behind, g.Keeps (.file found) scope before behind := by
  cases h with
  | file h => exact h.exists_keeps hread
  | @block d ts inner us items h hopens hitems =>
    -- The block belongs to the namespace that is read behind the gap of the draft.
    obtain ⟨_, _, _, hkeeps⟩ := h.exists_keeps hread
    obtain ⟨hlevel, htokens⟩ := d.gap_eq ts
    have hmore : (d.gap ts).atEnd = false := by
      rw [ItemGap.atEnd, htokens]
      exact scopeEnds_of_namespaceAhead hopens.1
    obtain ⟨n, children?, o, hreads, hat, hshows⟩ := hkeeps.next hmore
    rw [hlevel, htokens] at hreads
    obtain ⟨-, rest, hnamespace⟩ | ⟨hnone, -⟩ := hreads
    · obtain ⟨statements, unclosed, mid, rfl, hblock⟩ := hopens.exists_statements hnamespace
      have hchildren := hshows.children statements rfl
      obtain ⟨before, behind, hkeeps⟩ := hitems.exists_keeps .block bare_statement
        (fun _ _ _ => id) (hchildren ▸ hblock) hat
      exact ⟨o, before, behind, hkeeps⟩
    · rw [hopens.1] at hnone
      cases hnone

/-- A file that is read keeps the comments of each gap between the members of a class. -/
theorem StatementGap.exists_keeps_member {found members : List Outline} {head : Node}
    {inner us rest : List Token} {items : Items} (h : StatementGap start g)
    (hstatements : Reader.statements ⟨[], none⟩ start = .ok found)
    (hopens : OpensBody g.tokens head inner)
    (hread : knownStatement g.tokens = .ok (some ([.mk head members], rest)))
    (hitems : member.Reaches inner items us) :
    ∃ scope before behind, (items.gap .body g.next us).Keeps (.file found) scope before behind := by
  obtain ⟨_, _, _, hkeeps⟩ := h.exists_keeps hstatements
  obtain ⟨hmore, hahead⟩ := hopens.more
  obtain ⟨n, children?, o, hreads, hat, hshows⟩ := hkeeps.next hmore
  -- What is read behind the gap is the class.
  obtain ⟨children, more, rest', hfirst, rfl⟩ := h.readsFirst hahead hreads
  have hstatement : statement g.tokens = .ok ([.mk head members], rest) := by
    unfold statement
    rw [hread]
  obtain ⟨hclass, rfl⟩ := Prod.mk.inj (Except.ok.inj (hfirst.symm.trans hstatement))
  obtain ⟨rfl, rfl⟩ := Outline.mk.inj (List.cons.inj hclass).1
  obtain ⟨children', unclosed, mid, hfound, hbody⟩ := hopens.exists_members hread
  obtain ⟨-, rfl⟩ := Outline.mk.inj (List.cons.inj hfound).1
  have hchildren := hshows.children children rfl
  obtain ⟨before, behind, hkeeps⟩ := hitems.exists_keeps .body bare_member
    (fun _ _ _ => id) (hchildren ▸ hbody) hat
  exact ⟨o, before, behind, hkeeps⟩

/-- The outline of a gap keeps its comments. -/
theorem GapOf.exists_keeps (h : GapOf source host g) :
    ∃ scope before behind, g.Keeps host scope before behind := by
  cases h with
  | statement hparse hlex htag h =>
    obtain ⟨found, rfl, hread⟩ := Outline.exists_statements_of_parse hparse hlex htag
    exact h.exists_keeps hread
  | member hparse hlex htag h hopens hread hitems =>
    obtain ⟨found, rfl, hstatements⟩ := Outline.exists_statements_of_parse hparse hlex htag
    exact h.exists_keeps_member hstatements hopens hread hitems
  | @dropped tag start inner us rest g unclosed head members items _ _ _ _ hread _ hitems =>
    have hat : (Outline.mk head members).at? [] = some (.mk head members) := rfl
    obtain ⟨before, behind, hkeeps⟩ := hitems.exists_keeps .body bare_member (fun _ _ _ => id) hread
      hat
    exact ⟨_, before, behind, hkeeps⟩

/-- The tokens behind a gap are tokens of the source behind its open tag. -/
theorem GapOf.exists_restOf (h : GapOf source host g) :
    ∃ tag start, Lexer.file source = .ok (tag :: start) ∧ tag.kind = .openTag ∧
      RestOf g.tokens start := by
  have hmember {start inner us : List Token} {g : ItemGap} {head : Node} {items : Items}
      (h : StatementGap start g) (hopens : OpensBody g.tokens head inner)
      (hitems : Reader.member.Reaches inner items us) : RestOf us start := by
    have hinner := hopens.restOf.trans h.restOf
    exact (hitems.restOf (makes_any start).member hinner.suffix).trans hinner
  cases h with
  | statement _ hlex htag h => exact ⟨_, _, hlex, htag, h.restOf⟩
  | member _ hlex htag h hopens _ hitems => exact ⟨_, _, hlex, htag, hmember h hopens hitems⟩
  | dropped hlex htag h hopens _ _ hitems => exact ⟨_, _, hlex, htag, hmember h hopens hitems⟩

/-- A gap holds nothing but white space and comments. -/
theorem GapOf.gapLength (h : GapOf source host g) : Lexer.gapLength g.text = .ok g.text.length := by
  obtain ⟨tag, start, hlex, htag, hrest⟩ := h.exists_restOf
  obtain ⟨first, more, hstart⟩ : ∃ first more, start = first :: more := by
    obtain ⟨us, e, hall, he, -⟩ := (Lexer.tile_file hlex).ended
    refine List.exists_cons_of_ne_nil fun hnil => ?_
    -- The open tag is not the end of the source.
    subst hnil
    have hone : [] ++ [tag] = us ++ [e] := hall
    obtain ⟨-, hlast⟩ := List.append_inj' hone rfl
    obtain rfl := List.singleton_inj.1 hlast
    rw [htag] at he
    cases he
  obtain ⟨pos, cs, hcode⟩ := Lexer.exists_of_file hlex (hstart ▸ List.cons_ne_nil first more)
  obtain ⟨us, e, rfl, he, -, hus⟩ := Lexer.tokens_last hcode
  obtain ⟨t, more', htokens⟩ := List.exists_cons_of_ne_nil
    (Token.Ended.of_restOf ⟨us, e, rfl, he, hus⟩ hrest).ne_nil
  obtain ⟨before, hbefore⟩ := hrest.suffix
  rw [← hbefore] at hcode
  obtain ⟨pos', cs', hinner⟩ := Lexer.tokens_suffix hcode (htokens ▸ List.cons_ne_nil t more')
  rw [htokens] at hinner
  rw [ItemGap.text, htokens]
  exact Lexer.gapLength_gap hinner

end Gaps

/-- The comments of each gap that the reader looks at are in exactly one place each, and in order: the
first runs are behind the item ahead of the gap, the next ones are by themselves in the scope, and at
most one is above the item that is read behind the gap. There are none of the first if nothing is ahead
of the gap, and none of the last where the scope ends. -/
theorem comments_placed_once (source : String) (host : Outline) (g : ItemGap)
    (h : GapOf source host g) :
    ∃ trailing detached leading, g.placement.Splits g.text trailing detached leading ∧
      (g.afterItem = false → trailing = []) ∧ (g.atEnd = true → leading = []) ∧
      ∃ scope before behind, g.Keeps host scope before behind := by
  obtain ⟨trailing, detached, leading, hsplits, hfirst, hlast⟩ :=
    Placement.exists_splits h.gapLength g.afterItem g.atEnd
  exact ⟨trailing, detached, leading, hsplits, hfirst, hlast, h.exists_keeps⟩

/-- A file that starts with a comment of its own, and then a class with a comment above it. -/
def licensedClass : String := "<?php\n// licence\n\n// model\nclass A {}\n"

/-- The comments of the first gap of that file are in one place each. -/
theorem comments_placed_licensedClass :
    ∃ file g, GapOf licensedClass file g ∧ g.placement.detached = ["// licence".toList] ∧
      g.placement.leading? = some "// model".toList ∧
      ∃ trailing detached leading, g.placement.Splits g.text trailing detached leading ∧
        (g.afterItem = false → trailing = []) ∧ (g.atEnd = true → leading = []) ∧
        ∃ scope before behind, g.Keeps file scope before behind := by
  have hcheck : Outline.readsWith licensedClass (fun _ start => decide (
      (placement false start).detached = ["// licence".toList] ∧
      (placement false start).leading? = some "// model".toList)) = true := by decide +kernel
  obtain ⟨file, tag, start, hparse, hlex, htag, hplaced⟩ := Outline.exists_of_readsWith hcheck
  obtain ⟨hdetached, hleading⟩ := of_decide_eq_true hplaced
  have hgap : GapOf licensedClass file (Draft.gap ⟨[], none⟩ start) :=
    .statement hparse hlex htag (.file .start)
  exact ⟨file, _, hgap, hdetached, hleading, comments_placed_once licensedClass file _ hgap⟩

/-! ## Doc comments -/

/-- Where a scope ends, nothing but the plain comments of the gap is put behind its last item. Doc comments
ahead of the end are skipped, and they are lost. -/
theorem children_at_end {source : String} {host : Outline} {g : ItemGap} (h : GapOf source host g)
    (hend : g.atEnd = true) :
    ∃ scope before, host.at? g.scope = some scope ∧ before.length = g.count ∧
      scope.children = before ++ g.placement.detached.map Outline.verbatim := by
  obtain ⟨scope, before, behind, hkeeps⟩ := h.exists_keeps
  have hchildren := hkeeps.children
  rw [hkeeps.ended hend, List.append_nil] at hchildren
  exact ⟨scope, before, hkeeps.at_scope, hkeeps.count, hchildren⟩

/-- A plain comment at the end of a class becomes a member of the class, and a doc comment there is lost. -/
example :
    ((Outline.parse "<?php class A \x7b public $x;\n\n// end\n\x7d").toOption.bind (Outline.at? [0])).map
        (·.children.map (·.node.kind.text?)) = some [none, some "// end"] ∧
      ((Outline.parse "<?php class A \x7b public $x;\n\n/** end */\n\x7d").toOption.bind
        (Outline.at? [0])).map (·.children.map (·.node.kind.text?)) = some [none] := by
  decide +kernel

/-- The text of each of some tokens is in their source. -/
theorem Token.text_infix_span {t : Token} {ts : List Token} (h : t ∈ ts) :
    t.text <:+: Token.span ts := by
  obtain ⟨front, behind, rfl⟩ := List.append_of_mem h
  cases front with
  | nil => exact ⟨[], Token.spelled behind, rfl⟩
  | cons first front =>
    refine ⟨first.text ++ Token.spelled front ++ t.gap, Token.spelled behind, ?_⟩
    show _ = first.text ++ Token.spelled (front ++ t :: behind)
    have hsplit : Token.spelled (front ++ t :: behind) =
        Token.spelled front ++ (t.gap ++ (t.text ++ Token.spelled behind)) := by
      rw [← Token.spelled_cons]
      exact List.flatMap_append
    rw [hsplit]
    simp only [List.append_assoc]

/-- A node keeps the doc comments ahead of it: it has the last one as its own, or it is source text that
has all of them. -/
def Node.KeepsDocs (n : Node) (ts : List Token) : Prop :=
  n.doc? = leadingDoc ts ∨
    ∃ text, n.kind = .verbatim text ∧ ∀ t ∈ ts.takeWhile isDoc, t.text <:+: text.toList

namespace Reader

variable {ts rest taken : List Token} {n : Node} {children? : Option (List Outline)}

/-- Doc comments are taken with the statement or member that is cut off behind them. -/
theorem takeWhile_prefix_of_statementSpan {lead : Token}
    (h : statementSpan lead 0 ts = .ok (taken, rest)) : ts.takeWhile isDoc <+: taken := by
  induction ts generalizing taken with
  | nil => cases h
  | cons t ts ih =>
    by_cases hdoc : isDoc t = true
    · have hkind : t.kind = .docComment := eq_of_beq hdoc
      have hstep : statementSpan lead 0 (t :: ts) = (statementSpan lead 0 ts).map (consFirst t) := by
        conv_lhs => unfold statementSpan
        simp [hkind, Token.isPunct, Token.isOpener, Token.closer?]
      rw [hstep] at h
      obtain ⟨more, hmore, rfl⟩ := exists_of_map_consFirst h
      rw [List.takeWhile_cons_of_pos hdoc]
      exact (List.prefix_cons_inj t).2 (ih hmore)
    · rw [List.takeWhile_cons_of_neg hdoc]
      exact List.nil_prefix

/-- What is kept as source text keeps the doc comments ahead of it. -/
theorem keepsDocs_of_verbatim (h : verbatim.ReadsFirst ts n children?) : n.KeepsDocs ts := by
  obtain ⟨children, more, rest, hread, -⟩ := h
  unfold verbatim at hread
  split at hread
  · cases hread
  · cases hspan : statementSpan (peek ts) 0 ts with
    | error e =>
      rw [hspan] at hread
      cases hread
    | ok parts =>
      rw [hspan] at hread
      obtain ⟨hfound, -⟩ := Prod.mk.inj (Except.ok.inj hread)
      obtain ⟨rfl, -⟩ := Outline.mk.inj (List.cons.inj hfound).1
      refine .inr ⟨_, rfl, fun t ht => ?_⟩
      rw [String.toList_ofList]
      exact Token.text_infix_span ((takeWhile_prefix_of_statementSpan hspan).subset ht)

/-- A doc comment ahead of a declaration is the one that it has. -/
theorem doc_of_preamble {doc? : Option String} {attributes : List Attribute}
    (h : preamble ts = some ((doc?, attributes), rest)) (hdoc : (leadingDoc ts).isSome = true) :
    doc? = leadingDoc ts := by
  obtain ⟨_, -, he⟩ := Option.bind_eq_some_iff.1 h
  obtain ⟨hfound, -⟩ := Prod.mk.inj (Option.some.inj he)
  rw [← (Prod.mk.inj hfound).1, Option.or_of_isSome hdoc]

/-- The first one of the nodes of some kinds takes the doc comment. -/
theorem doc_of_nodesOf {doc? : Option String} {attributes : List Attribute} {kinds : List NodeKind}
    {o : Outline} {more : List Outline} (h : nodesOf doc? attributes kinds = o :: more) :
    o.node.doc? = doc? := by
  cases kinds with
  | nil => cases h
  | cons kind kinds =>
    obtain ⟨rfl, -⟩ := List.cons.inj h
    rfl

/-- A member keeps the doc comments ahead of it. -/
theorem keepsDocs_of_member (hdoc : (leadingDoc ts).isSome = true)
    (h : member.ReadsFirst ts n children?) : n.KeepsDocs ts := by
  obtain ⟨children, more, rest, hread, hchildren⟩ := h
  unfold member at hread
  split at hread
  · next found hknown =>
    obtain rfl := Except.ok.inj hread
    obtain ⟨⟨doc?, attributes⟩, mid, hpreamble, hnodes⟩ := bind_eq_some hknown
    obtain ⟨kinds, mid', -, hnodes⟩ := bind_eq_some hnodes
    obtain ⟨hfound, -⟩ := Prod.mk.inj (Option.some.inj hnodes)
    exact .inl ((doc_of_nodesOf hfound).trans (doc_of_preamble hpreamble hdoc))
  · exact keepsDocs_of_verbatim ⟨children, more, rest, hread, hchildren⟩

/-- A statement keeps the doc comments ahead of it. -/
theorem keepsDocs_of_statement (hdoc : (leadingDoc ts).isSome = true)
    (h : statement.ReadsFirst ts n children?) : n.KeepsDocs ts := by
  obtain ⟨children, more, rest, hread, hchildren⟩ := h
  unfold statement at hread
  split at hread
  · cases hread
  · next found hknown =>
    obtain rfl := Except.ok.inj hread
    refine .inl ?_
    unfold knownStatement at hknown
    split at hknown
    · cases hknown
    next doc? attributes mid hpreamble =>
      rw [← doc_of_preamble hpreamble hdoc]
      have hsimple {read : Reader (List NodeKind)}
          (h : simple doc? read mid = .ok (some (.mk n children :: more, rest))) : n.doc? = doc? := by
        obtain ⟨kinds, -, hnodes⟩ := map_eq_some (Except.ok.inj h)
        exact doc_of_nodesOf hnodes
      split at hknown
      · exact hsimple hknown
      split at hknown
      · exact hsimple hknown
      · obtain ⟨kind, behind, -, hbody⟩ := exists_of_classLike hknown
        obtain ⟨members, _, -, -, hfound, -⟩ := exists_of_classLikeBody hbody
        obtain ⟨rfl, -⟩ := Outline.mk.inj (List.cons.inj hfound).1
        rfl
  · exact keepsDocs_of_verbatim ⟨children, more, rest, hread, hchildren⟩

end Reader

/-- What is read next in a scope keeps the doc comments ahead of it. -/
theorem ScopeLevel.Reads.keepsDocs {ts : List Token} {n : Node} {children? : Option (List Outline)}
    {level : ScopeLevel}
    (hdoc : (leadingDoc ts).isSome = true) (h : level.Reads ts n children?) : n.KeepsDocs ts := by
  cases level with
  | file =>
    obtain ⟨-, rest, hnamespace⟩ | ⟨-, hstatement⟩ := h
    · unfold namespaceDecl at hnamespace
      dsimp only at hnamespace
      split at hnamespace
      · cases hnamespace
      · obtain ⟨hfound, -⟩ := Prod.mk.inj (Except.ok.inj hnamespace)
        obtain ⟨rfl, -⟩ := Prod.mk.inj hfound
        exact .inl rfl
    · exact keepsDocs_of_statement hdoc hstatement
  | block => exact keepsDocs_of_statement hdoc h
  | body => exact keepsDocs_of_member hdoc h

/-- Of the doc comments ahead of an item, the last one is the doc comment of the item, unless the item
is kept as source text with all of them. Ahead of the end of a scope there is no item, and doc comments
are lost there (`children_at_end`). -/
theorem last_doc_kept (source : String) (host : Outline) (g : ItemGap) (last : Token)
    (h : GapOf source host g) (hmore : g.atEnd = false)
    (hlast : (g.tokens.takeWhile isDoc).getLast? = some last) :
    ∃ o, host.at? g.next = some o ∧
      (o.node.doc? = some (String.ofList (DocComment.normalize last.text)) ∨
        ∃ text, o.node.kind = .verbatim text ∧
          ∀ t ∈ g.tokens.takeWhile isDoc, t.text <:+: text.toList) := by
  have hdoc : leadingDoc g.tokens = some (String.ofList (DocComment.normalize last.text)) := by
    rw [leadingDoc, hlast]
    rfl
  obtain ⟨scope, before, behind, hkeeps⟩ := h.exists_keeps
  obtain ⟨n, children?, o, hreads, hat, hshows⟩ := hkeeps.next hmore
  refine ⟨o, hat, ?_⟩
  rw [hshows.doc?, hshows.kind, ← hdoc]
  exact hreads.keepsDocs (by rw [hdoc]; rfl)

/-- A file with two doc comments ahead of its class. -/
def twiceDocumentedClass : String := "<?php\n/** header */\n/** A */\nclass A {}\n"

/-- The second one of the two doc comments is the one of the class. -/
theorem last_doc_kept_twiceDocumentedClass :
    ∃ file o, Outline.parse twiceDocumentedClass = .ok file ∧ file.at? [0] = some o ∧
      (o.node.doc? = some "/** A */" ∨
        ∃ text, o.node.kind = .verbatim text ∧ "/** A */".toList <:+: text.toList) := by
  have hcheck : Outline.readsWith twiceDocumentedClass (fun _ start => decide (
      scopeEnds start = false ∧ (placement false start).detached = [] ∧
      (start.takeWhile isDoc).getLast?.map Token.text = some "/** A */".toList)) = true := by
    decide +kernel
  obtain ⟨file, tag, start, hparse, hlex, htag, hdocs⟩ := Outline.exists_of_readsWith hcheck
  obtain ⟨hmore, hdetached, hdoc⟩ := of_decide_eq_true hdocs
  obtain ⟨last, hlast, htext⟩ := Option.map_eq_some_iff.1 hdoc
  obtain ⟨o, hat, hkept⟩ := last_doc_kept twiceDocumentedClass file (Draft.gap ⟨[], none⟩ start)
    last (.statement hparse hlex htag (.file .start)) hmore hlast
  refine ⟨file, o, hparse, ?_, ?_⟩
  · have hnext : (Draft.gap ⟨[], none⟩ start).next = [0] := by
      show [] ++ [0 + (placement false start).detached.length] = [0]
      rw [hdetached]
      rfl
    rwa [hnext] at hat
  · rcases hkept with hown | ⟨text, hkind, hall⟩
    · rw [htext] at hown
      exact .inl (hown.trans (by decide))
    · exact .inr ⟨text, hkind, htext ▸ hall last (List.mem_of_getLast? hlast)⟩

/-- An outline that a path leads to is part of the outline that the path starts from. -/
theorem Outline.All.at? {P : Node → Prop} {o c : Outline} (h : o.All P) {path : List Nat}
    (hat : o.at? path = some c) : c.All P := by
  induction path generalizing o with
  | nil =>
    obtain rfl := Option.some.inj hat
    exact h
  | cons i path ih =>
    obtain ⟨child, hchild, hat⟩ := Option.bind_eq_some_iff.1 hat
    exact ih (h.children child (List.mem_of_getElem? hchild)) hat

/-- An outline over outlines without children consists of them and its own node. -/
theorem Outline.all_of_flat {P : Node → Prop} {o : Outline} (hnode : P o.node)
    (hchildren : ∀ c ∈ o.children, P c.node ∧ c.children.isEmpty = true) : o.All P := by
  rcases o with ⟨n, children⟩
  refine .mk hnode fun c hc => ?_
  obtain ⟨hc, hempty⟩ := hchildren c hc
  rcases c with ⟨m, below⟩
  obtain rfl : below = [] := List.isEmpty_iff.1 hempty
  exact Outline.all_leaf hc

/-- The first one of the two doc comments is nowhere in the file that is read. -/
theorem first_doc_lost :
    ∃ file g t, GapOf twiceDocumentedClass file g ∧ g.atEnd = false ∧
      t ∈ g.tokens.takeWhile isDoc ∧
      ¬∃ path o, file.at? path = some o ∧
        (o.node.doc? = some (String.ofList (DocComment.normalize t.text)) ∨
          ∃ text, o.node.kind = .verbatim text ∧ t.text <:+: text.toList) := by
  have hcheck : Outline.readsWith twiceDocumentedClass (fun file start => decide (
      scopeEnds start = false ∧ start ≠ [] ∧ ∀ t ∈ start.head?, isDoc t = true ∧
        (file.node.doc? ≠ some (String.ofList (DocComment.normalize t.text)) ∧
          file.node.kind.text? = none) ∧
        ∀ c ∈ file.children, (c.node.doc? ≠ some (String.ofList (DocComment.normalize t.text)) ∧
          c.node.kind.text? = none) ∧ c.children.isEmpty = true)) = true := by decide +kernel
  obtain ⟨file, tag, start, hparse, hlex, htag, hlacks⟩ := Outline.exists_of_readsWith hcheck
  obtain ⟨hmore, hne, hlacks⟩ := of_decide_eq_true hlacks
  obtain ⟨t, more, rfl⟩ := List.exists_cons_of_ne_nil hne
  obtain ⟨hdoc, hfile, hclass⟩ := hlacks t rfl
  refine ⟨file, Draft.gap ⟨[], none⟩ (t :: more), t, .statement hparse hlex htag (.file .start), hmore,
    ?_, ?_⟩
  · show t ∈ (t :: more).takeWhile isDoc
    rw [List.takeWhile_cons_of_pos hdoc]
    exact List.mem_cons_self
  · rintro ⟨path, o, hat, hkept⟩
    -- Neither the file nor the class has the doc comment.
    have hall := Outline.all_of_flat (P := fun n =>
      n.doc? ≠ some (String.ofList (DocComment.normalize t.text)) ∧ n.kind.text? = none) hfile hclass
    obtain ⟨hnone, htext⟩ := (hall.at? hat).node
    rcases hkept with hown | ⟨text, hkind, -⟩
    · exact hnone hown
    · rw [hkind] at htext
      cases htext

end PhpGraft

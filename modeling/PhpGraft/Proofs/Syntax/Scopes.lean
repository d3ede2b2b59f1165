import PhpGraft.Proofs.Syntax.Safety

/-!
# What becomes of the items of a scope

The items of a scope are read in a loop, and so are the statements of a file. An item that was read
can still change in one way: the comments behind it are put there when the next gap is looked at. From
then on it stays as it is. So the finished scope starts with the items as they are behind a gap, and
the item that is read next follows (`exists_items_behind`, `exists_statements_behind`).
-/

namespace PhpGraft

namespace Outline

/-- The outline that a path leads to: the path gives the position of each outline on the way among the
children of the one before. -/
def at? : List Nat → Outline → Option Outline
  | [], o => some o
  | i :: path, o => o.children[i]?.bind (at? path)

/-- A path goes on where another one ends. -/
theorem at?_append (path path' : List Nat) (o : Outline) :
    o.at? (path ++ path') = (o.at? path).bind (at? path') := by
  induction path generalizing o with
  | nil => rfl
  | cons i path ih =>
    show (o.children[i]?.bind (at? (path ++ path'))) = (o.children[i]?.bind (at? path)).bind _
    cases o.children[i]? with
    | none => rfl
    | some c => exact ih c

/-- A path of one step leads to a child. -/
theorem at?_singleton (i : Nat) (o : Outline) : o.at? [i] = o.children[i]? := by
  show o.children[i]?.bind (at? []) = _
  cases o.children[i]? <;> rfl

/-- An outline as it is once it has its comments: some are above it, and some may be behind it. -/
def Put (read : Outline) (comment? : Option (List Char)) (o : Outline) : Prop :=
  ∃ trailing?, o = (read.withComment (comment?.map String.ofList)).withTrailing trailing?

variable {read o : Outline} {text? : Option (List Char)}

/-- The comments above an outline. -/
theorem Put.comment? (h : read.Put text? o) : o.node.comment? = text?.map String.ofList := by
  obtain ⟨trailing?, rfl⟩ := h
  rcases read with ⟨n, children⟩
  rfl

/-- Comments leave the rest of a node alone. -/
theorem Put.node (h : read.Put text? o) :
    o.node.kind = read.node.kind ∧ o.node.doc? = read.node.doc? := by
  obtain ⟨trailing?, rfl⟩ := h
  rcases read with ⟨n, children⟩
  exact ⟨rfl, rfl⟩

/-- Comments leave the children of a node alone. -/
theorem Put.children (h : read.Put text? o) : o.children = read.children := by
  obtain ⟨trailing?, rfl⟩ := h
  rcases read with ⟨n, children⟩
  rfl

/-- An outline to which only the comments above it were put. -/
theorem put_withComment (read : Outline) (text? : Option (List Char)) :
    read.Put text? (read.withComment (text?.map String.ofList)) := by
  rcases read with ⟨n, children⟩
  exact ⟨n.trailing?, rfl⟩

/-- An outline to which comments were put on both sides. -/
theorem Put.withTrailing (h : read.Put text? o) (trailing? : Option String) :
    read.Put text? (o.withTrailing trailing?) := by
  obtain ⟨_, rfl⟩ := h
  rcases read with ⟨n, children⟩
  exact ⟨trailing?, rfl⟩

end Outline

namespace Reader

variable {α β : Type}

/-! ## What the readers of items give -/

/-- A reader whose answers all have a property. -/
def Answers (r : Reader α) (P : α → Prop) : Prop :=
  ∀ ⦃ts x rest⦄, r ts = some (x, rest) → P x

namespace Answers

variable {r : Reader α} {f : α → Reader β} {P : β → Prop}

/-- An answer that is given without reading. -/
theorem pure {x : β} (h : P x) : Answers (Pure.pure x) P := by
  intro ts y rest hread
  obtain ⟨rfl, -⟩ := Prod.mk.inj (Option.some.inj hread)
  exact h

/-- The second of two readers gives the answer. -/
theorem bind (h : ∀ x, Answers (f x) P) : Answers (r >>= f) P := by
  intro ts y rest hread
  obtain ⟨x, mid, -, hy⟩ := bind_eq_some hread
  exact h x hy

/-- The answer of the first of two readers is known to the second one. -/
theorem bind_of {Q : α → Prop} (hr : Answers r Q) (h : ∀ x, Q x → Answers (f x) P) :
    Answers (r >>= f) P := by
  intro ts y rest hread
  obtain ⟨x, mid, hx, hy⟩ := bind_eq_some hread
  exact h x (hr hx) hy

/-- A reader that depends on a test. -/
theorem ite {p : Prop} [Decidable p] {r s : Reader β} (hr : Answers r P) (hs : Answers s P) :
    Answers (if p then r else s) P := by
  split
  · exact hr
  · exact hs

end Answers

/-- A list with commas has at least one entry. -/
theorem answers_commaList {item : Reader α} (hitem : Advances item) :
    Answers (commaList item hitem) (· ≠ []) := by
  intro ts xs rest h
  unfold commaList at h
  split at h
  · cases h
  · repeat' split at h
    · cases h
    · obtain ⟨rfl, -⟩ := Prod.mk.inj (Option.some.inj h)
      exact List.cons_ne_nil _ _
    · obtain ⟨rfl, -⟩ := Prod.mk.inj (Option.some.inj h)
      exact List.cons_ne_nil _ _

/-- A group has at least one entry. -/
theorem answers_group {item : Reader α} (hitem : Advances item) : Answers (group item hitem) (· ≠ []) :=
  (answers_commaList hitem).bind_of fun _ h => .bind fun _ => .pure h

/-- A group of members has at least one entry. -/
theorem answers_map_group {item : Reader α} {hitem : Advances item} (kind : α → NodeKind) :
    Answers (group item hitem >>= fun xs => Pure.pure (xs.map kind)) (· ≠ []) :=
  (answers_group hitem).bind_of fun _ h => .pure (mt List.map_eq_nil_iff.1 h)

/-- A member gives at least one node. -/
theorem answers_memberKinds : Answers memberKinds (· ≠ []) := by
  unfold memberKinds
  refine .bind fun _ => ?_
  refine .ite (.bind fun _ => .pure (List.cons_ne_nil _ _)) (.bind fun _ => ?_)
  unfold modifiedKinds
  refine .bind fun _ => .ite (answers_map_group _) (.bind fun _ => ?_)
  refine .ite (.bind fun _ => .pure (List.cons_ne_nil _ _)) (.ite (fun _ _ _ h => nomatch h) ?_)
  refine Answers.bind_of (Q := (· ≠ [])) (.bind fun _ => answers_group _) fun _ h => ?_
  exact .pure (mt List.map_eq_nil_iff.1 h)

/-- An import gives at least one node. -/
theorem answers_imports : Answers imports (· ≠ []) := by
  unfold imports
  refine .bind fun _ => .bind fun _ => .ite (fun _ _ _ h => nomatch h) ?_
  exact answers_group _

/-- An item gives at least one outline, and there are no comments behind any of them yet. -/
def ItemReader.Bare (item : ItemReader) : Prop :=
  ∀ ⦃ts found rest⦄, item ts = .ok (found, rest) →
    found ≠ [] ∧ ∀ o ∈ found, o.node.trailing? = none

/-- The nodes of some kinds are as many, and there are no comments behind any of them. -/
theorem bare_nodesOf {doc? : Option String} {attributes : List Attribute} {kinds : List NodeKind}
    (h : kinds ≠ []) : nodesOf doc? attributes kinds ≠ [] ∧
      ∀ o ∈ nodesOf doc? attributes kinds, o.node.trailing? = none := by
  obtain ⟨kind, kinds, rfl⟩ := List.exists_cons_of_ne_nil h
  refine ⟨List.cons_ne_nil _ _, fun o ho => ?_⟩
  rcases List.mem_cons.1 ho with rfl | ho
  · rfl
  · obtain ⟨kind', -, rfl⟩ := List.mem_map.1 ho
    rfl

/-- A statement or a member that is source text is one outline. -/
theorem bare_verbatim : ItemReader.Bare verbatim := by
  intro ts found rest h
  unfold verbatim at h
  split at h
  · cases h
  · cases hspan : statementSpan (peek ts) 0 ts with
    | error e =>
      rw [hspan] at h
      cases h
    | ok parts =>
      rw [hspan] at h
      obtain ⟨rfl, -⟩ := Prod.mk.inj (Except.ok.inj h)
      exact ⟨List.cons_ne_nil _ _, List.forall_mem_singleton.2 rfl⟩

/-- A member is at least one outline. -/
theorem bare_member : ItemReader.Bare member := by
  have hknown : Answers knownMember fun found =>
      found ≠ [] ∧ ∀ o ∈ found, o.node.trailing? = none :=
    .bind fun _ => answers_memberKinds.bind_of fun _ h => .pure (bare_nodesOf h)
  intro ts found rest h
  unfold member at h
  split at h
  · next hread =>
    obtain rfl := Except.ok.inj h
    exact hknown hread
  · exact bare_verbatim h

/-- A class or interface is a head and a body behind it. -/
theorem exists_of_classLike {doc? : Option String} {attributes : List Attribute}
    {ts : List Token} {found : List Outline × List Token}
    (h : classLike doc? attributes ts = .ok (some found)) :
    ∃ kind mid, classLikeHead ts = some (kind, mid) ∧
      classLikeBody doc? attributes kind mid = .ok (some found) := by
  unfold classLike at h
  split at h
  · cases h
  · next kind mid hhead => exact ⟨kind, mid, hhead, h⟩

/-- The body of a class or interface is a scope of members in braces. -/
theorem exists_of_classLikeBody {doc? : Option String} {attributes : List Attribute}
    {kind : NodeKind} {ts rest : List Token} {found : List Outline}
    (h : classLikeBody doc? attributes kind ts = .ok (some (found, rest))) :
    ∃ members mid, (peek ts).isPunct '{' = true ∧
      scopeItems member advances_member ((peek ts).error .unclosedClass) [] (advance ts) =
        .ok (members, mid) ∧
      found = [Outline.mk { kind, doc?, attributes } members] ∧
      (isAnonymous kind = false ∧ rest = mid ∨
        isAnonymous kind = true ∧ (peek mid).isPunct ';' = true ∧ rest = advance mid) := by
  unfold classLikeBody at h
  split at h
  · cases h
  next hopen =>
    split at h
    · cases h
    · next members mid hmembers =>
      dsimp only at h
      have hbrace : (peek ts).isPunct '{' = true := by simpa using hopen
      split at h
      · next hnamed =>
        obtain ⟨rfl, rfl⟩ := Prod.mk.inj (Option.some.inj (Except.ok.inj h))
        exact ⟨members, _, hbrace, hmembers, rfl, .inl ⟨by simpa using hnamed, rfl⟩⟩
      · next hanonymous =>
        split at h
        · next hend =>
          obtain ⟨rfl, rfl⟩ := Prod.mk.inj (Option.some.inj (Except.ok.inj h))
          exact ⟨members, mid, hbrace, hmembers, rfl, .inr ⟨by simpa using hanonymous, hend, rfl⟩⟩
        · cases h

/-- A statement of a known form is at least one outline. -/
theorem bare_knownStatement {ts rest : List Token} {found : List Outline}
    (h : knownStatement ts = .ok (some (found, rest))) :
    found ≠ [] ∧ ∀ o ∈ found, o.node.trailing? = none := by
  have hsimple {doc? : Option String} {read : Reader (List NodeKind)} {mid : List Token}
      (hread : Answers read (· ≠ [])) (h : simple doc? read mid = .ok (some (found, rest))) :
      found ≠ [] ∧ ∀ o ∈ found, o.node.trailing? = none := by
    obtain ⟨kinds, hkinds, rfl⟩ := map_eq_some (Except.ok.inj h)
    exact bare_nodesOf (hread hkinds)
  unfold knownStatement at h
  split at h
  · cases h
  · repeat' split at h
    · refine hsimple (fun _ _ _ hread => ?_) h
      obtain ⟨kind, -, rfl⟩ := map_eq_some hread
      exact List.cons_ne_nil _ _
    · exact hsimple answers_imports h
    · obtain ⟨kind, mid, -, hbody⟩ := exists_of_classLike h
      obtain ⟨members, behind, -, -, rfl, -⟩ := exists_of_classLikeBody hbody
      exact ⟨List.cons_ne_nil _ _, List.forall_mem_singleton.2 rfl⟩

/-- A statement is at least one outline. -/
theorem bare_statement : ItemReader.Bare statement := by
  intro ts found rest h
  unfold statement at h
  split at h
  · cases h
  · next hread =>
    obtain rfl := Except.ok.inj h
    exact bare_knownStatement hread
  · exact bare_verbatim h

/-! ## The loop over the items of a scope -/

namespace Items

variable {items : Items} {p : Placement} {text? : Option (List Char)} {found : List Outline}

/-- The items with comments behind the last one of them. -/
def trailed (items : Items) (text? : Option (List Char)) : Items :=
  match items with
  | [] => []
  | last :: before => last.withTrailing (text?.map String.ofList) :: before

/-- Whether there are no comments behind the last item yet. -/
def Fresh (items : Items) : Prop := ∀ last ∈ items.head?, last.node.trailing? = none

/-- Items are as many with comments behind the last one. -/
theorem length_trailed (items : Items) (text? : Option (List Char)) :
    (items.trailed text?).length = items.length := by
  cases items <;> rfl

/-- The comments of a gap go behind the last item, or stand by themselves. -/
theorem settle_eq (h : items.Fresh) (p : Placement) :
    items.settle p = (p.detached.map Outline.verbatim).reverse ++ items.trailed p.trailing? := by
  unfold settle
  refine congrArg ((p.detached.map Outline.verbatim).reverse ++ ·) ?_
  cases items with
  | nil => rfl
  | cons last before =>
    cases htext : p.trailing? with
    | some text => rfl
    | none =>
      -- Nothing is put behind the last item, and nothing was there.
      have hlast : last.node.trailing? = none := h last rfl
      rcases last with ⟨n, children⟩
      show Outline.mk n children :: before = Outline.mk { n with trailing? := none } children :: before
      rw [← hlast]
      rfl

/-- The last item is left alone or gets comments behind it, and those ahead of it stay. -/
theorem exists_settle_cons (last : Outline) (before : Items) (p : Placement) :
    ∃ last' : Outline, settle (last :: before) p =
        (p.detached.map Outline.verbatim).reverse ++ last' :: before ∧
      (last' = last ∨ ∃ trailing?, last' = last.withTrailing trailing?) := by
  unfold settle
  cases p.trailing? with
  | none => exact ⟨last, rfl, .inl rfl⟩
  | some text => exact ⟨_, rfl, .inr ⟨_, rfl⟩⟩

/-- What is pushed follows the items that were there, whatever is put behind it. -/
theorem exists_settle_push (items : Items) (text? : Option (List Char)) (read : Outline)
    (more : List Outline) (p : Placement) :
    ∃ o tail, ((items.push text? (read :: more)).settle p).reverse = items.reverse ++ o :: tail ∧
      read.Put text? o := by
  have hput := Outline.put_withComment read text?
  set first := read.withComment (text?.map String.ofList) with hfirst
  have hpush : items.push text? (read :: more) = more.reverse ++ first :: items := rfl
  rw [hpush]
  cases hmore : more.reverse with
  | nil =>
    -- The one new item is the last one, so that the comments go behind it.
    obtain ⟨last, hlast, hcase⟩ := exists_settle_cons first items p
    refine ⟨last, p.detached.map Outline.verbatim, ?_, ?_⟩
    · rw [List.nil_append, hlast]
      simp
    · rcases hcase with rfl | ⟨trailing?, rfl⟩
      · exact hput
      · exact hput.withTrailing trailing?
  | cons last between =>
    obtain ⟨last', hlast, -⟩ := exists_settle_cons last (between ++ first :: items) p
    refine ⟨first, between.reverse ++ last' :: p.detached.map Outline.verbatim, ?_, hput⟩
    rw [List.cons_append, hlast]
    simp

/-- Behind what was just read there are no comments yet. -/
theorem fresh_push (hne : found ≠ []) (hbare : ∀ o ∈ found, o.node.trailing? = none) (items : Items)
    (text? : Option (List Char)) : (items.push text? found).Fresh := by
  obtain ⟨read, more, rfl⟩ := List.exists_cons_of_ne_nil hne
  have hpush : items.push text? (read :: more) =
      more.reverse ++ read.withComment (text?.map String.ofList) :: items := rfl
  intro last hlast
  rw [hpush] at hlast
  cases hmore : more.reverse with
  | nil =>
    rw [hmore] at hlast
    obtain rfl := Option.some.inj hlast
    have hread := hbare read List.mem_cons_self
    rcases read with ⟨n, children⟩
    exact hread
  | cons last' between =>
    rw [hmore] at hlast
    obtain rfl := Option.some.inj hlast
    have hmem : last' ∈ more := List.mem_reverse.1 (hmore ▸ List.mem_cons_self)
    exact hbare _ (List.mem_cons_of_mem _ hmem)

end Items

/-- Whether a scope ends ahead of some tokens. -/
def scopeEnds (ts : List Token) : Bool := (peek ts).isEnd || (peek ts).isPunct '}'

/-- The finished scope starts with the items as they are behind a gap. The item that is read next
follows, unless the scope ends there. -/
theorem exists_items_behind {item : ItemReader} {hitem : item.Advances} {unclosed : ParseError}
    {items : Items} {ts rest : List Token} {found : List Outline} (hbare : item.Bare)
    (h : scopeItems item hitem unclosed items ts = .ok (found, rest)) :
    ∃ behind, found = (items.settle (placement (!items.isEmpty) ts)).reverse ++ behind ∧
      (scopeEnds ts = true → behind = []) ∧
      (scopeEnds ts = false → ∃ read more mid o tail, item ts = .ok (read :: more, mid) ∧
        behind = o :: tail ∧ read.Put (placement (!items.isEmpty) ts).leading? o) := by
  unfold scopeItems at h
  dsimp only at h
  split at h
  · next hclose =>
    obtain ⟨rfl, -⟩ := Prod.mk.inj (Except.ok.inj h)
    refine ⟨[], (List.append_nil _).symm, fun _ => rfl, fun hends => ?_⟩
    rw [scopeEnds, hclose, Bool.or_true] at hends
    cases hends
  next hclose =>
    split at h
    · cases h
    next hend =>
      split at h
      · cases h
      next read mid hread =>
        have := hitem hread
        have hends : scopeEnds ts = false := by
          rw [scopeEnds, Bool.or_eq_false_iff]
          exact ⟨Bool.eq_false_iff.2 hend, Bool.eq_false_iff.2 hclose⟩
        obtain ⟨hne, -⟩ := hbare hread
        obtain ⟨first, more, rfl⟩ := List.exists_cons_of_ne_nil hne
        -- The rest of the loop starts with what was just pushed.
        obtain ⟨behind, rfl, -, -⟩ := exists_items_behind hbare h
        obtain ⟨o, tail, hpushed, hput⟩ := Items.exists_settle_push
          (items.settle (placement (!items.isEmpty) ts)) (placement (!items.isEmpty) ts).leading?
          first more (placement _ mid)
        refine ⟨o :: (tail ++ behind), ?_, fun h => ?_, fun _ => ?_⟩
        · rw [hpushed, List.append_assoc, List.cons_append]
        · rw [hends] at h
          cases h
        · exact ⟨first, more, mid, o, tail ++ behind, hread, rfl, hput⟩
termination_by ts.length

end Reader

/-! ## The loop over the statements of a file -/

namespace Draft

/-- The statements of a file from those in a draft, what is read behind them in their scope, and what
is read behind that scope. -/
def finish (d : Draft) (inside behind : List Outline) : List Outline :=
  match d.scope? with
  | none => d.root.reverse ++ (inside ++ behind)
  | some (head, items) => d.root.reverse ++ .mk head (items.reverse ++ inside) :: behind

/-- Nothing is read behind a draft that is finished. -/
theorem statements_eq (d : Draft) : d.statements = d.finish [] [] := by
  rcases d with ⟨root, _ | ⟨head, items⟩⟩
  · exact (List.append_nil _).symm
  · show (Outline.mk head items.reverse :: root).reverse =
      root.reverse ++ [.mk head (items.reverse ++ [])]
    rw [List.reverse_cons, List.append_nil]

/-- What is read behind a namespace without a block is read behind the draft. -/
theorem finish_nil (d : Draft) (behind : List Outline) :
    d.finish [] behind = d.close.root.reverse ++ behind := by
  rcases d with ⟨root, _ | ⟨head, items⟩⟩
  · rfl
  · show root.reverse ++ Outline.mk head (items.reverse ++ []) :: behind =
      (Outline.mk head items.reverse :: root).reverse ++ behind
    rw [List.append_nil, List.reverse_cons, List.append_assoc, List.singleton_append]

/-- What is pushed follows what was read before in its scope. -/
theorem exists_finish_push (d : Draft) (text? : Option (List Char)) (read : Outline)
    (more : List Outline) (p : Placement) (inside behind : List Outline) :
    ∃ o tail, ((d.push text? (read :: more)).settle p).finish inside behind =
      d.finish (o :: tail) behind ∧ read.Put text? o := by
  rcases d with ⟨root, _ | ⟨head, items⟩⟩
  · obtain ⟨o, tail, hpushed, hput⟩ := Reader.Items.exists_settle_push root text? read more p
    refine ⟨o, tail ++ inside, ?_, hput⟩
    show ((root.push text? (read :: more)).settle p).reverse ++ (inside ++ behind) =
      root.reverse ++ (o :: (tail ++ inside) ++ behind)
    rw [hpushed]
    simp
  · obtain ⟨o, tail, hpushed, hput⟩ := Reader.Items.exists_settle_push items text? read more p
    refine ⟨o, tail ++ inside, ?_, hput⟩
    have hne : items.push text? (read :: more) ≠ [] := by
      simp [Reader.Items.push]
    obtain ⟨last, before, hitems⟩ := List.exists_cons_of_ne_nil hne
    -- There is an item in the namespace, so that its head stays as it is.
    have hsettle : (push ⟨root, some (head, items)⟩ text? (read :: more)).settle p =
        ⟨root, some (head, (items.push text? (read :: more)).settle p)⟩ := by
      unfold push settle
      dsimp only
      rw [hitems]
    rw [hsettle]
    show root.reverse ++ Outline.mk head
        (((items.push text? (read :: more)).settle p).reverse ++ inside) :: behind =
      root.reverse ++ Outline.mk head (items.reverse ++ o :: (tail ++ inside)) :: behind
    rw [hpushed]
    simp

/-- A namespace follows what was read before, and a draft goes on behind it or in it. -/
theorem exists_finish_pushNamespace (d : Draft) (head : Node) (block? : Option (List Outline))
    (p : Placement) (inside behind : List Outline) :
    ∃ o tail, ((d.pushNamespace head block?).settle p).finish inside behind =
      d.finish [] (o :: tail) ∧
        (∃ trailing?, o.node = { head with trailing? }) ∧ ∀ items ∈ block?, o.children = items := by
  have hclosed : d.close.scope? = none := by
    rcases d with ⟨root, _ | ⟨h, items⟩⟩ <;> rfl
  simp only [finish_nil]
  cases block? with
  | none =>
    -- What is read behind is in the namespace.
    have hsettle : ∃ trailing?, (d.pushNamespace head none).settle p =
        ⟨d.close.root, some ({ head with trailing? }, Reader.Items.settle [] p)⟩ := by
      unfold pushNamespace settle
      dsimp only
      cases p.trailing? with
      | none => exact ⟨head.trailing?, rfl⟩
      | some text => exact ⟨_, rfl⟩
    obtain ⟨trailing?, hsettle⟩ := hsettle
    rw [hsettle]
    exact ⟨_, behind, rfl, ⟨trailing?, rfl⟩, nofun⟩
  | some items =>
    obtain ⟨last, hlast, hcase⟩ :=
      Reader.Items.exists_settle_cons (.mk head items) d.close.root p
    have hsettle : (d.pushNamespace head (some items)).settle p =
        ⟨Reader.Items.settle (.mk head items :: d.close.root) p, none⟩ := by
      unfold pushNamespace settle
      dsimp only
      rw [hclosed]
    refine ⟨last, p.detached.map Outline.verbatim ++ (inside ++ behind), ?_, ?_, ?_⟩
    · rw [hsettle]
      show (Reader.Items.settle _ p).reverse ++ (inside ++ behind) = _
      rw [hlast]
      simp
    · rcases hcase with rfl | ⟨trailing?, rfl⟩
      · exact ⟨head.trailing?, rfl⟩
      · exact ⟨trailing?, rfl⟩
    · intro items' hitems
      obtain rfl := Option.some.inj hitems
      rcases hcase with rfl | ⟨trailing?, rfl⟩ <;> rfl

end Draft

namespace Reader

/-- A namespace ahead is not the end of the source. -/
theorem isEnd_of_namespaceAhead {ts : List Token} (h : namespaceAhead ts = true) :
    (peek ts).isEnd = false := by
  have hkind : (peek ts).kind = .name :=
    eq_of_beq (Bool.and_eq_true_iff.1 (Bool.and_eq_true_iff.1 h).1).1
  rw [Token.isEnd, hkind]
  decide

/-- What is read next in a file, as it is in the end: a namespace behind the scope that is read, or a
statement in it. -/
inductive NextStatement (ts : List Token) (comment? : Option (List Char)) :
    List Outline → List Outline → Prop where
  /-- Nothing is read where the source ends. -/
  | ended (hend : (peek ts).isEnd = true) : NextStatement ts comment? [] []
  /-- A namespace is read. -/
  | namespaceDecl {head : Node} {block? : Option (List Outline)} {mid : List Token} {o : Outline}
      {tail : List Outline} {trailing? : Option String} (hahead : namespaceAhead ts = true)
      (hread : Reader.namespaceDecl ts = .ok ((head, block?), mid))
      (hnode : o.node = { head with comment? := comment?.map String.ofList, trailing? })
      (hchildren : ∀ items ∈ block?, o.children = items) :
      NextStatement ts comment? [] (o :: tail)
  /-- A statement is read. -/
  | statement {read o : Outline} {more tail behind : List Outline} {mid : List Token}
      (hmore : scopeEnds ts = false) (hahead : namespaceAhead ts = false)
      (hread : Reader.statement ts = .ok (read :: more, mid)) (hput : read.Put comment? o) :
      NextStatement ts comment? (o :: tail) behind

/-- The finished file starts with the draft as it is behind a gap, and what is read next follows. -/
theorem exists_statements_behind {d : Draft} {ts : List Token} {found : List Outline}
    (h : statements d ts = .ok found) :
    ∃ inside behind, found = (d.settle (placement d.afterItem ts)).finish inside behind ∧
      NextStatement ts (placement d.afterItem ts).leading? inside behind := by
  unfold statements at h
  dsimp only at h
  split at h
  · next hend =>
    obtain rfl := Except.ok.inj h
    exact ⟨[], [], Draft.statements_eq _, .ended hend⟩
  next hend =>
    split at h
    · next hahead =>
      split at h
      · cases h
      next head block? mid hread =>
        have := length_lt_of_namespaceDecl hread
        obtain ⟨inside, behind, rfl, -⟩ := exists_statements_behind h
        obtain ⟨o, tail, hpushed, ⟨trailing?, hnode⟩, hchildren⟩ := Draft.exists_finish_pushNamespace
          (d.settle (placement d.afterItem ts)) _ block? (placement _ mid) inside behind
        exact ⟨[], o :: tail, hpushed, .namespaceDecl hahead hread hnode hchildren⟩
    next hahead =>
      split at h
      · cases h
      next hclose =>
        split at h
        · cases h
        next read mid hread =>
          have := advances_statement hread
          have hmore : scopeEnds ts = false := by
            rw [scopeEnds, Bool.or_eq_false_iff]
            exact ⟨Bool.eq_false_iff.2 hend, Bool.eq_false_iff.2 hclose⟩
          obtain ⟨hne, -⟩ := bare_statement hread
          obtain ⟨first, more, rfl⟩ := List.exists_cons_of_ne_nil hne
          obtain ⟨inside, behind, rfl, -⟩ := exists_statements_behind h
          obtain ⟨o, tail, hpushed, hput⟩ := Draft.exists_finish_push
            (d.settle (placement d.afterItem ts)) (placement d.afterItem ts).leading? first more
            (placement _ mid) inside behind
          exact ⟨o :: tail, behind, hpushed,
            .statement hmore (Bool.eq_false_iff.2 hahead) hread hput⟩
termination_by ts.length

end Reader

end PhpGraft

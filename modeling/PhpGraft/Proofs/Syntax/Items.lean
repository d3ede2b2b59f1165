import PhpGraft.Proofs.Syntax.Members

/-!
# Items of a scope read back

A member with its doc comment is read back as one node, the members of a class one after another up
to its closing brace, and the statements of a file up to its end.
-/

namespace PhpGraft

open Text

/-- The parts of a doc comment where there is one. -/
def docParts (doc? : Option String) : List Part := (doc?.map Part.doc).toList

namespace NodeKind

/-- The parts of a member. -/
def memberParts : NodeKind → List Part
  | .traitUse traits _ => .name "use" :: (commaParts (fun n => [.name n]) traits ++ [.sign ';'])
  | .constDecl d => d.modifiers.parts ++ d.parts
  | .propertyDecl d =>
    (if d.modifiers.isEmpty then [.name "var"] else d.modifiers.parts) ++ d.parts
  | .methodDecl d => d.modifiers.parts ++ d.parts
  | _ => []

/-- What a member is read back as. -/
def reread : NodeKind → NodeKind
  | .constDecl d => .constDecl d.reread
  | .propertyDecl d => .propertyDecl d.reread
  | .methodDecl d => .methodDecl d.reread
  | kind => kind

/-- A member whose parts are read back. -/
def IsMember : NodeKind → Prop
  | .traitUse traits adaptations? => traits ≠ [] ∧ adaptations? = none
  | .constDecl d => d.value.isPlain = true
  | .propertyDecl d => (∀ h ∈ d.type?, h.IsQuiet) ∧ ∀ e ∈ d.default?, e.isPlain = true
  | .methodDecl d => ∀ p ∈ d.params, p.IsQuiet
  | _ => False

end NodeKind

namespace Reader

/-! ## Members -/

/-- A doc comment is passed over. -/
theorem skipDocs_cons {t : Token} (h : isDoc t = true) (ts : List Token) :
    skipDocs (t :: ts) = skipDocs ts := List.dropWhile_cons_of_pos h

/-- The next token stands behind a doc comment. -/
theorem peek_doc {t : Token} (h : isDoc t = true) (ts : List Token) : peek (t :: ts) = peek ts := by
  rw [peek, skipDocs_cons h]
  rfl

/-- A member is read the same behind a doc comment. -/
theorem memberKinds_doc {t : Token} (h : isDoc t = true) (ts : List Token) :
    memberKinds (t :: ts) = memberKinds ts := by
  have hpeek := peek_doc h ts
  have hadvance : advance (t :: ts) = advance ts := by rw [advance, skipDocs_cons h]; rfl
  have hmodifiers : modifiers (t :: ts) = modifiers ts := by
    rw [modifiers, modifiers, modifiersAhead, if_pos h]
  unfold memberKinds eatKeyword
  simp only [Bind.bind, StateT.bind, eat, hpeek, hadvance]
  split
  · rfl
  · simp [StateT.bind, hmodifiers]

/-- A doc comment ahead of a token that is none. -/
theorem leadingDoc_cons {t u : Token} {ts : List Token} {stored : String}
    (ht : t.kind = .docComment) (hstored : String.ofList (DocComment.normalize t.text) = stored)
    (hu : u.kind ≠ .docComment) : leadingDoc (t :: u :: ts) = some stored := by
  rw [leadingDoc, List.takeWhile_cons_of_pos (by simp [isDoc, ht]),
    List.takeWhile_cons_of_neg (by simp [isDoc, hu])]
  simp [hstored]

/-- No doc comment ahead of a token that is none. -/
theorem leadingDoc_none {u : Token} {ts : List Token} (hu : u.kind ≠ .docComment) :
    leadingDoc (u :: ts) = none := by
  rw [leadingDoc, List.takeWhile_cons_of_neg (by simp [isDoc, hu])]
  rfl

/-- A token that starts an item of a scope. -/
structure ItemHead (t : Token) : Prop where
  noDoc : t.kind ≠ .docComment
  noAttribute : t.kind ≠ .attributeOpen
  noClose : t.isPunct '}' = false
  noEnd : t.isEnd = false

/-- A name starts an item. -/
theorem ItemHead.of_name {gap text : List Char} {start : Nat} :
    ItemHead ⟨.name, gap, text, start⟩ := ⟨nofun, nofun, rfl, rfl⟩

/-- Tokens that are others with a doc comment ahead of them, if at all. -/
def DocAhead (ts us : List Token) : Prop := ts = us ∨ ∃ d, ts = d :: us ∧ isDoc d = true

/-- The next token stands behind the doc comment. -/
theorem DocAhead.peek_append {ts us rest more : List Token} {t : Token} (h : DocAhead ts us)
    (he : us ++ rest = t :: more) (ht : t.kind ≠ .docComment) : peek (ts ++ rest) = t := by
  rcases h with rfl | ⟨d, rfl, hd⟩
  · rw [he, peek_cons ht]
  · rw [List.cons_append, he, peek_doc hd, peek_cons ht]

/-- The tokens ahead of which a doc comment stands, if there is one. -/
theorem exists_of_docParts {doc? : Option String} {ps : List Part} {ts rest : List Token}
    (hts : Spells ts (docParts doc? ++ ps))
    (hhead : ∀ us, Spells us ps → ∃ t more, us ++ rest = t :: more ∧ ItemHead t) :
    ∃ us, Spells us ps ∧ preamble (ts ++ rest) = some ((doc?, []), ts ++ rest) ∧
      DocAhead ts us := by
  have hpreamble {found? : Option String} {ts : List Token} (h : leadingDoc ts = found?)
      (hp : (peek ts).kind ≠ .attributeOpen) : preamble ts = some ((found?, []), ts) := by
    have hnone := attributes_none hp
    unfold preamble
    rw [hnone]
    simp [h]
  cases doc? with
  | none =>
    obtain ⟨t, more, he, ht⟩ := hhead ts hts
    refine ⟨ts, hts, ?_, .inl rfl⟩
    rw [he]
    exact hpreamble (leadingDoc_none ht.noDoc) (by rw [peek_cons ht.noDoc]; exact ht.noAttribute)
  | some stored =>
    cases hts with
    | @doc d us _ _ hk hstored hg hus =>
      obtain ⟨t, more, he, ht⟩ := hhead us hus
      have hd : isDoc d = true := by simp [isDoc, hk]
      refine ⟨us, hus, ?_, .inr ⟨d, rfl, hd⟩⟩
      rw [List.cons_append, he]
      refine hpreamble (leadingDoc_cons hk hstored ht.noDoc) ?_
      rw [peek_doc hd, peek_cons ht.noDoc]
      exact ht.noAttribute

/-- The keyword of a modifier starts an item and is not `use`. -/
theorem head_modifier (m : Modifier) (gap : List Char) (start : Nat) :
    ItemHead ⟨.name, gap, m.keyword.toList, start⟩ ∧
      (Token.mk .name gap m.keyword.toList start).isKeyword "use" = false := by
  refine ⟨.of_name, isKeyword_self.trans ?_⟩
  cases m <;> decide

/-- What starts with a keyword other than `use` starts an item. -/
theorem exists_keyword {s : String} {ps : List Part} {ts : List Token}
    (hts : Spells ts (.name s :: ps)) (h : eqIgnoreCase s "use" = false) (rest : List Token) :
    ∃ t more, ts ++ rest = t :: more ∧ ItemHead t ∧ t.isKeyword "use" = false := by
  obtain ⟨gap, start, us, rfl, -, -⟩ := hts.exists_word
  exact ⟨_, _, rfl, .of_name, isKeyword_self.trans h⟩

/-- The first token of a member starts an item, and only uses of traits start with `use`. -/
theorem exists_memberHead {kind : NodeKind} (h : kind.IsMember) {ts : List Token}
    (hts : Spells ts kind.memberParts) (rest : List Token) :
    ∃ t more, ts ++ rest = t :: more ∧ ItemHead t ∧
      (kind.category ≠ .traitUse → t.isKeyword "use" = false) := by
  have hmodified {ms : Modifiers} {ps : List Part} {s : String} {qs : List Part}
      (hps : ps = .name s :: qs) (hs : eqIgnoreCase s "use" = false)
      (hts : Spells ts (ms.parts ++ ps)) :
      ∃ t more, ts ++ rest = t :: more ∧ ItemHead t ∧ t.isKeyword "use" = false :=
    exists_modified hts head_modifier fun us hus => exists_keyword (hps ▸ hus) hs rest
  cases kind with
  | traitUse traits adaptations? =>
    obtain ⟨gap, start, us, rfl, -, -⟩ := hts.exists_word
    exact ⟨_, _, rfl, .of_name, fun hne => absurd rfl hne⟩
  | constDecl d =>
    obtain ⟨t, more, he, ht, huse⟩ := hmodified rfl (by decide) hts
    exact ⟨t, more, he, ht, fun _ => huse⟩
  | methodDecl d =>
    obtain ⟨t, more, he, ht, huse⟩ := hmodified rfl (by decide) hts
    exact ⟨t, more, he, ht, fun _ => huse⟩
  | propertyDecl d =>
    rw [NodeKind.memberParts] at hts
    cases hempty : d.modifiers.isEmpty with
    | true =>
      rw [hempty] at hts
      obtain ⟨t, more, he, ht, huse⟩ := exists_keyword hts (by decide) rest
      exact ⟨t, more, he, ht, fun _ => huse⟩
    | false =>
      rw [hempty] at hts
      have hfirst : ∃ t more, ts ++ rest = t :: more ∧ ItemHead t ∧ t.isKeyword "use" = false :=
        exists_modifier hempty hts head_modifier rest
      obtain ⟨t, more, he, ht, huse⟩ := hfirst
      exact ⟨t, more, he, ht, fun _ => huse⟩
  | file | directive _ _ | namespaceDecl _ | useDecl _ _ | classDecl _ | interfaceDecl _
  | verbatim _ => exact absurd h id

/-- A keyword that is no modifier ends the modifiers ahead of it. -/
theorem meets_keyword {s : String} {ps : List Part} {next : List Token → Prop}
    (h₁ : Modifier.ofKeyword? s = none) (h₂ : eqIgnoreCase s "var" = false) :
    Meets (.name s :: ps) next fun rest =>
      ∃ t us, rest = t :: us ∧ EndsModifiers t ∧ t.isKeyword "var" = false := by
  refine .cons fun gap start rest => ⟨_, rest, rfl, ⟨nofun, ?_⟩, isKeyword_self.trans h₂⟩
  have hsource : (Token.mk .name gap s.toList start).source = s := String.ofList_toList
  rw [hsource, h₁]
  exact ite_self _

/-- The word for a property without modifiers is no modifier. -/
theorem reads_var {next : List Token → Prop}
    (h : ∀ rest, next rest → ∃ t us, rest = t :: us ∧ EndsModifiers t ∧ t.isKeyword "var" = false) :
    Reads modifiers [.name "var"] (.none, true) next := by
  intro ts rest hts hrest
  obtain ⟨gap, start, us, rfl, -, hus⟩ := hts.exists_word
  obtain rfl := hus.eq_nil
  obtain ⟨t, us, rfl, ht, hvar⟩ := h rest hrest
  have hword : (Token.mk .name gap "var".toList start).isKeyword "var" = true :=
    isKeyword_self.trans (by decide)
  rw [modifiers, List.singleton_append, modifiersAhead, if_neg (by simp [isDoc]), if_pos hword,
    modifiersAhead, if_neg (by simp [isDoc, ht.1]), if_neg (by simp [hvar]), ht.2]

/-- A keyword that may be there and is not. -/
theorem eatKeyword_bind_none {α : Type} {keyword : String} {f : Bool → Reader α} {ts : List Token}
    (h : (peek ts).isKeyword keyword = false) : (eatKeyword keyword >>= f) ts = f false ts := by
  have : eatKeyword keyword ts = some (false, ts) := if_neg (by simp [h])
  simp only [Bind.bind, StateT.bind, this, Option.bind_some]

section Kinds

variable {ms : Modifiers} {var : Bool} {ts : List Token}

/-- A method is announced by its keyword. -/
theorem modifiedKinds_method (h₁ : (peek ts).isKeyword "const" = false)
    (h₂ : (peek ts).isKeyword "function" = true) :
    modifiedKinds ms var ts = (method ms >>= fun d => Pure.pure [NodeKind.methodDecl d]) ts := by
  unfold modifiedKinds
  rw [eatKeyword_bind_none h₁, if_neg Bool.false_ne_true, look_bind, if_pos h₂]

/-- Properties need modifiers, or the word in their place. -/
theorem modifiedKinds_properties (h₁ : (peek ts).isKeyword "const" = false)
    (h₂ : (peek ts).isKeyword "function" = false) (h₃ : (ms.isEmpty && !var) = false) :
    modifiedKinds ms var ts =
      (properties ms >>= fun ds => Pure.pure (ds.map NodeKind.propertyDecl)) ts := by
  unfold modifiedKinds
  rw [eatKeyword_bind_none h₁, if_neg Bool.false_ne_true, look_bind, if_neg (by simp [h₂]),
    if_neg (by simp [h₃])]

end Kinds

/-- A method is read back behind its modifiers. -/
theorem reads_modifiedMethod {d : MethodDecl} (h : ∀ p ∈ d.params, p.IsQuiet) :
    Reads (modifiedKinds d.modifiers false) d.parts [.methodDecl d.reread] Whatever := by
  intro ts rest hts _
  have hread := (reads_method h).bind_pure (g := fun d => [NodeKind.methodDecl d]) ts rest hts
    trivial
  obtain ⟨gap, start, us, rfl, -, -⟩ := hts.exists_word
  have hpeek (keyword : String) :
      (peek (⟨.name, gap, "function".toList, start⟩ :: us ++ rest)).isKeyword keyword =
        eqIgnoreCase "function" keyword := by
    rw [List.cons_append, peek_cons (by simp)]
    exact isKeyword_self
  rw [modifiedKinds_method ((hpeek "const").trans (by decide)) ((hpeek "function").trans (by decide))]
  exact hread

/-- A property is read back behind its modifiers or the word in their place. -/
theorem reads_modifiedProperty {d : PropertyDecl} (htype : ∀ h ∈ d.type?, h.IsQuiet)
    (hdefault : ∀ e ∈ d.default?, e.isPlain = true) :
    Reads (modifiers >>= fun found => modifiedKinds found.1 found.2)
      (NodeKind.propertyDecl d).memberParts [.propertyDecl d.reread] Whatever := by
  have hhead {ts rest : List Token} (hts : Spells ts d.parts) :
      ∃ t more, ts ++ rest = t :: more ∧ TypedHead t := by
    refine exists_typed htype hts fun us hus => ?_
    obtain ⟨gap, start, us, rfl, -, -⟩ := hus.exists_word
    exact ⟨_, _, rfl, .of_kind (.inl rfl) _⟩
  -- What follows the modifiers is neither a constant nor a method.
  have hkinds (var : Bool) (hannounced : (d.modifiers.isEmpty && !var) = false) :
      Reads (modifiedKinds d.modifiers var) d.parts [.propertyDecl d.reread] Whatever := by
    intro ts rest hts _
    obtain ⟨t, more, he, ht⟩ := hhead hts
    have hpeek {keyword : String} (hk : keyword ∈ ["var", "const", "function"]) :
        (peek (ts ++ rest)).isKeyword keyword = false := by
      rw [he, peek_cons ht.ends.1]
      exact ht.noKeyword keyword hk
    rw [modifiedKinds_properties (hpeek (by simp)) (hpeek (by simp)) hannounced]
    exact (reads_properties hdefault).bind_pure (g := List.map NodeKind.propertyDecl) ts rest hts
      trivial
  have hmeets : Meets d.parts Whatever fun rest =>
      ∃ t us, rest = t :: us ∧ EndsModifiers t ∧ t.isKeyword "var" = false := by
    intro ts rest hts _
    obtain ⟨t, more, he, ht⟩ := hhead hts
    exact ⟨t, more, he, ht.ends, ht.noKeyword "var" (by simp)⟩
  rw [NodeKind.memberParts]
  cases hempty : d.modifiers.isEmpty with
  | true =>
    have hnone : d.modifiers = .none := eq_of_beq hempty
    have hread := hkinds true (by rw [Bool.not_true, Bool.and_false])
    rw [hnone] at hread
    exact (reads_var fun _ h => h).bind hread hmeets
  | false =>
    exact (reads_modifiers d.modifiers).bind (hkinds false (by rw [hempty]; rfl)) hmeets

/-- A member is read back. -/
theorem reads_memberKinds {kind : NodeKind} (h : kind.IsMember) :
    Reads memberKinds kind.memberParts [kind.reread] Whatever := by
  have hmember (hne : kind.category ≠ .traitUse) (hmodified : Reads (modifiers >>= fun found =>
      modifiedKinds found.1 found.2) kind.memberParts [kind.reread] Whatever) :
      Reads memberKinds kind.memberParts [kind.reread] Whatever := by
    refine reads_eat_none.bind hmodified fun ts rest hts _ => ?_
    obtain ⟨t, more, he, ht, huse⟩ := exists_memberHead h hts rest
    rw [he, peek_cons ht.noDoc]
    exact huse hne
  cases kind with
  | traitUse traits adaptations? =>
    obtain ⟨hne, rfl⟩ := h
    exact (reads_eatKeyword "use").bind_whatever (reads_traitUse hne).bind_pure
  | constDecl d =>
    have hconst : Reads (modifiedKinds d.modifiers false) d.parts [.constDecl d.reread] Whatever :=
      (reads_eatKeyword "const").bind_whatever (reads_constants h).bind_pure
    exact hmember nofun ((reads_modifiers d.modifiers).bind hconst
      (meets_keyword (by decide) (by decide)))
  | methodDecl d =>
    exact hmember nofun ((reads_modifiers d.modifiers).bind (reads_modifiedMethod h)
      (meets_keyword (by decide) (by decide)))
  | propertyDecl d => exact hmember nofun (reads_modifiedProperty h.1 h.2)
  | file | directive _ _ | namespaceDecl _ | useDecl _ _ | classDecl _ | interfaceDecl _
  | verbatim _ => exact absurd h id

/-- A member with its doc comment is read back as one node. -/
theorem reads_knownMember {kind : NodeKind} (h : kind.IsMember) (doc? : Option String) :
    Reads knownMember (docParts doc? ++ kind.memberParts) [.leaf { kind := kind.reread, doc? }]
      Whatever := by
  intro ts rest hts _
  obtain ⟨us, hus, hpreamble, hdoc⟩ := exists_of_docParts hts fun us hus => by
    obtain ⟨t, more, he, ht, -⟩ := exists_memberHead h hus rest
    exact ⟨t, more, he, ht⟩
  have hkinds : memberKinds (ts ++ rest) = some ([kind.reread], rest) := by
    have hread := reads_memberKinds h us rest hus trivial
    rcases hdoc with rfl | ⟨d, rfl, hd⟩
    · exact hread
    · rw [List.cons_append, memberKinds_doc hd]
      exact hread
  unfold knownMember
  simp only [Bind.bind, StateT.bind, hpreamble, Option.bind_some, hkinds]
  rfl

/-! ## Scopes -/

/-- A gap of white space holds no comments. -/
theorem placement_blank {ts : List Token} (h : ∀ t ∈ ts.head?, t.gap.all isBlank = true)
    (afterItem : Bool) : placement afterItem ts = ⟨none, [], none⟩ := by
  have hgap {gap : List Char} (hg : gap.all isBlank = true) (atEnd : Bool) :
      Placement.ofGap gap afterItem atEnd = ⟨none, [], none⟩ := by
    have hnone : GapParts.ofGap gap = ⟨[], gap⟩ := by
      rw [GapParts.ofGap]
      split
      · rfl
      · next e =>
        rw [dropWhile_blank hg] at e
        cases e
    rw [Placement.ofGap, hnone]
    cases afterItem <;> rfl
  cases ts with
  | nil => exact hgap rfl _
  | cons t ts => exact hgap (h t rfl) _

/-- Tokens that show parts have white space ahead of the first one. -/
theorem blank_of_spells {ts : List Token} {ps : List Part} (hts : Spells ts ps) (hne : ps ≠ [])
    (rest : List Token) : ∀ t ∈ (ts ++ rest).head?, t.gap.all isBlank = true := by
  intro t ht
  cases hts with
  | nil => exact absurd rfl hne
  | word _ _ hg _ | doc _ _ hg _ | block _ _ hg _ =>
    obtain rfl := Option.some.inj ht
    exact hg

/-- Nothing is placed where no comments stand. -/
theorem settle_blank (items : Items) : items.settle ⟨none, [], none⟩ = items := by
  cases items <;> rfl

/-- One item is put behind the others. -/
theorem push_blank (items : Items) {o : Outline} (h : o.node.comment? = none) :
    items.push none [o] = o :: items := by
  obtain ⟨n, cs⟩ := o
  obtain ⟨kind, doc?, attributes, comment?, trailing?⟩ := n
  obtain rfl : comment? = none := h
  rfl

end Reader

/-- A member with its doc comment. -/
structure DocMember where
  /-- The doc comment as it is stored. -/
  doc? : Option String
  /-- What the member is. -/
  kind : NodeKind

namespace DocMember

/-- The parts of a member with its doc comment. -/
def parts (m : DocMember) : List Part := docParts m.doc? ++ m.kind.memberParts

/-- The member as a node. -/
def outline (m : DocMember) : Outline := .leaf { kind := m.kind, doc? := m.doc? }

/-- What a member is read back as. -/
def reread (m : DocMember) : DocMember := { m with kind := m.kind.reread }

end DocMember

/-- A member has parts. -/
theorem DocMember.parts_ne_nil {m : DocMember} (h : m.kind.IsMember) : m.parts ≠ [] := by
  obtain ⟨doc?, kind⟩ := m
  cases kind with
  | traitUse _ _ | constDecl _ | methodDecl _ =>
    simp [DocMember.parts, NodeKind.memberParts, ConstDecl.parts, MethodDecl.parts]
  | propertyDecl d => simp [DocMember.parts, NodeKind.memberParts, PropertyDecl.parts]
  | file | directive _ _ | namespaceDecl _ | useDecl _ _ | classDecl _ | interfaceDecl _
  | verbatim _ => exact absurd h id

namespace Reader

/-- The first token of a member neither ends a scope nor the source. -/
theorem peek_member {m : DocMember} (h : m.kind.IsMember) {ts : List Token}
    (hts : Spells ts m.parts) (rest : List Token) :
    (peek (ts ++ rest)).isPunct '}' = false ∧ (peek (ts ++ rest)).isEnd = false := by
  have hhead (us : List Token) (hus : Spells us m.kind.memberParts) :
      ∃ t more, us ++ rest = t :: more ∧ ItemHead t := by
    obtain ⟨t, more, he, ht, -⟩ := exists_memberHead h hus rest
    exact ⟨t, more, he, ht⟩
  obtain ⟨us, hus, -, hdoc⟩ := exists_of_docParts hts hhead
  obtain ⟨t, more, he, ht⟩ := hhead us hus
  rw [hdoc.peek_append he ht.noDoc]
  exact ⟨ht.noClose, ht.noEnd⟩

/-- The members of a class are read back up to its closing brace. -/
theorem scopeItems_members {unclosed : ParseError} {members : List DocMember}
    (h : ∀ m ∈ members, m.kind.IsMember) {items : Items} {ts rest : List Token}
    (hts : Spells ts (members.flatMap DocMember.parts ++ [.sign '}'])) :
    scopeItems member advances_member unclosed items (ts ++ rest) =
      .ok (items.reverse ++ members.map fun m => m.reread.outline, rest) := by
  induction members generalizing items ts with
  | nil =>
    have hgap := blank_of_spells hts nofun rest
    obtain ⟨gap, start, us, rfl, -, hus⟩ := hts.exists_word
    obtain rfl := hus.eq_nil
    have hclose : (peek (⟨.punct '}', gap, (String.ofList ['}']).toList, start⟩ :: rest)).isPunct '}'
        = true := by
      rw [peek_cons (by simp)]
      rfl
    rw [scopeItems, placement_blank hgap, settle_blank]
    dsimp only [List.singleton_append]
    rw [if_pos hclose, advance_cons (by simp)]
    simp
  | cons m members ih =>
    rw [List.flatMap_cons, List.append_assoc] at hts
    obtain ⟨us, vs, rfl, hus, hvs⟩ := hts.exists_of_append
    have hm := h m (List.mem_cons_self ..)
    have hgap := blank_of_spells hus (DocMember.parts_ne_nil hm) (vs ++ rest)
    obtain ⟨hclose, hend⟩ := peek_member hm hus (vs ++ rest)
    have hmember : member (us ++ (vs ++ rest)) = .ok ([m.reread.outline], vs ++ rest) := by
      have hread := reads_knownMember hm m.doc? us (vs ++ rest) hus trivial
      rw [member, hread]
      rfl
    rw [List.append_assoc, scopeItems, placement_blank hgap, settle_blank]
    dsimp only
    rw [if_neg (by simp [hclose]), if_neg (by simp [hend])]
    split
    · next e => simp [hmember] at e
    · next found behind e =>
      rw [hmember] at e
      obtain ⟨rfl, rfl⟩ := Prod.mk.inj (Except.ok.inj e)
      rw [push_blank items rfl, ih (fun m hm => h m (List.mem_cons_of_mem _ hm)) hvs]
      simp

end Reader

end PhpGraft

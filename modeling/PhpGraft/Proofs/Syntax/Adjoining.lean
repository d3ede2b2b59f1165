import PhpGraft.Proofs.Syntax.Attaching
import PhpGraft.Proofs.Syntax.Captures
import PhpGraft.Proofs.Syntax.Keeping
import PhpGraft.Proofs.Syntax.Succession

/-!
# Texts one after another in a class

Two texts are the members of a class. Are the members of both texts together those of the first one and
those of the second one? They are if each member of the first text that is kept as source text is closed
(`members_append`): its tokens and those of the second text are cut off in the same way where the texts
stand on lines of their own, and then the members of the first text are read ahead of those of the second
one. A property with a value and a hook behind the value is not closed, and it takes the next member with
it (`member_lost_of_value`).
-/

namespace PhpGraft

open Lexer Text

namespace Reader

/-! ## The class as a statement -/

/-- The head of a class, up to the brace that opens its body. -/
def classHead : List Token :=
  [⟨.name, [' '], "class".toList, 6⟩, ⟨.name, [' '], "A".toList, 12⟩, ⟨.punct '{', [' '], ['{'], 14⟩]

/-- A class with the given members. -/
def classOf (members : List Outline) : Outline :=
  .mk { kind := .classDecl ⟨some "A", .none, none, []⟩ } members

/-- What is read of the class behind its head: its members, and what is left behind its closing brace. -/
abbrev classItems (ts : List Token) : Except ParseError (List Outline × List Token) :=
  scopeItems member advances_member ⟨.unclosedClass, 14, 1⟩ [] ts

/-- The class is a statement that holds what is read behind its head. -/
theorem statement_class (ts : List Token) :
    statement (classHead ++ ts) = (classItems ts).map fun found => ([classOf found.1], found.2) := by
  let c : PlainClass := ⟨none, "A", .none, none, [], []⟩
  let brace : Token := ⟨.punct '{', [' '], ['{'], 14⟩
  have hspells : Spells (classHead.take 2) c.headParts :=
    .word rfl rfl rfl (.word rfl rfl rfl .nil)
  have hnamed : namedClass (classHead ++ ts) = some (c.decl, brace :: ts) :=
    reads_namedClass (c := c) (fun m hm => by cases m <;> cases hm) _ (brace :: ts) hspells rfl
  have hhead : StatementHead (peek (classHead ++ ts)) := StatementHead.of_name [' '] 6 (by decide)
  have hclass : classLikeHead (classHead ++ ts) = some (.classDecl c.decl, brace :: ts) := by
    rw [classLikeHead_named fun keyword hk => hhead.noKeyword keyword (List.mem_cons_of_mem _ hk)]
    simp only [Functor.map, StateT.map, hnamed]
    rfl
  have hpreamble : preamble (classHead ++ ts) = some ((none, []), classHead ++ ts) := by
    unfold preamble
    rw [attributes_none hhead.noAttribute]
    rfl
  have hplain {keyword : String} (h : eqIgnoreCase "class" keyword = false) :
      (peek (classHead ++ ts)).isKeyword keyword = false :=
    (@isKeyword_self "class" keyword [' '] 6).trans h
  have hbrace : peek (brace :: ts) = brace ∧ advance (brace :: ts) = ts :=
    ⟨peek_cons nofun, advance_cons nofun⟩
  have hknown : knownStatement (classHead ++ ts) =
      classLikeBody none [] (.classDecl c.decl) (brace :: ts) := by
    rw [knownStatement, hpreamble]
    dsimp only
    rw [hplain (by decide), hplain (by decide), if_neg (by simp), if_neg (by simp), classLike, hclass]
  have hunclosed : brace.error .unclosedClass = ⟨.unclosedClass, 14, 1⟩ := by decide
  rw [statement, hknown, classLikeBody, hbrace.1, hbrace.2, if_neg (by decide), hunclosed, classItems]
  cases scopeItems member advances_member ⟨.unclosedClass, 14, 1⟩ [] ts <;> rfl

/-- The class is the first statement of a file. -/
theorem statements_class (ts : List Token) : statements ⟨[], none⟩ (classHead ++ ts) =
    (classItems ts).bind fun found => statements ⟨[classOf found.1], none⟩ found.2 := by
  have hhead : StatementHead (peek (classHead ++ ts)) := StatementHead.of_name [' '] 6 (by decide)
  have hgap : ∀ t ∈ (classHead ++ ts).head?, t.gap.all isBlank = true := by
    intro t ht
    obtain rfl := Option.some.inj ht
    rfl
  rw [statements, placement_blank hgap, Draft.settle_blank]
  dsimp only
  rw [if_neg (by simp [hhead.noEnd]), if_neg (by simp [namespaceAhead, hhead.noKeyword "namespace" (by simp)]),
    if_neg (by simp [hhead.noClose])]
  have hread := statement_class ts
  cases hitems : classItems ts with
  | error e =>
    rw [hitems] at hread
    split
    · next hfault =>
      obtain rfl := Except.error.inj (hread.symm.trans hfault)
      rfl
    · next hfound => cases hread.symm.trans hfound
  | ok found =>
    rw [hitems] at hread
    split
    · next hfault => cases hread.symm.trans hfault
    · next hfound =>
      obtain ⟨rfl, rfl⟩ := Prod.mk.inj (Except.ok.inj (hread.symm.trans hfound))
      rfl

/-- The class is the only statement of a file if the source ends behind its body. -/
theorem statements_class_iff {ts : List Token} {members : List Outline}
    (hbare : ∀ t ∈ ts, t.isBare = true) :
    statements ⟨[], none⟩ (classHead ++ ts) = .ok [classOf members] ↔
      ∃ rest, classItems ts = .ok (members, rest) ∧ (peek rest).isEnd = true := by
  rw [statements_class]
  cases hitems : classItems ts with
  | error e => exact ⟨nofun, fun ⟨_, h, _⟩ => nomatch h⟩
  | ok found =>
    obtain ⟨read, rest⟩ := found
    have hblank : ∀ t ∈ rest.head?, t.gap.all isBlank = true := by
      obtain ⟨Q, b, rfl, -⟩ := exists_close hbare hitems
      intro t ht
      have hmem := List.mem_cons_of_mem b (List.mem_of_mem_head? ht)
      exact Token.blank_of_isBare (hbare t (List.mem_append_right _ hmem))
    constructor
    · intro h
      obtain ⟨inside, behind, hfound, hnext⟩ := exists_statements_behind h
      rw [placement_blank hblank, Draft.settle_blank] at hfound
      obtain ⟨hclass, hnil⟩ := List.cons.inj hfound
      obtain ⟨-, hnone⟩ := List.append_eq_nil_iff.1 hnil.symm
      obtain ⟨rfl, rfl⟩ := List.append_eq_nil_iff.1 hnone
      injection hclass with _ hmembers
      subst hmembers
      refine ⟨rest, rfl, ?_⟩
      cases hnext with
      | ended hend => exact hend
    · rintro ⟨rest', hread, hend⟩
      obtain ⟨rfl, rfl⟩ := Prod.mk.inj (Except.ok.inj hread)
      show statements ⟨[classOf read], none⟩ rest = _
      rw [statements, placement_blank hblank, Draft.settle_blank, if_pos hend]
      rfl

end Reader

/-! ## A text in the class -/

/-- A class with a text between its braces. -/
def inClass (text : String) : String := "<?php class A \x7b " ++ text ++ " \x7d"

/-- The tokens of a text in the class, and behind them the closing brace and the end of the source. -/
def bodyTokens (text : String) : List Token := ((Lexer.file (inClass text)).toOption.getD []).drop 4

namespace Lexer

variable {start : Nat} {cs rest : List Char} {ts : List Token}

/-- A token at the front of a source is cut off. -/
theorem tokens_of_cons {c : Char} {g n : Nat} {kind : TokenKind} (h : tokens start cs = .ok ts)
    (hg : gapLength cs = .ok g) (hd : cs.drop g = c :: rest) (hs : scan c rest = .ok (kind, n)) :
    ∃ more, ts = ⟨kind, cs.take g, c :: rest.take n, start + byteLength (cs.take g)⟩ :: more ∧
      tokens (start + byteLength (cs.take g) + byteLength (c :: rest.take n)) (rest.drop n) = .ok more := by
  obtain ⟨g', hg', hcases⟩ := tokens_cases h
  obtain rfl := Except.ok.inj (hg'.symm.trans hg)
  obtain ⟨hend, -⟩ | ⟨c', rest', kind', n', more, hd', hs', hmore, rfl⟩ := hcases
  · cases hd.symm.trans hend
  · obtain ⟨rfl, rfl⟩ := List.cons.inj (hd.symm.trans hd')
    obtain ⟨rfl, rfl⟩ := Prod.mk.inj (Except.ok.inj (hs.symm.trans hs'))
    exact ⟨more, rfl, hmore⟩

/-- The head of the class is cut into its tokens. -/
theorem tokens_of_classHead (h : tokens 5 (Token.spelled Reader.classHead ++ ' ' :: cs) = .ok ts) :
    ∃ body, ts = Reader.classHead ++ body ∧ tokens 15 (' ' :: cs) = .ok body := by
  have hgap {c : Char} {cs : List Char} (hblank : isBlank c = false)
      (hcomment : plainComment? c cs = .ok none) : gapLength (' ' :: c :: cs) = .ok 1 :=
    gapLength_append (b := [' ']) rfl (gapLength_cons_token hblank hcomment)
  have hspelled : Token.spelled Reader.classHead = [' ', 'c', 'l', 'a', 's', 's', ' ', 'A', ' ', '{'] := by
    decide +kernel
  have hhead : Reader.classHead = [⟨.name, [' '], ['c', 'l', 'a', 's', 's'], 6⟩, ⟨.name, [' '], ['A'], 12⟩,
      ⟨.punct '{', [' '], ['{'], 14⟩] := by
    decide +kernel
  rw [hspelled] at h
  obtain ⟨_, rfl, hname⟩ := tokens_of_cons h (hgap rfl rfl) rfl (rfl : scan _ _ = .ok (.name, 4))
  obtain ⟨_, rfl, hbrace⟩ := tokens_of_cons hname (hgap rfl rfl) rfl (rfl : scan _ _ = .ok (.name, 0))
  obtain ⟨body, rfl, hbody⟩ := tokens_of_cons hbrace (hgap rfl rfl) rfl (rfl : scan _ _ = .ok (.punct '{', 0))
  exact ⟨body, by rw [hhead]; rfl, hbody⟩

/-- A source with the class around a text is the open tag, the head of the class and the text. -/
theorem toList_inClass (text : String) : (inClass text).toList =
    openTag ++ (Token.spelled Reader.classHead ++ ' ' :: (text.toList ++ [' ', '}'])) := by
  have hhead : "<?php class A \x7b ".toList = openTag ++ (Token.spelled Reader.classHead ++ [' ']) := by
    decide +kernel
  have htail : " \x7d".toList = [' ', '}'] := by decide
  unfold inClass
  rw [String.toList_append, String.toList_append, hhead, htail]
  rw [List.append_assoc, List.append_assoc, List.append_assoc]
  rfl

/-- The head of the class ahead of what is behind it. -/
theorem tokens_classHead {cs : List Char} {ts : List Token} (h : tokens 15 (' ' :: cs) = .ok ts) :
    tokens 5 (Token.spelled Reader.classHead ++ ' ' :: cs) = .ok (Reader.classHead ++ ts) := by
  have hread : (tokens 5 (Token.spelled Reader.classHead)).toOption =
      some (Reader.classHead ++ [⟨.eof, [], [], 15⟩]) := by decide +kernel
  obtain ⟨_, -, hhead, htokens⟩ := @tokens_continue Reader.classHead [⟨.eof, [], [], 15⟩] ts 5 5 _ [] []
    _ (Body.eq_ok_of_toOption hread) rfl (List.cons_ne_nil _ _) (by decide) (ends_cons rfl cs) h
  obtain rfl := hhead rfl
  exact htokens

/-- The source is cut into the open tag, the head of the class and what is behind it. -/
theorem file_inClass (text : String) : file (inClass text) =
    (tokens 5 (Token.spelled Reader.classHead ++ ' ' :: (text.toList ++ [' ', '}']))).map
      (⟨.openTag, [], openTag, 0⟩ :: ·) := by
  have hsplit (code : List Char) : splitOnce? openTag (openTag ++ code) = some ([], code) := rfl
  rw [Lexer.file, toList_inClass, hsplit]
  rfl

/-! ## The end of the class -/

/-- Nothing but white space is behind a close tag. -/
theorem blank_of_closeTag {t : Token} (h : tokens start cs = .ok (t :: ts)) (ht : t.kind = .closeTag) :
    (Token.spelled ts).all isBlank = true := by
  obtain ⟨g, -, ⟨-, hts⟩ | ⟨c, rest, kind, n, more, -, hs, hmore, hts⟩⟩ := tokens_cases h
  · rw [(List.cons.inj hts).1] at ht
    cases ht
  · obtain ⟨rfl, rfl⟩ := List.cons.inj hts
    obtain rfl : kind = .closeTag := ht
    obtain ⟨rfl, hhead, rfl⟩ := naming_scan c rest _ _ hs
    rw [scan, if_neg (fun h => absurd h.1 (by decide)), if_neg (fun h => absurd h.1 (by decide)),
      if_pos ⟨rfl, hhead⟩, scanCloseTag] at hs
    split at hs
    · next hblank => rwa [spelled_tokens hmore]
    · cases hs

/-- The source of the last tokens of a text ends as the text does. -/
theorem mem_spelled_of_concat {us : List Token} {c : Char} (h : tokens start (cs ++ [c]) = .ok (us ++ ts))
    (hne : Token.spelled ts ≠ []) : c ∈ Token.spelled ts := by
  have hspelled : Token.spelled us ++ Token.spelled ts = cs ++ [c] := by
    rw [← spelled_tokens h]
    exact List.flatMap_append.symm
  have hlast := congrArg List.getLast? hspelled
  rw [List.getLast?_append_of_ne_nil _ hne, List.getLast?_concat] at hlast
  exact List.mem_of_getLast? hlast

/-- A source without comments that ends with a brace has no close tag. -/
theorem ne_closeTag_of_brace (h : tokens start (cs ++ ['}']) = .ok ts) (hbare : ∀ t ∈ ts, t.isBare = true) :
    ∀ t ∈ ts, t.kind ≠ .closeTag := by
  intro t ht hclose
  have htext : t.text = ['?', '>'] := (isRead_of_tokens h t ht).closeTag hclose
  have hblank := Token.blank_of_isBare (hbare t ht)
  obtain ⟨us, vs, rfl⟩ := List.append_of_mem ht
  obtain ⟨_, _, hbehind⟩ := tokens_suffix h (List.cons_ne_nil _ _)
  have hbrace := mem_spelled_of_concat h (by rw [Token.spelled_cons, htext]; simp)
  rw [Token.spelled_cons, htext] at hbrace
  obtain hgap | htag | hmore : '}' ∈ t.gap ∨ '}' ∈ ['?', '>'] ∨ '}' ∈ Token.spelled vs := by
    rwa [List.mem_append, List.mem_append] at hbrace
  · exact absurd (List.all_eq_true.1 hblank _ hgap) (by decide)
  · exact absurd htag (by decide)
  · exact absurd (List.all_eq_true.1 (blank_of_closeTag hbehind hclose) _ hmore) (by decide)

/-- The end of the source is the last token. -/
theorem nil_of_eof {t : Token} (h : tokens start cs = .ok (t :: ts)) (ht : t.kind = .eof) :
    t.text = [] ∧ ts = [] := by
  obtain ⟨g, -, ⟨-, hts⟩ | ⟨c, rest, kind, n, more, -, hs, -, hts⟩⟩ := tokens_cases h
  · obtain ⟨rfl, rfl⟩ := List.cons.inj hts
    exact ⟨rfl, rfl⟩
  · obtain ⟨rfl, rfl⟩ := List.cons.inj hts
    obtain rfl : kind = .eof := ht
    exact absurd hs (Proper.scan n)

end Lexer

namespace Reader

/-- If the class is all of a file without comments, its body ends with the last character of the source. -/
theorem exists_of_body {cs : List Char} {body : List Token} {members : List Outline}
    (hlex : tokens 15 (' ' :: cs ++ [' '] ++ ['}']) = .ok body) (hbare : ∀ t ∈ body, t.isBare = true)
    (h : statements ⟨[], none⟩ (classHead ++ body) = .ok [classOf members]) :
    ∃ Q b e, body = Q ++ [b, e] ∧ e.kind = .eof ∧ Token.spelled Q ++ b.gap = ' ' :: cs ++ [' '] ∧
      classItems body = .ok (members, [e]) := by
  obtain ⟨rest, hitems, hend⟩ := (statements_class_iff hbare).1 h
  obtain ⟨Q, b, rfl, hb⟩ := exists_close hbare hitems
  have hread := isRead_of_tokens hlex
  have hnotag := ne_closeTag_of_brace hlex hbare
  have hafter : Q ++ b :: rest = (Q ++ [b]) ++ rest := by rw [List.append_assoc]; rfl
  have hrest : ∃ e, rest = [e] ∧ e.kind = .eof ∧ e.text = [] := by
    cases rest with
    | nil =>
      -- the last token of a source is its end, not a brace
      obtain ⟨us, e, hsplit, he, -⟩ := tokens_last hlex
      obtain ⟨-, hbe⟩ := List.append_inj' hsplit rfl
      rw [(List.cons.inj hbe).1, Token.isPunct, he] at hb
      cases hb
    | cons e es =>
      -- the file is over there, and without a close tag only the end of the source ends it
      have hmem : e ∈ Q ++ b :: e :: es := by simp
      have he : e.kind = .eof := by
        rw [peek_cons (Token.noDoc_of_isBare (hbare e hmem)), Token.isEnd,
          beq_false_of_ne (hnotag e hmem), Bool.or_false] at hend
        exact eq_of_beq hend
      rw [hafter] at hlex
      obtain ⟨_, _, hbehind⟩ := tokens_suffix hlex (List.cons_ne_nil _ _)
      obtain ⟨htext, rfl⟩ := nil_of_eof hbehind he
      exact ⟨e, rfl, he, htext⟩
  obtain ⟨e, rfl, he, htext⟩ := hrest
  -- the brace that ends the source stands in no blank gap, so it is the one of the class
  have hgap : e.gap = [] := by
    have hspelled : Token.spelled [e] = e.gap := by rw [Token.spelled_cons, htext]; exact List.append_nil _
    by_contra hne
    have hbrace := mem_spelled_of_concat (hafter ▸ hlex) (by rwa [hspelled])
    rw [hspelled] at hbrace
    have hblank := List.all_eq_true.1 (Token.blank_of_isBare (hbare e (by simp))) _ hbrace
    exact absurd hblank (by decide)
  refine ⟨Q, b, e, rfl, he, ?_, hitems⟩
  have hbtext : b.text = ['}'] := (hread b (by simp)).punct _ (eq_of_beq hb)
  have hspelled : Token.spelled Q ++ b.gap ++ ['}'] = ' ' :: cs ++ [' '] ++ ['}'] := by
    rw [← spelled_tokens hlex]
    simp [Token.spelled, hbtext, htext, hgap]
  exact List.append_cancel_right hspelled

end Reader

/-! ## Texts that hold members -/

/-- A text without comments that is read as the members of the class. -/
structure HoldsMembers (text : String) (members : List Outline) : Prop where
  /-- The class is the only statement of the file. -/
  parse : Outline.parse (inClass text) = .ok (.file [Reader.classOf members])
  /-- There are no comments. -/
  bare : ∀ t ∈ bodyTokens text, t.isBare = true

namespace HoldsMembers

variable {text : String} {members : List Outline}

/-- The tokens of a text in the class are those of the source behind the head of the class. -/
theorem tokens_eq (h : HoldsMembers text members) :
    tokens 15 (' ' :: (text.toList ++ [' ', '}'])) = .ok (bodyTokens text) ∧
      Reader.statements ⟨[], none⟩ (Reader.classHead ++ bodyTokens text) = .ok [Reader.classOf members] := by
  have hfile := file_inClass text
  cases hlex : tokens 5 (Token.spelled Reader.classHead ++ ' ' :: (text.toList ++ [' ', '}'])) with
  | error e =>
    rw [hlex] at hfile
    have hparse := h.parse
    rw [Outline.parse, hfile] at hparse
    cases hparse
  | ok ts =>
    rw [hlex] at hfile
    obtain ⟨body, rfl, hbody⟩ := tokens_of_classHead hlex
    have htokens : bodyTokens text = body := by
      rw [bodyTokens, hfile]
      rfl
    obtain ⟨found, hfound, hstatements⟩ := Outline.exists_statements_of_parse h.parse hfile rfl
    injection hfound with _ hfound
    rw [htokens, hfound]
    exact ⟨hbody, hstatements⟩

/-- The tokens of the class are those of the members and the closing brace, and what is read of them are the
members. -/
theorem exists_body (h : HoldsMembers text members) :
    ∃ Q b e, bodyTokens text = Q ++ [b, e] ∧ e.kind = .eof ∧
      Token.spelled Q ++ b.gap = ' ' :: text.toList ++ [' '] ∧
      Reader.classItems (bodyTokens text) = .ok (members, [e]) := by
  obtain ⟨htokens, hstatements⟩ := h.tokens_eq
  refine Reader.exists_of_body ?_ h.bare hstatements
  rw [← htokens, List.append_assoc]
  rfl

end HoldsMembers

/-- Whether a text without comments is read as a number of members of the class. -/
def holdsCount (n : Nat) (text : String) : Bool :=
  match Reader.classItems (bodyTokens text) with
  | .ok (members, rest) =>
    members.length == n && (Reader.peek rest).isEnd && (bodyTokens text).all Token.isBare
  | .error _ => false

/-- A text that is read as a number of members holds them. -/
theorem exists_of_holdsCount {n : Nat} {text : String} (h : holdsCount n text = true) :
    ∃ members, HoldsMembers text members ∧ members.length = n := by
  unfold holdsCount at h
  split at h
  · next members rest hitems =>
    obtain ⟨hread, hbare⟩ := Bool.and_eq_true_iff.1 h
    obtain ⟨hcount, hend⟩ := Bool.and_eq_true_iff.1 hread
    have hbare' : ∀ t ∈ bodyTokens text, t.isBare = true := List.all_eq_true.1 hbare
    have hfile := file_inClass text
    cases hlex : tokens 5 (Token.spelled Reader.classHead ++ ' ' :: (text.toList ++ [' ', '}'])) with
    | error e =>
      -- nothing is read of a source that has no tokens
      rw [hlex] at hfile
      have hnone : bodyTokens text = [] := by rw [bodyTokens, hfile]; rfl
      rw [hnone] at hitems hbare'
      exact absurd (Reader.isEnd_of_scopeItems hbare' hitems) nofun
    | ok ts =>
      rw [hlex] at hfile
      obtain ⟨body, rfl, -⟩ := tokens_of_classHead hlex
      have htokens : bodyTokens text = body := by rw [bodyTokens, hfile]; rfl
      rw [htokens] at hitems hbare'
      have hstatements := (Reader.statements_class_iff hbare').2 ⟨rest, hitems, hend⟩
      exact ⟨members, ⟨Outline.parse_of_tokens hfile hstatements, htokens ▸ hbare'⟩, eq_of_beq hcount⟩
  · cases h

/-! ## Two texts in the class -/

namespace Reader

/-- A token that can end a member is a sign of its own. -/
theorem exists_of_isStop {t : Token} (h : t.isStop = true) : ∃ c, t.kind = .punct c ∧ c ≠ ' ' := by
  obtain hsemi | hclose := Bool.or_eq_true_iff.1 h
  · exact ⟨';', eq_of_beq hsemi, by decide⟩
  · obtain ⟨c, hc⟩ := Option.isSome_iff_exists.1 hclose
    obtain ⟨hpunct, rfl | rfl | rfl⟩ := closer?_eq_some.1 hc <;> exact ⟨_, eq_of_beq hpunct, by decide⟩

/-- A space behind the members of a text belongs to the gap behind the last one. -/
theorem exists_gap {Q : List Token} {gap cs : List Char} (hread : ∀ t ∈ Q, t.IsRead)
    (hlast : ∀ t ∈ Q.getLast?, t.isStop = true) (h : Token.spelled Q ++ gap = ' ' :: cs ++ [' ']) :
    ∃ v, gap = v ++ [' '] ∧ Token.spelled Q ++ v = ' ' :: cs := by
  obtain rfl | ⟨v, x, rfl⟩ := List.eq_nil_or_concat gap
  · -- without a gap the last sign would be the space
    exfalso
    obtain rfl | ⟨init, t, rfl⟩ := List.eq_nil_or_concat Q
    · cases h
    · rw [List.concat_eq_append] at h hread hlast
      obtain ⟨c, hkind, hc⟩ := exists_of_isStop (hlast t List.getLast?_concat)
      have htext := (hread t (List.mem_append_right _ (List.mem_singleton_self t))).punct c hkind
      have hspelled : Token.spelled (init ++ [t]) = Token.spelled init ++ t.gap ++ [c] := by
        simp [Token.spelled, htext]
      rw [List.append_nil, hspelled] at h
      obtain ⟨-, hlast⟩ := List.append_inj' h rfl
      exact hc (List.cons.inj hlast).1
  · rw [List.concat_eq_append, ← List.append_assoc] at h
    obtain ⟨hfront, hx⟩ := List.append_inj' h rfl
    exact ⟨v, by rw [List.concat_eq_append, hx], hfront⟩

end Reader

/-- The words that a member can begin with. -/
def memberWords : List String := Modifier.all.map Modifier.keyword ++ ["var", "const", "function", "use"]

/-- Nothing is continued by a word that a member can begin with. -/
theorem endsSpan_of_memberWords {t : Token} {word : String} (hword : word ∈ memberWords)
    (ht : t.isKeyword word = true) (ts : List Token) (afterDo : Bool) : Reader.EndsSpan afterDo (t :: ts) := by
  have hkind : t.kind = .name := eq_of_beq (Bool.and_eq_true_iff.1 ht).1
  have hother {other : String} (h : ∀ word ∈ memberWords, eqIgnoreCase word other = false) :
      t.isKeyword other = false :=
    Bool.eq_false_iff.2 fun hother =>
      absurd (Reader.eqIgnoreCase_of_isKeyword ht hother) (Bool.eq_false_iff.1 (h word hword))
  have hpunct : t.isPunct ';' = false := by
    rw [Token.isPunct, hkind]
    rfl
  rw [Reader.EndsSpan, Reader.peek_cons (by rw [hkind]; decide), hpunct, Reader.continuesBlock,
    hother (by decide), hother (by decide), hother (by decide), hother (by decide), hother (by decide),
    Bool.and_false]
  exact ⟨rfl, rfl⟩

/-- Nothing is continued by a text that begins with such a word, wherever it stands. -/
theorem endsSpan_of_alike {ts ts' : List Token}
    (hfirst : ∃ t ∈ ts.head?, ∃ word ∈ memberWords, t.isKeyword word = true) (hts : Token.Alike ts ts')
    (afterDo : Bool) : Reader.EndsSpan afterDo ts' := by
  obtain ⟨t, ht, word, hword, hkeyword⟩ := hfirst
  obtain ⟨us, rfl⟩ := List.head?_eq_some_iff.1 ht
  obtain ⟨t', us', htt', -, rfl⟩ := List.forall₂_cons_left_iff.1 hts.echoing
  exact endsSpan_of_memberWords hword ((Reader.blind_isKeyword word htt').trans hkeyword) us' afterDo

namespace Lexer

/-- The tokens of a text at another place and behind other white space differ only in where they start and
in the first gap. -/
theorem tokens_alike {start : Nat} {b b' cs : List Char} {ts : List Token} (hb : b.all isBlank = true)
    (hb' : b'.all isBlank = true) (h : tokens start (b ++ cs) = .ok ts) (hbare : ∀ t ∈ ts, t.isBare = true)
    (start' : Nat) : ∃ ts', tokens start' (b' ++ cs) = .ok ts' ∧ Token.Alike ts ts' ∧
      ∀ t ∈ ts', t.isBare = true := by
  obtain ⟨t, us, rfl, hcs⟩ := tokens_of_blank_append hb h
  obtain ⟨vs, hvs, hsame⟩ := tokens_start hcs (start' + byteLength b')
  obtain ⟨t', us', rfl, hts'⟩ := tokens_blank_append hb' hvs
  cases hsame with
  | cons ht hus =>
    obtain ⟨hfirst, hmore⟩ := List.forall_mem_cons.1 hbare
    refine ⟨_, hts', ⟨.cons ⟨ht.1, ht.2.2⟩ (hus.imp fun _ _ => Token.Same.echoes), hus⟩,
      List.forall_mem_cons.2 ⟨?_, Token.bare_same hus hmore⟩⟩
    have hgap := Token.blank_of_isBare hfirst
    have hkind := Token.noDoc_of_isBare hfirst
    rw [List.all_append] at hgap
    rw [Token.isBare, List.all_append, hb', ht.1, ht.2.1, (Bool.and_eq_true_iff.1 hgap).2]
    simpa using hkind

end Lexer

/-- The tokens of a text on the line behind another one. -/
theorem tokens_joined {Q more ts : List Token} {v cs₁ cs₂ s : List Char}
    (h₁ : tokens 15 (' ' :: (cs₁ ++ s)) = .ok (Q ++ more)) (hne : more ≠ [])
    (hclose : ∀ t ∈ Q, t.kind ≠ .closeTag) (hfront : Token.spelled Q ++ v = ' ' :: cs₁)
    (hblank : v.all isBlank = true) (h₂ : tokens 15 (' ' :: cs₂) = .ok ts) (hbare : ∀ t ∈ ts, t.isBare = true) :
    ∃ body, tokens 15 (' ' :: (cs₁ ++ '\n' :: cs₂)) = .ok (Q ++ body) ∧ Token.Alike ts body ∧
      ∀ t ∈ body, t.isBare = true := by
  have hline : (v ++ ['\n']).all isBlank = true := by
    rw [List.all_append, hblank]
    rfl
  obtain ⟨body, hbody, hsame, hbody_bare⟩ := @tokens_alike 15 [' '] _ cs₂ _ rfl hline h₂ hbare
    (15 + byteLength (Token.spelled Q))
  rw [List.append_assoc] at hbody
  have hmore : Token.spelled more = v ++ s := by
    refine List.append_cancel_left (?_ : Token.spelled Q ++ _ = Token.spelled Q ++ _)
    have hall : Token.spelled (Q ++ more) = ' ' :: cs₁ ++ s := spelled_tokens h₁
    rw [← List.append_assoc, hfront, ← hall]
    exact List.flatMap_append.symm
  obtain ⟨_, -, hQ, hjoined⟩ := @tokens_continue Q more body 15 15 _ v s ('\n' :: cs₂) h₁ hmore hne hclose
    (ends_cons rfl _) hbody
  rw [hQ rfl, ← List.append_assoc, hfront] at hjoined
  exact ⟨body, hjoined, hsame, hbody_bare⟩

section Joined

variable {text₁ text₂ : String} {members₁ members₂ : List Outline}

/-- The class with two texts has the tokens of the members of the first one, and behind them those of the
second one. -/
theorem HoldsMembers.exists_joined (h₁ : HoldsMembers text₁ members₁) (h₂ : HoldsMembers text₂ members₂)
    {Q : List Token} {b e : Token} (hbody : bodyTokens text₁ = Q ++ [b, e])
    (hspelled : Token.spelled Q ++ b.gap = ' ' :: text₁.toList ++ [' '])
    (hlast : ∀ t ∈ Q.getLast?, t.isStop = true) :
    ∃ body, Lexer.file (inClass (text₁ ++ "\n" ++ text₂)) =
        .ok (⟨.openTag, [], openTag, 0⟩ :: (Reader.classHead ++ (Q ++ body))) ∧
      Token.Alike (bodyTokens text₂) body ∧ ∀ t ∈ body, t.isBare = true := by
  have htokens := h₁.tokens_eq.1
  have hbare := h₁.bare
  rw [hbody] at htokens hbare
  -- the gap ahead of the brace is split: the space is the one that the class puts there
  obtain ⟨v, hv, hfront⟩ := Reader.exists_gap
    (fun t ht => isRead_of_tokens htokens t (List.mem_append_left _ ht)) hlast hspelled
  have hblank : v.all isBlank = true := by
    have hgap := Token.blank_of_isBare (hbare b (by simp))
    rw [hv, List.all_append] at hgap
    exact (Bool.and_eq_true_iff.1 hgap).1
  have hbrace : tokens 15 (' ' :: text₁.toList ++ [' '] ++ ['}']) = .ok (Q ++ [b, e]) := by
    simpa using htokens
  have hnotag : ∀ t ∈ Q, t.kind ≠ .closeTag := fun t ht =>
    ne_closeTag_of_brace hbrace hbare t (List.mem_append_left _ ht)
  obtain ⟨body, hjoined, hsame, hbare₂⟩ :=
    tokens_joined htokens (List.cons_ne_nil _ _) hnotag hfront hblank h₂.tokens_eq.1 h₂.bare
  have hsource : text₁.toList ++ '\n' :: (text₂.toList ++ [' ', '}']) =
      (text₁ ++ "\n" ++ text₂).toList ++ [' ', '}'] := by
    rw [String.toList_append, String.toList_append]
    simp
  have hfile := file_inClass (text₁ ++ "\n" ++ text₂)
  rw [← hsource, tokens_classHead hjoined] at hfile
  exact ⟨body, hfile, hsame, hbare₂⟩

/-- Two texts one behind the other in the class.

* Each of them by itself is read as members of the class, and there are no comments in it.
* The second one begins with a word that a member can begin with.
* Each member of the first one that is kept as source text is closed.

The members of both together are those of the first one, and behind them those of the second one. -/
theorem members_append (h₁ : HoldsMembers text₁ members₁) (h₂ : HoldsMembers text₂ members₂)
    (hfirst : ∃ t ∈ (bodyTokens text₂).head?, ∃ word ∈ memberWords, t.isKeyword word = true)
    (hclosed : ∀ W ∈ Reader.keptMembers (bodyTokens text₁), isClosed W = true) :
    Outline.parse (inClass (text₁ ++ "\n" ++ text₂)) =
      .ok (.file [Reader.classOf (members₁ ++ members₂)]) := by
  obtain ⟨Q, b, e, hbody₁, -, hspelled, hitems₁⟩ := h₁.exists_body
  obtain ⟨-, -, e₂, -, he₂, -, hitems₂⟩ := h₂.exists_body
  have hbare₁ := h₁.bare
  rw [hbody₁] at hitems₁ hbare₁ hclosed
  obtain ⟨found, hfound, hlast, hrun₁⟩ := Reader.scopeItems_front hbare₁ hclosed hitems₁
  obtain rfl : members₁ = found := hfound
  obtain ⟨body, hfile, hsame, hbare₂⟩ := h₁.exists_joined h₂ hbody₁ hspelled hlast
  obtain ⟨members, rest, hmembers, hrest, hrun₂⟩ := Reader.scopeItems_alike hsame h₂.bare hbare₂ hitems₂
  obtain rfl : members₂ = members := hmembers
  have hbare : ∀ t ∈ Q ++ body, t.isBare = true := List.forall_mem_append.2
    ⟨(List.forall_mem_append.1 hbare₁).1, hbare₂⟩
  -- the first members are read up to the second text, and those of it from there
  have hitems : Reader.classItems (Q ++ body) = .ok (members₁ ++ members₂, rest) := by
    rw [Reader.classItems, hrun₁ body hbare₂ (endsSpan_of_alike hfirst hsame), hrun₂, List.append_nil,
      List.reverse_reverse]
  have hend : (Reader.peek rest).isEnd = true := by
    have hlast₂ := Reader.peek_alike hrest fun t ht => by
      rw [List.mem_singleton.1 ht, he₂]
      nofun
    have hpeek : Reader.peek [e₂] = e₂ := Reader.peek_cons (by rw [he₂]; nofun)
    rw [Token.isEnd, hlast₂.kind, hpeek, he₂]
    rfl
  exact Outline.parse_of_tokens hfile ((Reader.statements_class_iff hbare).2 ⟨rest, hitems, hend⟩)

end Joined

/-- A property with a hook that is kept as source text, and a method. -/
def hookedMembers : String := "public string $name \x7b get => $this->n = 'x'; \x7d function f() \x7b \x7d"

/-- Another property is read behind a property with a hook. -/
theorem members_append_hooked : ∃ members₁ members₂, HoldsMembers hookedMembers members₁ ∧
    HoldsMembers "public $y;" members₂ ∧
    Outline.parse (inClass (hookedMembers ++ "\n" ++ "public $y;")) =
      .ok (.file [Reader.classOf (members₁ ++ members₂)]) := by
  obtain ⟨members₁, h₁, -⟩ := @exists_of_holdsCount 2 hookedMembers (by decide +kernel)
  obtain ⟨members₂, h₂, -⟩ := @exists_of_holdsCount 1 "public $y;" (by decide +kernel)
  have hfirst : (bodyTokens "public $y;").head? = some ⟨.name, [' '], "public".toList, 16⟩ := by decide +kernel
  have hclosed : ∀ W ∈ Reader.keptMembers (bodyTokens hookedMembers), isClosed W = true := by decide +kernel
  exact ⟨members₁, members₂, h₁, h₂,
    members_append h₁ h₂ ⟨_, hfirst, "public", by decide, by decide⟩ hclosed⟩

/-- A property with a value and a hook. -/
def valuedMember : String := "public string $name = 'x' \x7b get => 1; \x7d"

/-- Behind a property with a value and a hook another property is lost: the value is read up to the
semicolon of that property. -/
theorem member_lost_of_value : ∃ members₁ members₂, HoldsMembers valuedMember members₁ ∧
    HoldsMembers "public $y;" members₂ ∧
    (∃ t ∈ (bodyTokens "public $y;").head?, ∃ word ∈ memberWords, t.isKeyword word = true) ∧
    Outline.parse (inClass (valuedMember ++ "\n" ++ "public $y;")) ≠
      .ok (.file [Reader.classOf (members₁ ++ members₂)]) := by
  obtain ⟨members₁, h₁, hcount₁⟩ := @exists_of_holdsCount 1 valuedMember (by decide +kernel)
  obtain ⟨members₂, h₂, hcount₂⟩ := @exists_of_holdsCount 1 "public $y;" (by decide +kernel)
  have hfirst : (bodyTokens "public $y;").head? = some ⟨.name, [' '], "public".toList, 16⟩ := by decide +kernel
  have hone : (Outline.parse (inClass (valuedMember ++ "\n" ++ "public $y;"))).toOption.map
      (·.children.map (·.children.length)) = some [1] := by decide +kernel
  refine ⟨members₁, members₂, h₁, h₂, ⟨_, hfirst, "public", by decide, by decide⟩, fun h => ?_⟩
  rw [h] at hone
  have htwo : [(members₁ ++ members₂).length] = [1] := Option.some.inj hone
  rw [List.length_append, hcount₁, hcount₂] at htwo
  exact absurd htwo (by decide)

end PhpGraft

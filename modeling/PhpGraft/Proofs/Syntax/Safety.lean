import PhpGraft.Proofs.Syntax.Heads
import PhpGraft.Proofs.Syntax.Spans

/-!
# Safety of the reader

Whatever a source is, it is either read, or the error is about a part of it (`Outline.within_of_parse`,
`Body.within_of_parse`). The reader looks at tokens only, and there always is one: no reader takes the
end of the source (`Reader.Leaves`), and what is left of tokens that end with it does so, too
(`Token.Ended.of_restOf`). So every error of the reader is about a token, and tokens tile the source.
-/

namespace PhpGraft

open Reader

/-! ## Errors about tokens -/

/-- An error about one of some tokens. -/
def ParseError.At (ts : List Token) (e : ParseError) : Prop := ∃ t ∈ ts, e = t.error e.cause

namespace ParseError

variable {ts us : List Token} {t : Token} {e : ParseError}

/-- An error about a token. -/
theorem at_error (ht : t ∈ ts) (cause : ParseCause) : At ts (t.error cause) := ⟨t, ht, rfl⟩

/-- An error about one of the last tokens is about one of all tokens. -/
theorem At.mono (h : e.At us) (hs : us <:+ ts) : e.At ts :=
  have ⟨t, ht, he⟩ := h
  ⟨t, hs.mem ht, he⟩

/-- An error about a token of a source is about a part of the source. -/
theorem At.within {source : List Char} (h : e.At ts) (htile : Token.Tile source ts) :
    e.Within source := by
  obtain ⟨t, ht, he⟩ := h
  obtain ⟨us, vs, rfl⟩ := List.append_of_mem ht
  refine ⟨Token.spelled us ++ t.gap, t.text, Token.spelled vs, ?_, ?_, ?_⟩
  · rw [← htile.spelled, Token.spelled, List.flatMap_append, List.append_assoc]
    exact congrArg _ (Token.spelled_cons t vs)
  · rw [he]
    exact htile.start rfl
  · rw [he]
    rfl

end ParseError

namespace Token.Ended

variable {ts us : List Token}

/-- Tokens that end with the end of the source are not empty. -/
theorem ne_nil (h : Ended ts) : ts ≠ [] := by
  obtain ⟨us, e, rfl, -⟩ := h
  exact List.append_ne_nil_of_right_ne_nil us (List.cons_ne_nil e [])

/-- The last ones of such tokens end with the end of the source. -/
theorem of_suffix (h : Ended ts) (hs : us <:+ ts) (hne : us ≠ []) : Ended us := by
  obtain ⟨front, last, rfl, hlast, hfront⟩ := h
  obtain ⟨init, last', rfl⟩ := (List.eq_nil_or_concat us).resolve_left hne
  rw [List.concat_eq_append] at hs ⊢
  obtain ⟨taken, htaken⟩ := hs
  rw [← List.append_assoc] at htaken
  -- the last one of the tokens is the last one of all
  obtain ⟨rfl, hlast'⟩ := List.append_inj' htaken rfl
  obtain rfl := List.singleton_inj.1 hlast'
  exact ⟨init, last', rfl, hlast, fun t ht => hfront t (List.mem_append_right _ ht)⟩

/-- What is left of such tokens ends with the end of the source. -/
theorem of_restOf (h : Ended ts) (hr : RestOf us ts) : Ended us := by
  refine h.of_suffix hr.suffix ?_
  -- if nothing were left, then the end of the source would have been taken
  rintro rfl
  obtain ⟨taken, rfl, htaken⟩ := hr
  obtain ⟨front, last, hts, hlast, -⟩ := h
  rw [List.append_nil] at hts
  exact htaken last (hts ▸ List.mem_append_right _ (List.mem_singleton_self last)) hlast

/-- The next one of such tokens is one of them. -/
theorem peek_mem (h : Ended ts) : peek ts ∈ ts := by
  refine (restOf_skipDocs ts).suffix.mem ?_
  have hdocs := (h.of_restOf (restOf_skipDocs ts)).ne_nil
  unfold peek
  cases hts : skipDocs ts with
  | nil => exact absurd hts hdocs
  | cons t rest => exact List.mem_cons_self

end Token.Ended

namespace Reader

open Token ParseError

variable {ts rest : List Token} {e unclosed : ParseError} {item : ItemReader}

/-! ## Items -/

/-- An error in a statement is about the token that it starts with or one of its tokens. -/
theorem at_of_statementSpan {lead : Token} {depth : Nat} (h : statementSpan lead depth ts = .error e) :
    e.At (lead :: ts) := by
  induction ts generalizing depth with
  | nil =>
    obtain rfl := Except.error.inj h
    exact at_error List.mem_cons_self _
  | cons t ts ih =>
    have hstep {d : Nat} (h : (statementSpan lead d ts).map (consFirst t) = .error e) :
        e.At (lead :: t :: ts) := by
      cases hs : statementSpan lead d ts with
      | ok parts =>
        rw [hs] at h
        cases h
      | error inner =>
        rw [hs] at h
        obtain rfl := Except.error.inj h
        obtain ⟨u, hu, he⟩ := ih hs
        refine ⟨u, ?_, he⟩
        exact (List.mem_cons.1 hu).elim (fun hu => hu ▸ List.mem_cons_self)
          fun hu => List.mem_cons_of_mem _ (List.mem_cons_of_mem _ hu)
    have hlead : lead ∈ lead :: t :: ts := List.mem_cons_self
    have htoken : t ∈ lead :: t :: ts := List.mem_cons_of_mem _ List.mem_cons_self
    unfold statementSpan at h
    repeat' split at h
    · exact Except.error.inj h ▸ at_error hlead _
    · cases h
    · exact Except.error.inj h ▸ at_error htoken _
    · cases h
    · exact hstep h
    · exact hstep h
    · exact Except.error.inj h ▸ at_error htoken _
    · cases h
    · exact hstep h
    · cases h
    · exact hstep h

/-- What a reader of statements or members does where the source ends behind some tokens: it fails with
an error about one of them, or it takes at least one of them, but not the end of the source. -/
def ItemReader.Steps (item : ItemReader) (ts : List Token) : Prop :=
  match item ts with
  | .error e => e.At ts
  | .ok (_, rest) => rest <:+ ts ∧ rest ≠ [] ∧ rest.length < ts.length

/-- All kinds of nodes are kinds of nodes. -/
theorem makes_any (file : List Token) : Makes file fun _ => True where
  directive := draws_directive fun _ _ => trivial
  imports := draws_imports fun _ _ => trivial
  classLikeHead := leaves_classLikeHead.draws
  memberKinds := draws_memberKinds (fun _ => trivial) (fun _ => trivial) (fun _ _ => trivial)
    fun _ _ _ => trivial
  namespaceDecl _ _ := trivial
  statement _ _ _ _ _ _ := trivial
  comments _ _ _ _ _ := trivial

/-- A reader of items steps if it advances, never takes the end of the source, and its errors are about
the tokens. -/
theorem ItemReader.steps_of (hts : Ended ts) (hadvances : item.Advances)
    (hdraws : ItemReader.Draws ts (fun _ => True) item) (herror : ∀ e, item ts = .error e → e.At ts) :
    item.Steps ts := by
  unfold ItemReader.Steps
  split
  · next e he => exact herror e he
  · next found rest hread =>
    have hrest := (hdraws List.suffix_rfl hread).1
    exact ⟨hrest.suffix, (hts.of_restOf hrest).ne_nil, hadvances hread⟩

/-- An error of a reader that steps is about one of the tokens. -/
theorem ItemReader.Steps.at_of_error (h : item.Steps ts) (he : item ts = .error e) : e.At ts := by
  unfold ItemReader.Steps at h
  rwa [he] at h

/-- Behind what a reader that steps reads there are fewer tokens, up to the end of the source. -/
theorem ItemReader.Steps.left {found : List Outline} (h : item.Steps ts)
    (hread : item ts = .ok (found, rest)) : rest <:+ ts ∧ rest ≠ [] ∧ rest.length < ts.length := by
  unfold ItemReader.Steps at h
  rwa [hread] at h

/-- An error in the items of a scope says that it is not closed, or it is about one of the tokens. -/
theorem at_of_scopeItems {hitem : item.Advances} (hsteps : ∀ us, Ended us → item.Steps us)
    {ts : List Token} (hts : Ended ts) {items : Items}
    (h : scopeItems item hitem unclosed items ts = .error e) : e = unclosed ∨ e.At ts := by
  unfold scopeItems at h
  dsimp only at h
  have hstep := hsteps ts hts
  repeat' split at h
  · cases h
  · exact .inl (Except.error.inj h).symm
  · next inner hinner => exact .inr (Except.error.inj h ▸ hstep.at_of_error hinner)
  · next found rest hread =>
    -- the items behind the first one are read where the source still ends
    obtain ⟨hsuffix, hne, hshorter⟩ := hstep.left hread
    exact (at_of_scopeItems hsteps (hts.of_suffix hsuffix hne) h).imp id fun he => he.mono hsuffix
termination_by ts.length

/-- An error in source text is about one of the tokens. -/
theorem at_of_verbatim (hts : Ended ts) (h : verbatim ts = .error e) : e.At ts := by
  unfold verbatim at h
  split at h
  · exact Except.error.inj h ▸ at_error hts.peek_mem _
  · cases hspan : statementSpan (peek ts) 0 ts with
    | ok parts =>
      rw [hspan] at h
      cases h
    | error inner =>
      rw [hspan] at h
      obtain rfl := Except.error.inj h
      obtain ⟨t, ht, he⟩ := at_of_statementSpan hspan
      exact ⟨t, (List.mem_cons.1 ht).elim (fun ht => ht ▸ hts.peek_mem) id, he⟩

/-- A reader of members steps. -/
theorem steps_member (ts : List Token) (hts : Ended ts) : member.Steps ts := by
  refine ItemReader.steps_of hts advances_member (makes_any ts).member fun e h => ?_
  unfold member at h
  split at h
  · cases h
  · exact at_of_verbatim hts h

/-! ## Statements -/

/-- An error in the body of a class or interface is about one of the tokens. -/
theorem at_of_classLikeBody {doc? : Option String} {attributes : List Attribute} {kind : NodeKind}
    (hts : Ended ts) (h : classLikeBody doc? attributes kind ts = .error e) : e.At ts := by
  unfold classLikeBody at h
  split at h
  · cases h
  next hopen =>
    have hinner : RestOf (advance ts) ts := restOf_advance (failsEnd_isPunct _) (by simpa using hopen)
    split at h
    · next inner hmembers =>
      obtain rfl := Except.error.inj h
      rcases at_of_scopeItems steps_member (hts.of_restOf hinner) hmembers with rfl | he
      · exact at_error hts.peek_mem _
      · exact he.mono hinner.suffix
    · dsimp only at h
      repeat' split at h
      all_goals cases h

/-- An error in a statement of a known form is about one of the tokens. -/
theorem at_of_knownStatement (hts : Ended ts) (h : knownStatement ts = .error e) : e.At ts := by
  unfold knownStatement at h
  split at h
  · cases h
  · next mid hpreamble =>
    have hmid := leaves_preamble hpreamble
    repeat' split at h
    · cases h
    · cases h
    · unfold classLike at h
      split at h
      · cases h
      · next kind inner hhead =>
        have hinner := (leaves_classLikeHead hhead).trans hmid
        exact (at_of_classLikeBody (hts.of_restOf hinner) h).mono hinner.suffix

/-- A reader of statements steps. -/
theorem steps_statement (ts : List Token) (hts : Ended ts) : statement.Steps ts := by
  refine ItemReader.steps_of hts advances_statement (makes_any ts).anyStatement fun e h => ?_
  unfold statement at h
  split at h
  · next hknown =>
    obtain rfl := Except.error.inj h
    exact at_of_knownStatement hts hknown
  · cases h
  · exact at_of_verbatim hts h

/-- An error in a namespace is about one of the tokens. -/
theorem at_of_namespaceDecl (hts : Ended ts) (hahead : namespaceAhead ts = true)
    (h : namespaceDecl ts = .error e) : e.At ts := by
  unfold namespaceDecl at h
  dsimp only at h
  split at h
  · next inner hbody =>
    obtain rfl := Except.error.inj h
    have hkeyword := restOf_advance (failsEnd_isKeyword _) (Bool.and_eq_true_iff.1 hahead).1
    have hbehind := (restOf_namespaceName (advance ts)).trans hkeyword
    have hended := hts.of_restOf hbehind
    refine ParseError.At.mono ?_ hbehind.suffix
    unfold namespaceBody at hbody
    repeat' split at hbody
    · cases hbody
    · next hopen _ inner hitems =>
      obtain rfl := Except.error.inj hbody
      have hinner := restOf_advance (failsEnd_isPunct _) hopen
      rcases at_of_scopeItems steps_statement (hended.of_restOf hinner) hitems with rfl | he
      · exact at_error hended.peek_mem _
      · exact he.mono hinner.suffix
    · cases hbody
    · exact Except.error.inj hbody ▸ at_error hended.peek_mem _
  · cases h

/-- An error in the statements of a file is about one of the tokens. -/
theorem at_of_statements {d : Draft} {ts : List Token} (hts : Ended ts)
    (h : statements d ts = .error e) : e.At ts := by
  have hstep := steps_statement ts hts
  unfold statements at h
  dsimp only at h
  split at h
  · cases h
  · split at h
    · next hahead =>
      split at h
      · next inner hnamespace =>
        obtain rfl := Except.error.inj h
        exact at_of_namespaceDecl hts hahead hnamespace
      · next head block? rest hnamespace =>
        have hshorter := length_lt_of_namespaceDecl hnamespace
        have hrest := ((makes_any ts).draws_namespaceDecl List.suffix_rfl hahead hnamespace).1
        exact (at_of_statements (hts.of_restOf hrest) h).mono hrest.suffix
    · split at h
      · exact Except.error.inj h ▸ at_error hts.peek_mem _
      · split at h
        · next inner hinner => exact Except.error.inj h ▸ hstep.at_of_error hinner
        · next found rest hread =>
          obtain ⟨hsuffix, hne, hshorter⟩ := hstep.left hread
          exact (at_of_statements (hts.of_suffix hsuffix hne) h).mono hsuffix
termination_by ts.length

/-! ## Bodies -/

/-- A character of one byte is a token of one byte. -/
theorem size_of_punct {t : Token} {c : Char} (ht : t.IsRead) (hkind : t.kind = .punct c)
    (hc : c.utf8Size = 1) : t.size = 1 := by
  rw [Token.size, ht.punct c hkind, Text.byteLength, hc]
  rfl

/-- A bracket that opens is a token of one byte. -/
theorem size_of_opener {t : Token} (ht : t.IsRead)
    (h : (t.isPunct '(' || t.isPunct '[' || t.isPunct '{') = true) : t.size = 1 := by
  simp only [Bool.or_eq_true, isPunct, beq_iff_eq] at h
  rcases h with (hkind | hkind) | hkind
  · exact size_of_punct ht hkind (by decide)
  · exact size_of_punct ht hkind (by decide)
  · exact size_of_punct ht hkind (by decide)

/-- A bracket that closes is a token of one byte. -/
theorem size_of_closer {t : Token} {c : Char} (ht : t.IsRead) (h : t.closer? = some c) : t.size = 1 := by
  unfold closer? at h
  split at h
  · next p hkind =>
    split at h
    · next hp => exact size_of_punct ht hkind (by rcases hp with rfl | rfl | rfl <;> decide)
    · cases h
  · cases h

/-- An error in the brackets of some tokens is about one of them or one that is still open. -/
theorem at_of_balanced {openers : List Token} (hopeners : ∀ t ∈ openers, t.size = 1)
    (hts : ∀ t ∈ ts, t.IsRead) (h : balanced openers ts = .error e) : e.At (openers ++ ts) := by
  induction ts generalizing openers with
  | nil =>
    cases openers with
    | nil => cases h
    | cons last openers =>
      obtain rfl := Except.error.inj h
      refine ⟨last, List.mem_cons_self, ?_⟩
      rw [Token.error, hopeners last List.mem_cons_self]
  | cons t ts ih =>
    obtain ⟨ht, hts⟩ := List.forall_mem_cons.1 hts
    have htoken : t ∈ openers ++ t :: ts := List.mem_append_right _ List.mem_cons_self
    unfold balanced at h
    split at h
    · next htag =>
      obtain rfl := Except.error.inj h
      refine ⟨t, htoken, ?_⟩
      rw [Token.error, Token.size, ht.closeTag (eq_of_beq htag)]
      rfl
    split at h
    · next hopen =>
      -- the bracket is not a token ahead any more, but it is open now
      obtain ⟨u, hu, he⟩ := ih (List.forall_mem_cons.2 ⟨size_of_opener ht hopen, hopeners⟩) hts h
      exact ⟨u, (List.perm_middle.mem_iff).2 hu, he⟩
    · have hmore {us : List Token} (hus : us <:+ openers) (h : balanced us ts = .error e) :
          e.At (openers ++ t :: ts) := by
        obtain ⟨u, hu, he⟩ := ih (fun o ho => hopeners o (hus.mem ho)) hts h
        refine ⟨u, List.mem_append.2 ((List.mem_append.1 hu).imp (hus.mem ·) ?_), he⟩
        exact List.mem_cons_of_mem t
      split at h
      · exact hmore List.suffix_rfl h
      · exact hmore (List.suffix_cons _ _) h
      · next c hcloser =>
        obtain rfl := Except.error.inj h
        refine ⟨t, htoken, ?_⟩
        rw [Token.error, size_of_closer ht hcloser]

end Reader

/-! ## Sources -/

/-- Whether a source is read, with an answer that has a property, or refused with an error about a part
of it. -/
def ReadsOrRefuses {α : Type} (source : List Char) (r : Except ParseError α) (P : α → Prop) : Prop :=
  (∃ x, r = .ok x ∧ P x) ∨ ∃ e, r = .error e ∧ e.Within source

/-- An answer has the property, and an error is about a part of the source. -/
theorem readsOrRefuses_of {α : Type} {source : List Char} {r : Except ParseError α} {P : α → Prop}
    (hok : ∀ x, r = .ok x → P x) (herror : ∀ e, r = .error e → e.Within source) :
    ReadsOrRefuses source r P := by
  cases r with
  | ok x => exact .inl ⟨x, rfl, hok x rfl⟩
  | error e => exact .inr ⟨e, rfl, herror e rfl⟩

/-- An error in a file is about a part of it. -/
theorem Outline.within_of_parse {source : String} {e : ParseError}
    (h : Outline.parse source = .error e) : e.Within source.toList := by
  unfold Outline.parse at h
  cases hfile : Lexer.file source with
  | error inner =>
    rw [hfile] at h
    obtain rfl := Except.error.inj h
    exact Lexer.confined_file source inner hfile
  | ok ts =>
    rw [hfile] at h
    cases ts with
    | nil => cases h
    | cons first rest =>
      dsimp only [bind, Except.bind] at h
      split at h
      · next hopen =>
        cases hstatements : Reader.statements ⟨[], none⟩ rest with
        | ok statements =>
          rw [hstatements] at h
          cases h
        | error inner =>
          rw [hstatements] at h
          obtain rfl := Except.error.inj h
          have htile := Lexer.tile_file hfile
          have hrest : RestOf rest (first :: rest) := .cons (ne_eof_of_kind hopen (by decide)) rest
          exact ((at_of_statements (htile.ended.of_restOf hrest) hstatements).mono hrest.suffix).within
            htile
      · cases h

/-- An error in a body is about a part of it. -/
theorem Body.within_of_parse {source : String} {e : ParseError} (h : Body.parse source = .error e) :
    e.Within source.toList := by
  unfold Body.parse at h
  cases hfragment : Lexer.fragment source with
  | error inner =>
    rw [hfragment] at h
    obtain rfl := Except.error.inj h
    exact Lexer.confined_fragment source inner hfragment
  | ok ts =>
    rw [hfragment] at h
    dsimp only [bind, Except.bind] at h
    cases hbalanced : balanced [] ts with
    | ok _ =>
      rw [hbalanced] at h
      cases h
    | error inner =>
      rw [hbalanced] at h
      obtain rfl := Except.error.inj h
      exact (at_of_balanced (List.forall_mem_nil _) (Lexer.isRead_of_tokens hfragment) hbalanced).within
        (Lexer.tile_fragment hfragment)

/-- What is found at the front of a text is within the text. -/
structure Lexer.InBounds (cs : List Char) : Prop where
  /-- White space and comments ahead of a token. -/
  gap : ∀ g, gapLength cs = .ok g → g ≤ cs.length
  /-- What follows the first character of a token. -/
  token : ∀ c kind n, scan c cs = .ok (kind, n) → n ≤ cs.length
  /-- What follows the first character of a comment in a gap. -/
  comment : ∀ c n, GapParts.commentLength? c cs = some n → n ≤ cs.length

/-- Every scan is in bounds. -/
theorem Lexer.inBounds (cs : List Char) : InBounds cs where
  gap _ h := gapLength_le h
  token c _ _ h := (measured_scan c h).1
  comment c n h := by
    unfold GapParts.commentLength? at h
    repeat' split at h
    · exact Option.some.inj h ▸ lineCommentLength_le cs
    · obtain rfl := Option.some.inj h
      cases hend : Text.indexOf? starSlash (cs.drop 1) with
      | none => exact Nat.le_refl _
      | some k =>
        obtain ⟨a, b, hdrop, rfl⟩ := exists_of_indexOf? hend
        have hlength := congrArg List.length hdrop
        simp only [List.length_drop, List.length_append, starSlash, List.length_cons] at hlength
        simp only [Option.map_some, Option.getD_some]
        omega
    · cases h

/-- Reading is safe for every source.

* The lexer takes no more characters than there are, and gives tokens that tile the source, or an error
  about a part of it.
* At every place in these tokens there is a next token, and a statement or a member that is read there
  takes at least one token, but not the end of the source, or the error is about a token that is there.
  What is read as a part of it does not take the end of the source either.
* A file or a body is read, or refused with an error about a part of it. -/
theorem parse_safe (source : String) :
    (∀ cs, Lexer.InBounds cs) ∧
    (Leaves preamble ∧ Leaves directive ∧ Leaves imports ∧ Leaves classLikeHead ∧ Leaves memberKinds) ∧
    (∀ lex ∈ [Lexer.file, Lexer.fragment], ReadsOrRefuses source.toList (lex source) fun ts =>
      Token.Tile source.toList ts ∧ ∀ us, us <:+ ts → us ≠ [] →
        peek us ∈ us ∧ statement.Steps us ∧ member.Steps us) ∧
    ReadsOrRefuses source.toList (Outline.parse source) (fun _ => True) ∧
    ReadsOrRefuses source.toList (Body.parse source) fun _ => True := by
  have hplaces {ts : List Token} (htile : Token.Tile source.toList ts) :
      ∀ us, us <:+ ts → us ≠ [] → peek us ∈ us ∧ statement.Steps us ∧ member.Steps us := by
    intro us hus hne
    have hended := htile.ended.of_suffix hus hne
    exact ⟨hended.peek_mem, steps_statement us hended, steps_member us hended⟩
  refine ⟨Lexer.inBounds, ⟨leaves_preamble, ?_, leaves_imports, leaves_classLikeHead, ?_⟩, ?_, ?_, ?_⟩
  · exact fun ts _ _ h => ((makes_any ts).directive List.suffix_rfl h).1
  · exact fun ts _ _ h => ((makes_any ts).memberKinds List.suffix_rfl h).1
  · refine List.forall_mem_cons.2 ⟨?_, List.forall_mem_singleton.2 ?_⟩
    · refine readsOrRefuses_of (fun ts h => ?_) (Lexer.confined_file source)
      have htile := Lexer.tile_file h
      exact ⟨htile, hplaces htile⟩
    · refine readsOrRefuses_of (fun ts h => ?_) (Lexer.confined_fragment source)
      have htile := Lexer.tile_fragment h
      exact ⟨htile, hplaces htile⟩
  · exact readsOrRefuses_of (fun _ _ => trivial) fun _ => Outline.within_of_parse
  · exact readsOrRefuses_of (fun _ _ => trivial) fun _ => Body.within_of_parse

/-- The span of an error is counted in bytes. -/
example : Body.parse "é(" = .error ⟨.unclosedInBody, 2, 1⟩ := by decide +kernel

end PhpGraft

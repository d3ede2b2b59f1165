import PhpGraft.Proofs.Model.ValueSpec
import PhpGraft.Proofs.Syntax.Captures
import PhpGraft.Proofs.Syntax.Continuing
import PhpGraft.Proofs.Syntax.Echoing
import PhpGraft.Proofs.Syntax.Heads
import PhpGraft.Proofs.Syntax.Numerals
import PhpGraft.Proofs.Syntax.Provenance

/-!
# Values in files

The values of constants and the defaults of properties and parameters are expressions whose integers are of
64 bits and whose names are names, since these are all that tokens can be. So each value that is read from a
file becomes the same expression again, up to casts of keys, unless it is a constant that is not fetched by
its name (`Outline.materialize_value_iff`).
-/

namespace PhpGraft

open Decimal Lexer Text ValueSpec

/-! ## Sound tokens -/

/-- A token whose number is in range and whose name is one. -/
structure Token.IsSound (t : Token) : Prop where
  /-- The number of the token is one that a token can be. -/
  number : InRange t.kind
  /-- The text of a name is read as one name. -/
  name : t.kind = .name → isNameText t.text = true

/-- What is found at the front of a text is found where it ends. -/
theorem Lexer.nameLength_take (cs : List Char) :
    nameLength (cs.take (nameLength cs)) = (cs.take (nameLength cs)).length := by
  have hle := nameLength_le cs
  have hcut : nameLength (cs.take (nameLength cs) ++ cs.drop (nameLength cs)) =
      nameLength (cs.take (nameLength cs)) := by
    apply nameLength_cut
    rw [List.take_append_drop, List.length_take]
    omega
  rw [List.take_append_drop] at hcut
  rw [← hcut, List.length_take]
  omega

/-- The tokens of a source are sound. -/
theorem Lexer.isSound_of_tokens {start : ℕ} {cs : List Char} {ts : List Token}
    (h : tokens start cs = .ok ts) : ∀ t ∈ ts, t.IsSound := by
  induction ts generalizing start cs with
  | nil => exact List.forall_mem_nil _
  | cons t ts ih =>
    have hnumber := inRange_tokens h
    obtain ⟨g, hg, ⟨-, hts⟩ | ⟨c, rest, kind, n, more, hdrop, hs, hm, hts⟩⟩ := tokens_cases h
    · obtain ⟨rfl, rfl⟩ := List.cons.inj hts
      exact List.forall_mem_singleton.2 ⟨trivial, nofun⟩
    · obtain ⟨rfl, rfl⟩ := List.cons.inj hts
      refine List.forall_mem_cons.2 ⟨⟨hnumber _ List.mem_cons_self, fun hname => ?_⟩, ih hm⟩
      obtain rfl : kind = .name := hname
      obtain ⟨hstart, rfl⟩ := naming_scan c rest _ n hs
      -- what starts the name starts it also where the text ends with the name
      have hfirst : startsName c (rest.take (nameLength rest)) = true := by
        cases rest with
        | nil => exact hstart
        | cons d rest =>
          by_cases hd : isIdentStart d = true
          · rw [nameLength, if_pos (by rw [isIdentChar_of_start hd, Bool.true_or]), List.take_succ_cons]
            exact hstart
          · have hc : isIdentStart c = true := by simpa [startsName, hd] using hstart
            rw [startsName, hc, Bool.true_or]
      rw [isNameText, isBlank_of_gapLength hg hdrop, hfirst, nameLength_take]
      simp

/-- The tokens of a file behind the first one are sound. -/
theorem Lexer.isSound_of_file {source : String} {ts : List Token} (h : file source = .ok ts) :
    ∀ t ∈ ts.tail, t.IsSound := by
  obtain ⟨before, code, more, -, -, hm, rfl⟩ | ⟨-, rfl⟩ := file_cases h
  · exact isSound_of_tokens hm
  · exact List.forall_mem_nil _

/-! ## Sound expressions -/

namespace Reader

/-- Tokens that are all sound. -/
abbrev AllSound (ts : List Token) : Prop := ∀ t ∈ ts, t.IsSound

/-- A constant is named by names. -/
theorem isSound_constantOf {name : String} (hname : isNameText name.toList = true) {ts : List Token}
    (hts : AllSound ts) :
    (constantOf name ts).1.isSound = true ∧ AllSound (constantOf name ts).2.1 := by
  unfold constantOf
  split
  · next gap text start gap' text' start' rest =>
    obtain ⟨-, hts⟩ := List.forall_mem_cons.1 hts
    obtain ⟨hmember, hrest⟩ := List.forall_mem_cons.1 hts
    refine ⟨?_, hrest⟩
    rw [Expr.isSound, hname, Token.source, String.toList_ofList]
    exact hmember.name rfl
  · exact ⟨hname, hts⟩

/-- The number that a sound token is, behind a minus sign or not, is sound. -/
theorem isSound_number {negative : Bool} {t : Token} (ht : t.IsSound) {e : Expr}
    (he : numberOf? negative t.kind = some e) : e.isSound = true := by
  have hrange := inRange_of_numberOf? ht.number he
  cases e with
  | int n =>
    obtain ⟨hmin, hmax⟩ : minInt64 < n ∧ n ≤ maxInt64 := hrange
    rw [Expr.isSound, Bool.and_eq_true, decide_eq_true_eq, decide_eq_true_eq]
    exact ⟨hmin.le, hmax⟩
  | float x => rfl
  | _ => exact hrange.elim

/-- Literals of fewer than `n` sound tokens are sound. -/
def SoundLiterals (n : Nat) : Prop :=
  ∀ ⦃ts rest : List Token⦄ ⦃e : Expr⦄, ts.length < n → AllSound ts → Gives (literal ts) e rest →
    e.isSound = true ∧ AllSound rest

/-- Entries of arrays of fewer than `n` sound tokens are sound. -/
def SoundEntries (n : Nat) : Prop :=
  ∀ ⦃ts rest : List Token⦄ ⦃close : Char⦄ ⦃items : List ArrayItem⦄, ts.length < n → AllSound ts →
    Gives (entries close ts) items rest → ArrayItem.allSound items = true ∧ AllSound rest

variable {n : Nat}

/-- A literal is sound if the entries of arrays of fewer tokens are. -/
theorem soundLiterals_succ (hentries : SoundEntries n) : SoundLiterals (n + 1) := by
  intro ts rest e hn hts h
  obtain ⟨hlt, h⟩ := h
  cases ts with
  | nil =>
    unfold literal at h
    cases h
  | cons t us =>
  obtain ⟨ht, hus⟩ := List.forall_mem_cons.1 hts
  have hus_lt : us.length < n := Nat.lt_of_succ_lt_succ hn
  unfold literal at h
  dsimp only at h
  split at h
  · next n hk =>
    obtain ⟨rfl, rfl⟩ := eq_of_read h
    have hnumber : numberOf? false t.kind = some (.int n) := by
      rw [hk]
      rfl
    exact ⟨isSound_number ht hnumber, hus⟩
  · obtain ⟨rfl, rfl⟩ := eq_of_read h
    exact ⟨rfl, hus⟩
  · obtain ⟨rfl, rfl⟩ := eq_of_read h
    exact ⟨rfl, hus⟩
  · -- a minus sign belongs to the number behind it
    split at h
    · next n _ _ _ _ =>
      obtain ⟨rfl, rfl⟩ := eq_of_read h
      obtain ⟨hsound, hmore⟩ := List.forall_mem_cons.1 hus
      have hnumber : numberOf? true (.int n) = some (.int (-n)) := rfl
      exact ⟨isSound_number hsound hnumber, hmore⟩
    · obtain ⟨rfl, rfl⟩ := eq_of_read h
      exact ⟨rfl, (List.forall_mem_cons.1 hus).2⟩
    · cases h
  · split at h
    · next items more hmore hitems =>
      obtain ⟨rfl, rfl⟩ := eq_of_read h
      exact hentries hus_lt hus ⟨hmore, hitems⟩
    · cases h
  · next hk =>
    -- a name is a value, the head of an array or a constant
    split at h
    · obtain ⟨rfl, rfl⟩ := eq_of_read h
      exact ⟨rfl, hus⟩
    split at h
    · obtain ⟨rfl, rfl⟩ := eq_of_read h
      exact ⟨rfl, hus⟩
    split at h
    · obtain ⟨rfl, rfl⟩ := eq_of_read h
      exact ⟨rfl, hus⟩
    split at h
    · split at h
      · next items more hmore hitems =>
        obtain ⟨rfl, rfl⟩ := eq_of_read h
        have hshorter := (List.tail_sublist us).length_le
        have htail : AllSound us.tail := fun t ht => hus t (List.mem_of_mem_tail ht)
        exact hentries (Nat.lt_of_le_of_lt hshorter hus_lt) htail ⟨hmore, hitems⟩
      · cases h
    · obtain ⟨he, hrest⟩ := eq_of_read h
      have hname : isNameText t.source.toList = true := by
        rw [Token.source, String.toList_ofList]
        exact ht.name hk
      rw [← he, ← hrest]
      exact isSound_constantOf hname hus
  · cases h

/-- An entry is sound if the literals of as many tokens are. -/
theorem isSound_entry (hliterals : SoundLiterals n) {ts rest : List Token} {first : Expr}
    {item : ArrayItem} (hn : ts.length ≤ n) (hts : AllSound ts) (hfirst : first.isSound = true)
    (h : ∃ hle, entry first ts = some (item, ⟨rest, hle⟩)) : item.isSound = true ∧ AllSound rest := by
  obtain ⟨hle, h⟩ := h
  unfold entry at h
  split at h
  · next gap text start source hle =>
    split at h
    · next v more hmore hv =>
      obtain ⟨rfl, rfl⟩ := eq_of_read h
      obtain ⟨hsound, hrest⟩ := hliterals hn (List.forall_mem_cons.1 hts).2 ⟨hmore, hv⟩
      refine ⟨?_, hrest⟩
      rw [ArrayItem.isSound, hfirst, hsound]
      rfl
    · cases h
  · obtain ⟨rfl, rfl⟩ := eq_of_read h
    exact ⟨hfirst, hts⟩

/-- The entries of an array are sound if the literals of as many tokens are, and the entries of fewer. -/
theorem soundEntries_succ (hliterals : SoundLiterals (n + 1)) (hentries : SoundEntries n) :
    SoundEntries (n + 1) := by
  intro ts rest close items hn hts h
  obtain ⟨hlt, h⟩ := h
  cases ts with
  | nil =>
    unfold entries at h
    cases h
  | cons t us =>
  unfold entries at h
  split at h
  · obtain ⟨rfl, rfl⟩ := eq_of_read h
    exact ⟨rfl, (List.forall_mem_cons.1 hts).2⟩
  cases hl : literal (t :: us) with
  | none => rw [hl] at h; cases h
  | some found =>
  obtain ⟨first, behind, hbehind⟩ := found
  rw [hl] at h
  dsimp only at h
  obtain ⟨hfirst, hsound⟩ := hliterals hn hts ⟨hbehind, hl⟩
  cases hi : entry first behind with
  | none => rw [hi] at h; cases h
  | some found =>
  obtain ⟨item, more, hmore⟩ := found
  rw [hi] at h
  have hfewer : behind.length ≤ n + 1 := Nat.le_of_lt (Nat.lt_trans hbehind hn)
  obtain ⟨hitem, hsound⟩ := isSound_entry hliterals hfewer hsound hfirst ⟨hmore, hi⟩
  cases more with
  | nil => cases h
  | cons separator more =>
  obtain ⟨-, hsound⟩ := List.forall_mem_cons.1 hsound
  dsimp only at h
  split at h
  · cases hr : entries close more with
    | none => rw [hr] at h; cases h
    | some found =>
    obtain ⟨others, last, hlast⟩ := found
    have hshorter : more.length < n := by
      simp only [List.length_cons] at hn hmore hbehind
      omega
    rw [hr] at h
    obtain ⟨rfl, rfl⟩ := eq_of_read h
    obtain ⟨hothers, hrest⟩ := hentries hshorter hsound ⟨hlast, hr⟩
    refine ⟨?_, hrest⟩
    rw [ArrayItem.allSound, hitem, hothers]
    rfl
  · split at h
    · obtain ⟨rfl, rfl⟩ := eq_of_read h
      refine ⟨?_, hsound⟩
      rw [ArrayItem.allSound, hitem]
      rfl
    · cases h

/-- Literals and entries of arrays that are read from sound tokens are sound. -/
theorem sound_literals_entries (n : Nat) : SoundLiterals n ∧ SoundEntries n := by
  induction n with
  | zero =>
    constructor
    · exact fun _ _ _ hn => absurd hn (Nat.not_lt_zero _)
    · exact fun _ _ _ _ hn => absurd hn (Nat.not_lt_zero _)
  | succ n ih =>
    have hliterals := soundLiterals_succ ih.2
    exact ⟨hliterals, soundEntries_succ hliterals ih.2⟩

variable {file : List Token}

/-- An expression that is read within sound tokens is sound. -/
theorem draws_expression (hfile : AllSound file) (stop : Char → Bool) :
    Draws file (expression stop) fun e => e.isSound = true := by
  intro ts e rest hts h
  refine ⟨leaves_expression stop h, ?_⟩
  unfold expression at h
  split at h
  · cases h
  · cases h
  · next taken mid hne hspan =>
    obtain ⟨rfl, -⟩ := Prod.mk.inj (Option.some.inj h)
    have htaken : AllSound taken := by
      intro t ht
      apply hfile t
      apply hts.subset
      apply (List.dropWhile_suffix isDoc).subset
      show t ∈ skipDocs ts
      rw [← append_of_expressionSpan? hspan]
      exact List.mem_append_left _ ht
    cases hl : literal? taken with
    | none => rfl
    | some e =>
      unfold literal? at hl
      split at hl
      · next first hlt hread =>
        obtain rfl := Option.some.inj hl
        exact ((sound_literals_entries (taken.length + 1)).1 (Nat.lt_succ_self _) htaken ⟨hlt, hread⟩).1
      · cases hl

/-! ## Values of members -/

/-- A default is sound if there is one. -/
theorem draws_defaultValue (hfile : AllSound file) (stop : Char → Bool) :
    Draws file (defaultValue stop) fun e? => ∀ e ∈ e?, e.isSound = true := by
  refine (leaves_eatPunct _).draws.bind fun _ _ => .ite ?_ (.pure nofun)
  refine (draws_expression hfile stop).bind fun e he => .pure fun e' he' => ?_
  obtain rfl := Option.some.inj he'
  exact he

/-- The default of a parameter is sound. -/
theorem draws_param (hfile : AllSound file) :
    Draws file param fun p => ∀ e ∈ p.default?, e.isSound = true :=
  leaves_attributes.draws.bind fun _ _ => leaves_promotion.draws.bind fun _ _ =>
    (leaves_typeUnless _).draws.bind fun _ _ => (leaves_eatPunct _).draws.bind fun _ _ =>
      (leaves_eat (failsEnd_kind .ellipsis (by decide))).draws.bind fun _ _ =>
        leaves_variableName.draws.bind fun _ _ =>
          (draws_defaultValue hfile _).bind fun _ h => .pure h

/-- The defaults of parameters are sound. -/
theorem draws_params (hfile : AllSound file) :
    Draws file params fun ps => ∀ p ∈ ps, ∀ e ∈ p.default?, e.isSound = true := by
  intro ts ps rest hts h
  refine ⟨leaves_params h, ?_⟩
  unfold params at h
  split at h
  · obtain ⟨rfl, -⟩ := Prod.mk.inj (Option.some.inj h)
    exact List.forall_mem_nil _
  · split at h
    · cases h
    · next p mid hp =>
      have := advances_param hp
      have := length_advance_le mid
      obtain ⟨hmid, hsound⟩ := draws_param hfile hts hp
      split at h
      · obtain ⟨rfl, -⟩ := Prod.mk.inj (Option.some.inj h)
        exact List.forall_mem_singleton.2 hsound
      split at h
      · next hcomma =>
        obtain ⟨⟨qs, last⟩, hqs, e⟩ := Option.map_eq_some_iff.1 h
        obtain ⟨rfl, -⟩ := Prod.mk.inj e
        have hbehind := (restOf_advance (failsEnd_isPunct ',') hcomma).trans hmid
        exact List.forall_mem_cons.2 ⟨hsound, (draws_params hfile (hbehind.suffix.trans hts) hqs).2⟩
      · cases h
termination_by ts => ts.length

/-- Things in a group have a property that each one has. -/
theorem Draws.group {α : Type} {item : Reader α} {hitem : Advances item} {P : α → Prop}
    (h : Draws file item P) : Draws file (group item hitem) fun xs => ∀ x ∈ xs, P x :=
  h.commaList.bind fun _ hxs => (leaves_expectPunct _).draws.bind fun _ _ => .pure hxs

/-- The value of a constant is sound. -/
theorem draws_constant (hfile : AllSound file) (modifiers : Modifiers) :
    Draws file (constant modifiers) fun d => d.value.isSound = true :=
  leaves_name.draws.bind fun _ _ => (leaves_expectPunct _).draws.bind fun _ _ =>
    (draws_expression hfile _).bind fun _ h => .pure h

/-- The initial value of a property is sound. -/
theorem draws_property (hfile : AllSound file) (modifiers : Modifiers) (type? : Option TypeHint) :
    Draws file (property modifiers type?) fun d => ∀ e ∈ d.default?, e.isSound = true :=
  leaves_variableName.draws.bind fun _ _ => (draws_defaultValue hfile _).bind fun _ h => .pure h

/-- The initial values of properties are sound. -/
theorem draws_properties (hfile : AllSound file) (modifiers : Modifiers) :
    Draws file (properties modifiers) fun ds => ∀ d ∈ ds, ∀ e ∈ d.default?, e.isSound = true :=
  (leaves_typeUnless _).draws.bind fun _ _ => (draws_property hfile _ _).group

end Reader

/-- The values in a node: of a constant, of a property, or of the parameters of a method. -/
def NodeKind.values : NodeKind → List Expr
  | constDecl d => [d.value]
  | propertyDecl d => d.default?.toList
  | methodDecl d => d.params.filterMap (·.default?)
  | _ => []

/-- A kind of node whose values are sound. -/
def NodeKind.HasSoundValues (kind : NodeKind) : Prop := ∀ e ∈ kind.values, e.isSound = true

namespace Reader

variable {file : List Token}

/-- The defaults in a method are sound. -/
theorem draws_methodValues (hfile : AllSound file) (modifiers : Modifiers) :
    Draws file (method modifiers) fun d => (NodeKind.methodDecl d).HasSoundValues := by
  refine (leaves_expectKeyword _).draws.bind fun _ _ => (leaves_eatPunct _).draws.bind fun _ _ => ?_
  refine leaves_name.draws.bind fun _ _ => (leaves_expectPunct _).draws.bind fun _ _ => ?_
  refine (draws_params hfile).bind fun ps hps => leaves_returnType.draws.bind fun _ _ => ?_
  refine draws_blockOrNone.bind fun _ _ => .pure fun e he => ?_
  obtain ⟨p, hp, he⟩ := List.mem_filterMap.1 he
  exact hps p hp e he

/-- The values of the members that are read are sound. -/
theorem draws_memberValues (hfile : AllSound file) :
    Draws file memberKinds fun kinds => ∀ k ∈ kinds, k.HasSoundValues := by
  have htraits : Draws file traitUse fun kind => kind.HasSoundValues :=
    draws_traitUse fun _ _ _ => List.forall_mem_nil _
  refine (leaves_eatKeyword _).draws.bind fun _ _ => .ite ?_ ?_
  · exact htraits.bind fun _ h => .pure (List.forall_mem_singleton.2 h)
  refine leaves_modifiers.draws.bind fun _ _ => (leaves_eatKeyword _).draws.bind fun _ _ => .ite ?_ ?_
  · refine (draws_constant hfile _).group.bind fun ds hds => .pure fun k hk => ?_
    obtain ⟨d, hd, rfl⟩ := List.mem_map.1 hk
    exact List.forall_mem_singleton.2 (hds d hd)
  refine leaves_look.draws.bind fun _ _ => .ite ?_ (.ite (fun _ _ _ _ h => nomatch h) ?_)
  · exact (draws_methodValues hfile _).bind fun d h => .pure (List.forall_mem_singleton.2 h)
  · refine (draws_properties hfile _).bind fun ds hds => .pure fun k hk => ?_
    obtain ⟨d, hd, rfl⟩ := List.mem_map.1 hk
    exact fun e he => hds d hd e (Option.mem_toList.1 he)

/-- The values in everything that is read within sound tokens are sound. -/
theorem makes_hasSoundValues (hfile : AllSound file) : Makes file NodeKind.HasSoundValues where
  directive := draws_directive fun _ _ => List.forall_mem_nil _
  imports := draws_imports fun _ _ => List.forall_mem_nil _
  classLikeHead ts kind rest _ h := by
    refine ⟨leaves_classLikeHead h, ?_⟩
    unfold classLikeHead at h
    repeat' split at h
    all_goals
      obtain ⟨_, -, rfl⟩ := map_eq_some h
      exact List.forall_mem_nil _
  memberKinds := draws_memberValues hfile
  namespaceDecl _ _ := List.forall_mem_nil _
  statement _ _ _ _ _ _ := List.forall_mem_nil _
  comments _ _ _ _ _ := List.forall_mem_nil _

end Reader

/-! ## Values of a file -/

/-- A constant, a default of a property or a default of a parameter that is read from a file becomes the same
expression again, up to casts of the keys of arrays, if it is no constant or a constant that is fetched by
its name, and only then. -/
theorem Outline.materialize_value_iff {source : String} {file : Outline}
    (h : Outline.parse source = .ok file) : file.All fun n => ∀ e ∈ n.kind.values,
      ((∃ e', (recover e).materialize = .ok e' ∧ e.CastsTo e') ↔ isFetched e = true) := by
  obtain ⟨ts, statements, hfile, rfl, hall⟩ := Outline.all_of_parse h
  have hsound : ∀ o ∈ statements, o.AllKinds NodeKind.HasSoundValues :=
    hall _ (Reader.makes_hasSoundValues (isSound_of_file hfile))
  have hroot : (Outline.file statements).AllKinds NodeKind.HasSoundValues :=
    .mk (List.forall_mem_nil _) hsound
  refine hroot.mono fun n hn e he => ?_
  have hvalue := materialize_recover (hn e he)
  cases hfetched : isFetched e with
  | true =>
    rw [hfetched, if_pos rfl] at hvalue
    exact ⟨fun _ => rfl, fun _ => hvalue⟩
  | false =>
    rw [hfetched, if_neg Bool.false_ne_true] at hvalue
    obtain ⟨text, hrefused⟩ := hvalue
    refine ⟨?_, nofun⟩
    rintro ⟨e', hmade, -⟩
    rw [hrefused] at hmade
    cases hmade

/-- An array whose first key is cast is made again. -/
theorem Outline.materialize_value_keyed : ∃ file e e',
    Outline.parse "<?php\nclass A \x7b const X = ['5' => 'a', 'k' => [null, -1]]; \x7d" = .ok file ∧
      e.text = "['5' => 'a', 'k' => [null, -1]]" ∧ (recover e).materialize = .ok e' ∧ e.CastsTo e' := by
  let source : String := "<?php\nclass A \x7b const X = ['5' => 'a', 'k' => [null, -1]]; \x7d"
  have hvalues : ((Outline.parse source).toOption.map fun file => file.children.map fun o =>
      o.children.map fun o => o.node.kind.values.map fun e => (e.text, isFetched e)) =
        some [[[("['5' => 'a', 'k' => [null, -1]]", true)]]] := by decide +kernel
  obtain ⟨file, hparse, hvalues⟩ := Option.map_eq_some_iff.1 hvalues
  obtain ⟨decl, hdecls, hvalues⟩ := List.map_eq_singleton_iff.1 hvalues
  obtain ⟨member, hmembers, hvalues⟩ := List.map_eq_singleton_iff.1 hvalues
  obtain ⟨e, he, hfetched⟩ := List.map_eq_singleton_iff.1 hvalues
  obtain ⟨htext, hfetched⟩ := Prod.mk.inj hfetched
  have hall := Outline.materialize_value_iff (Body.eq_ok_of_toOption hparse)
  have hdecl := hall.children decl (by rw [hdecls]; simp)
  have hmember := (hdecl.children member (by rw [hmembers]; simp)).node
  obtain ⟨e', hmade, hcasts⟩ := (hmember e (by rw [he]; simp)).2 hfetched
  exact ⟨file, e, e', Body.eq_ok_of_toOption hparse, htext, hmade, hcasts⟩

/-- The value of a constant that is named outside ASCII is lost. -/
theorem Outline.not_materialize_value : ¬ ∀ (source : String) (file : Outline),
    Outline.parse source = .ok file → file.All fun n => ∀ e ∈ n.kind.values,
      ∃ e', (recover e).materialize = .ok e' ∧ e.CastsTo e' := by
  intro hall
  let source : String := "<?php\n\nclass A\n\x7b\n    const X = É;\n\x7d\n"
  have hvalues : ((Outline.parse source).toOption.map fun file => file.children.map fun o =>
      o.children.map fun o => o.node.kind.values.map fun e => (e.isSound, isFetched e)) =
        some [[[(true, false)]]] := by decide +kernel
  obtain ⟨file, hparse, hvalues⟩ := Option.map_eq_some_iff.1 hvalues
  obtain ⟨decl, hdecls, hvalues⟩ := List.map_eq_singleton_iff.1 hvalues
  obtain ⟨member, hmembers, hvalues⟩ := List.map_eq_singleton_iff.1 hvalues
  obtain ⟨e, he, hvalues⟩ := List.map_eq_singleton_iff.1 hvalues
  obtain ⟨hsound, hfetched⟩ := Prod.mk.inj hvalues
  have hdecl := (hall source file (Body.eq_ok_of_toOption hparse)).children decl (by rw [hdecls]; simp)
  have hmember := (hdecl.children member (by rw [hmembers]; simp)).node
  obtain ⟨e', hmade, -⟩ := hmember e (by rw [he]; simp)
  have hrefused := materialize_recover hsound
  rw [hfetched, if_neg Bool.false_ne_true] at hrefused
  obtain ⟨text, hrefused⟩ := hrefused
  rw [hmade] at hrefused
  cases hrefused

end PhpGraft

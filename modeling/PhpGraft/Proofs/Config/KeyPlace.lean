import PhpGraft.Config.Reader
import PhpGraft.Proofs.Syntax.Tokens
import PhpGraft.Proofs.Text.Lines
import PhpGraft.Proofs.Text.Search
import PhpGraft.Text.Utf8

/-!
# Where a fault in a setting is shown

A fault in the width of indentation is shown at a key, on the first line that gives the key a value. The
lines ahead of it are counted with one byte behind each of them, although a line may end in a carriage
return and a newline. So what is shown is the place of the key less the number of such lines ahead of it
(`SettingsError.keySpan?_eq_some_iff`): the place of the key where no line ahead of it ends like that, and
another one where one does (`SettingsError.shown_at_key_iff`).

The width is one that the document in the source holds. What reads the document is a parameter, and nothing
is asked of it (`Settings.readWith_eq_indentWidth_iff`).
-/

namespace PhpGraft

open Text

namespace Text

variable {row : List Char}

/-- The end of a line that has a carriage return, too. -/
def returnNewline : List Char := ['\r', '\n']

/-- The number of rows that end in a carriage return and a newline. -/
def returnCount (rs : List (List Char)) : Nat := rs.countP (returnNewline.isSuffixOf ·)

/-- No row ends in a carriage return and a newline where none of them is counted. -/
theorem returnCount_eq_zero_iff (rs : List (List Char)) :
    returnCount rs = 0 ↔ ∀ row ∈ rs, ¬returnNewline <:+ row := by
  simp [returnCount]

/-- Rows are counted one by one. -/
theorem returnCount_cons (row : List Char) (rs : List (List Char)) :
    returnCount (row :: rs) = returnCount [row] + returnCount rs := by
  rw [returnCount, ← List.singleton_append, List.countP_append, returnCount, returnCount]

/-- A row has one byte more than its line, and a second one if it ends in a carriage return, too. -/
theorem byteLength_row (h : row.getLast? = some '\n') :
    byteLength row = byteLength (lineOfRow row) + 1 + returnCount [row] := by
  obtain ⟨l, rfl⟩ := List.getLast?_eq_some_iff.1 h
  have hnewline : byteLength (l ++ ['\n']) = byteLength l + 1 := byteLength_append l ['\n']
  -- behind the newline, a line loses a carriage return if there is one
  by_cases hr : l.getLast? = some '\r'
  · obtain ⟨k, rfl⟩ := List.getLast?_eq_some_iff.1 hr
    have hreturn : byteLength (k ++ ['\r']) = byteLength k + 1 := byteLength_append k ['\r']
    have hcount : returnCount [k ++ ['\r'] ++ ['\n']] = 1 := by
      simp [returnCount, returnNewline]
    rw [hnewline, hreturn, hcount, lineOfRow, if_pos List.getLast?_concat, List.dropLast_concat]
    dsimp only
    rw [if_pos hr, List.dropLast_concat]
  · have hcount : returnCount [l ++ ['\n']] = 0 := by
      rw [returnCount_eq_zero_iff, List.forall_mem_singleton]
      rintro ⟨k, hk⟩
      have hl : k ++ ['\r'] = l := by
        simpa [returnNewline] using congrArg List.dropLast hk
      exact hr (by rw [← hl, List.getLast?_concat])
    rw [hnewline, hcount, lineOfRow_append hr]

/-- All rows of a text but the last one end in a newline. -/
theorem getLast?_of_mem_rows {cs : List Char} (h : row ∈ (rows cs).dropLast) :
    row.getLast? = some '\n' := by
  by_cases hn : '\n' ∈ cs
  · -- the first row goes up to the first newline, and the rest of the text is shorter
    obtain ⟨l, rest, rfl, hl⟩ := List.eq_append_cons_of_mem hn
    rw [rows_append hl] at h
    cases hrest : rows rest with
    | nil => simp [hrest] at h
    | cons r rs =>
      rw [hrest, List.dropLast_cons_cons, List.mem_cons, ← hrest] at h
      rcases h with rfl | h
      · exact List.getLast?_concat
      · exact getLast?_of_mem_rows h
  · by_cases hnil : cs = []
    · rw [hnil] at h
      cases h
    · rw [rows_of_not_mem hn hnil] at h
      cases h
termination_by cs.length
decreasing_by
  subst_vars
  simp only [List.length_append, List.length_cons]
  omega

/-- A text takes as many bytes in UTF-8 as it is counted with. -/
theorem length_encode (cs : List Char) : (cs.flatMap String.utf8EncodeChar).length = byteLength cs := by
  induction cs with
  | nil => rfl
  | cons c cs ih => rw [List.flatMap_cons, List.length_append, ih, String.length_utf8EncodeChar, byteLength]

end Text

namespace Settings

variable {document? : String → Option Toml.Table} {source : String}

/-- Reading fails for a source that holds no settings, and with the first fault in those that it holds. -/
theorem readWith_eq_error_iff {e : SettingsError} :
    readWith document? source = .error e ↔
      ((document? source).bind ofDocument = none ∧ e = ⟨.malformed, none⟩) ∨
        ((document? source).bind ofDocument).bind (fault? source) = some e := by
  rw [readWith]
  cases (document? source).bind ofDocument with
  | none => simp [eq_comm]
  | some s => cases hfault : s.fault? source <;> simp [hfault]

/-- What is wrong with a prefix or its directory is no width. -/
theorem rootFault?_ne_indentWidth (root : String × String) (width : Nat) :
    rootFault? root ≠ some (.indentWidth width) := by
  rw [rootFault?]
  split
  · exact nofun
  · split <;> exact nofun

/-- The fault in some settings is their width where it is not allowed, at its key. -/
theorem fault?_eq_indentWidth_iff {s : Settings} {width : Nat} {span? : Option (Nat × Nat)} :
    s.fault? source = some ⟨.indentWidth width, span?⟩ ↔
      s.generator.indentWidth = width ∧ width ∉ widths ∧
        span? = SettingsError.keySpan? source "indent" := by
  rw [fault?]
  split
  · next hwidth =>
    rw [Bool.not_eq_true', List.contains_eq_mem, decide_eq_false_iff_not] at hwidth
    constructor
    · intro h
      cases h
      exact ⟨rfl, hwidth, rfl⟩
    · rintro ⟨rfl, -, rfl⟩
      rfl
  · next hwidth =>
    rw [Bool.not_eq_true', Bool.not_eq_false, List.contains_eq_mem, decide_eq_true_eq] at hwidth
    constructor
    · intro h
      -- a fault in a prefix or its directory is none in the width
      obtain ⟨root, -, hroot⟩ := List.exists_of_findSome?_eq_some h
      obtain ⟨fault, hroot, he⟩ := Option.map_eq_some_iff.1 hroot
      rw [(SettingsError.mk.inj he).1] at hroot
      exact absurd hroot (rootFault?_ne_indentWidth root width)
    · rintro ⟨rfl, hnot, -⟩
      exact absurd hwidth hnot

/-- A width is refused where the document in the source holds it and it is not allowed, and it is shown
where its key is found. That is so whatever reads the document. -/
theorem readWith_eq_indentWidth_iff {width : Nat} {span? : Option (Nat × Nat)} :
    readWith document? source = .error ⟨.indentWidth width, span?⟩ ↔
      (∃ d s, document? source = some d ∧ ofDocument d = some s ∧ s.generator.indentWidth = width ∧
        width ∉ widths) ∧
        span? = SettingsError.keySpan? source "indent" := by
  rw [readWith_eq_error_iff]
  constructor
  · rintro (⟨-, he⟩ | hfault)
    · cases he
    · obtain ⟨s, hs, hfault⟩ := Option.bind_eq_some_iff.1 hfault
      obtain ⟨d, hdocument, hsettings⟩ := Option.bind_eq_some_iff.1 hs
      obtain ⟨hwidth, hnot, hspan⟩ := fault?_eq_indentWidth_iff.1 hfault
      exact ⟨⟨d, s, hdocument, hsettings, hwidth, hnot⟩, hspan⟩
  · rintro ⟨⟨d, s, hdocument, hsettings, hwidth, hnot⟩, hspan⟩
    refine .inr ?_
    rw [hdocument, Option.bind_some, hsettings, Option.bind_some]
    exact fault?_eq_indentWidth_iff.2 ⟨hwidth, hnot, hspan⟩

end Settings

/-- The bytes of a part of a source are found behind those of what stands ahead of it. -/
theorem Utf8.encode_part {source part : String} {before behind : List Char}
    (h : source.toList = before ++ (part.toList ++ behind)) :
    ((encode source).drop (byteLength before)).take (byteLength part.toList) = encode part := by
  rw [encode, h, List.flatMap_append, List.flatMap_append, ← length_encode before, List.drop_left,
    ← length_encode, List.take_left, encode]

namespace SettingsError

variable {key line row margin : List Char}

/-- Whether a line gives a key a value: the key stands behind a margin of white space, which is all that
there is ahead of it, and an equals sign stands behind the key and a gap of white space. -/
structure Assigns (key line margin : List Char) : Prop where
  margin_blank : margin.all isBlank = true
  line_eq : ∃ gap value, line = margin ++ (key ++ (gap ++ ['=']) ++ value) ∧ gap.all isBlank = true ∧
    ∀ c ∈ (key ++ (gap ++ ['='])).head?, isBlank c = false

/-- What is behind the equals sign is not what a text starts with. -/
theorem head?_marked (key gap value : List Char) :
    (key ++ (gap ++ ['=']) ++ value).head? = (key ++ (gap ++ ['='])).head? := by
  cases key <;> cases gap <;> rfl

/-- The column of a key is the length of its margin. -/
theorem keyColumn?_eq_some_iff {n : Nat} :
    keyColumn? key line = some n ↔ ∃ margin, Assigns key line margin ∧ n = byteLength margin := by
  have hcut (margin rest : List Char) :
      byteLength (margin ++ rest) - byteLength rest = byteLength margin := by
    rw [byteLength_append, Nat.add_sub_cancel]
  constructor
  · intro h
    simp only [keyColumn?, stripPrefix?] at h
    split at h
    · next rest hstrip =>
      obtain ⟨hkey, hrest⟩ := Option.ite_none_right_eq_some.1 hstrip
      obtain ⟨hequals, hn⟩ := Option.ite_none_right_eq_some.1 h
      obtain ⟨after, htrim⟩ := List.isPrefixOf_iff_prefix.1 hkey
      obtain ⟨value, hvalue⟩ := List.head?_eq_some_iff.1 (eq_of_beq hequals)
      rw [← htrim, List.drop_left, Option.some.injEq] at hrest
      subst hrest
      have hafter : after.takeWhile isBlank ++ '=' :: value = after := by
        rw [← hvalue]
        exact List.takeWhile_append_dropWhile
      have hrest : trimStart line = key ++ (after.takeWhile isBlank ++ ['=']) ++ value := by
        rw [← htrim]
        conv => lhs; rw [← hafter]
        simp
      have hline : line.takeWhile isBlank ++ trimStart line = line := List.takeWhile_append_dropWhile
      refine ⟨line.takeWhile isBlank, ⟨List.all_takeWhile, after.takeWhile isBlank, value,
        hrest ▸ hline.symm, List.all_takeWhile, fun c hc => ?_⟩, ?_⟩
      · -- what is left of a line does not start with white space
        have hfirst := List.head?_dropWhile_not isBlank line
        have hhead : (line.dropWhile isBlank).head? = some c := by
          rw [show line.dropWhile isBlank = _ from hrest, head?_marked, hc]
        rw [hhead] at hfirst
        simpa using hfirst
      · rw [← Option.some.inj hn, ← hcut (line.takeWhile isBlank) (trimStart line), hline]
    · cases h
  · rintro ⟨margin, ⟨hmargin, gap, value, rfl, hgap, hsolid⟩, rfl⟩
    have htrim : trimStart (margin ++ (key ++ (gap ++ ['=']) ++ value)) =
        key ++ (gap ++ ['=']) ++ value := by
      refine (dropWhile_blank_append hmargin _).trans (trimStart_eq_self fun c hc => hsolid c ?_)
      rwa [head?_marked] at hc
    have hstrip : stripPrefix? key (key ++ (gap ++ ['=']) ++ value) = some (gap ++ '=' :: value) := by
      rw [stripPrefix?, if_pos (by simp)]
      simp
    have hequals : trimStart (gap ++ '=' :: value) = '=' :: value :=
      (dropWhile_blank_append hgap _).trans (List.dropWhile_cons_of_neg (by decide))
    simp only [keyColumn?, htrim, hstrip, hequals]
    rw [if_pos (by rfl), hcut]

/-- A row gives a key a value where its line does. -/
theorem assigns_lineOfRow : Assigns key (lineOfRow row) margin ↔ Assigns key row margin := by
  obtain ⟨e, he, hblank⟩ := exists_lineOfRow row
  constructor
  · rintro ⟨hmargin, gap, value, hline, hgap, hsolid⟩
    refine ⟨hmargin, gap, value ++ e, ?_, hgap, hsolid⟩
    rw [he, hline]
    simp only [List.append_assoc]
  · rintro ⟨hmargin, gap, value, hline, hgap, hsolid⟩
    -- the white space behind the line of a row does not reach back to the equals sign
    have hends : ∃ rest, lineOfRow row = margin ++ (key ++ (gap ++ ['='])) ++ rest := by
      have hsplit : lineOfRow row ++ e = margin ++ (key ++ (gap ++ ['='])) ++ value := by
        rw [← he, hline, List.append_assoc margin]
      obtain ⟨more, hfront, hmore⟩ | ⟨rest, hfront, -⟩ := List.append_eq_append_iff.1 hsplit
      · rcases List.eq_nil_or_concat more with rfl | ⟨more, c, rfl⟩
        · exact ⟨[], by simpa using hfront.symm⟩
        · have hc : '=' = c := by
            have hlast := congrArg List.getLast? hfront
            simpa [← List.append_assoc] using hlast
          rw [hmore, ← hc] at hblank
          simp [show isBlank '=' = false from rfl] at hblank
      · exact ⟨rest, hfront⟩
    obtain ⟨rest, hrest⟩ := hends
    exact ⟨hmargin, gap, rest, by rw [hrest, List.append_assoc margin], hgap, hsolid⟩

/-- The line of a row has no column for a key where the row does not give it a value. -/
theorem keyColumn?_lineOfRow_eq_none_iff :
    keyColumn? key (lineOfRow row) = none ↔ ∀ margin, ¬Assigns key row margin := by
  rw [Option.eq_none_iff_forall_ne_some]
  constructor
  · intro h margin hassigns
    exact h _ (keyColumn?_eq_some_iff.2 ⟨margin, assigns_lineOfRow.2 hassigns, rfl⟩)
  · intro h n hn
    obtain ⟨margin, hassigns, -⟩ := keyColumn?_eq_some_iff.1 hn
    exact h margin (assigns_lineOfRow.1 hassigns)

/-- A key is not found where no row gives it a value. -/
theorem keySpanFrom?_eq_none_iff {rs : List (List Char)} {start : Nat} :
    keySpanFrom? key start (rs.map lineOfRow) = none ↔ ∀ r ∈ rs, ∀ margin, ¬Assigns key r margin := by
  induction rs generalizing start with
  | nil => simp [keySpanFrom?]
  | cons r rs ih =>
    rw [List.map_cons, keySpanFrom?, List.forall_mem_cons, ← keyColumn?_lineOfRow_eq_none_iff]
    cases keyColumn? key (lineOfRow r) with
    | some column => simp
    | none => simp [ih]

/-- The place of a key in some rows: the first row that gives it a value, with the rows around it. -/
structure KeyPlace (rs : List (List Char)) (key : List Char) where
  /-- The rows ahead. -/
  above : List (List Char)
  /-- The row that gives the key a value. -/
  row : List Char
  /-- The rows behind. -/
  below : List (List Char)
  /-- The white space ahead of the key in its row. -/
  margin : List Char
  rows_eq : rs = above ++ row :: below
  first : ∀ r ∈ above, ∀ m, ¬Assigns key r m
  assigns : Assigns key row margin

namespace KeyPlace

variable {rs : List (List Char)}

theorem rows_ne_nil (p : KeyPlace rs key) : rs ≠ [] := by
  rw [p.rows_eq]
  exact List.append_ne_nil_of_right_ne_nil _ (List.cons_ne_nil _ _)

/-- No row is ahead of a key that the first row gives a value. -/
theorem above_eq_nil (p : KeyPlace (row :: rs) key) (h : Assigns key row margin) : p.above = [] := by
  cases habove : p.above with
  | nil => rfl
  | cons a above =>
    obtain ⟨rfl, -⟩ := List.cons_eq_cons.1 (habove ▸ p.rows_eq)
    exact absurd h (p.first row (by rw [habove]; exact List.mem_cons_self) margin)

/-- All of the text ahead of a key. -/
def before (p : KeyPlace rs key) : List Char := p.above.flatten ++ p.margin

/-- A key is found in the first row that gives it a value, and counted with one byte behind each line. -/
theorem keySpanFrom?_eq_some_iff (hrs : ∀ r ∈ rs.dropLast, r.getLast? = some '\n')
    {start offset length : Nat} :
    keySpanFrom? key start (rs.map lineOfRow) = some (offset, length) ↔
      ∃ p : KeyPlace rs key, offset + returnCount p.above = start + byteLength p.before ∧
        length = byteLength key := by
  induction rs generalizing start with
  | nil =>
    refine ⟨nofun, ?_⟩
    rintro ⟨p, -⟩
    exact absurd p.rows_eq (by simp)
  | cons r rs ih =>
    rw [List.map_cons, keySpanFrom?]
    cases hcolumn : keyColumn? key (lineOfRow r) with
    | some column =>
      -- the key is in the first row, and nothing but its margin is ahead of it
      obtain ⟨margin, hassigns, rfl⟩ := keyColumn?_eq_some_iff.1 hcolumn
      rw [assigns_lineOfRow] at hassigns
      constructor
      · intro h
        obtain ⟨rfl, rfl⟩ := Prod.mk.inj (Option.some.inj h)
        exact ⟨⟨[], r, rs, margin, rfl, nofun, hassigns⟩, rfl, rfl⟩
      · rintro ⟨p, hoffset, rfl⟩
        have habove := p.above_eq_nil hassigns
        obtain ⟨above, row, below, margin', hrows, hfirst, hassigns'⟩ := p
        subst habove
        obtain ⟨rfl, -⟩ := List.cons_eq_cons.1 hrows
        have hmargin := keyColumn?_eq_some_iff.2 ⟨margin', assigns_lineOfRow.2 hassigns', rfl⟩
        rw [hcolumn, Option.some.injEq] at hmargin
        rw [hmargin]
        exact congrArg (fun n => some (n, byteLength key)) hoffset.symm
    | none =>
      -- the key is in a later row if it is in any, and the first row comes ahead of it
      have hr := keyColumn?_lineOfRow_eq_none_iff.1 hcolumn
      have hrest : ∀ r ∈ rs.dropLast, r.getLast? = some '\n' := fun x hx => hrs x <| by
        cases rs with
        | nil => cases hx
        | cons y ys => exact List.mem_cons_of_mem r hx
      dsimp only
      rw [ih hrest]
      -- both counts go on from the line ahead of a row that there is
      have hstep (above : List (List Char)) (margin : List Char) (hne : rs ≠ []) :
          offset + returnCount above =
              start + byteLength (lineOfRow r) + 1 + byteLength (above.flatten ++ margin) ↔
            offset + returnCount (r :: above) =
              start + byteLength ((r :: above).flatten ++ margin) := by
        have hbytes := byteLength_row (hrs r (by simp [List.dropLast_cons_of_ne_nil hne]))
        rw [List.flatten_cons, List.append_assoc, byteLength_append r, returnCount_cons]
        omega
      constructor
      · rintro ⟨p, hoffset, rfl⟩
        exact ⟨⟨r :: p.above, p.row, p.below, p.margin, congrArg (r :: ·) p.rows_eq,
          List.forall_mem_cons.2 ⟨hr, p.first⟩, p.assigns⟩,
          (hstep p.above p.margin p.rows_ne_nil).1 hoffset, rfl⟩
      · rintro ⟨⟨above, row, below, margin, hrows, hfirst, hassigns⟩, hoffset, rfl⟩
        cases above with
        | nil =>
          obtain ⟨rfl, -⟩ := List.cons_eq_cons.1 hrows
          exact absurd hassigns (hr margin)
        | cons a above =>
          obtain ⟨rfl, htail⟩ := List.cons_eq_cons.1 hrows
          let p : KeyPlace rs key :=
            ⟨above, row, below, margin, htail, (List.forall_mem_cons.1 hfirst).2, hassigns⟩
          exact ⟨p, (hstep above margin p.rows_ne_nil).2 hoffset, rfl⟩

end KeyPlace

variable {source : String}

/-- The place of a key is that of the first line that gives it a value, less one byte for each line ahead
of it that ends in a carriage return and a newline. -/
theorem keySpan?_eq_some_iff {key : String} {offset length : Nat} :
    keySpan? source key = some (offset, length) ↔
      ∃ p : KeyPlace (rows source.toList) key.toList,
        offset + returnCount p.above = byteLength p.before ∧ length = byteLength key.toList := by
  rw [keySpan?, lines, KeyPlace.keySpanFrom?_eq_some_iff fun _ => getLast?_of_mem_rows]
  simp only [Nat.zero_add]

/-- What stands in a source at the place of a key is the key. -/
theorem KeyPlace.encode_eq {key : String} (p : KeyPlace (rows source.toList) key.toList) :
    ((Utf8.encode source).drop (byteLength p.before)).take (byteLength key.toList) = Utf8.encode key := by
  obtain ⟨gap, value, hrow, -⟩ := p.assigns.line_eq
  have hsource : source.toList =
      p.before ++ (key.toList ++ (gap ++ ['='] ++ value ++ p.below.flatten)) := by
    conv => lhs; rw [← flatten_rows source.toList, p.rows_eq]
    rw [List.flatten_append, List.flatten_cons, hrow, KeyPlace.before]
    simp only [List.append_assoc]
  exact Utf8.encode_part hsource

/-- A key is found where a line gives it a value. It is the first of the line that is not blank, and its
place is what is shown where no line ahead of it ends in a carriage return and a newline, and only there.
A width of indentation is refused where `document?` reads a document that holds one which is not allowed,
and it is shown like that. -/
theorem shown_at_key_iff (document? : String → Option Toml.Table) (source : String) :
    (∀ key : String, keySpan? source key = none ↔
      ∀ row ∈ rows source.toList, ∀ margin, ¬Assigns key.toList row margin) ∧
    (∀ (key : String) (offset length : Nat), keySpan? source key = some (offset, length) →
      length = byteLength key.toList ∧
      ∃ p : KeyPlace (rows source.toList) key.toList,
        ((Utf8.encode source).drop (offset + returnCount p.above)).take length = Utf8.encode key ∧
        offset + returnCount p.above = byteLength p.before ∧
        (offset = byteLength p.before ↔ ∀ row ∈ p.above, ¬returnNewline <:+ row)) ∧
    ∀ (width : Nat) (span? : Option (Nat × Nat)),
      Settings.readWith document? source = .error ⟨.indentWidth width, span?⟩ ↔
        (∃ d s, document? source = some d ∧ Settings.ofDocument d = some s ∧
          s.generator.indentWidth = width ∧ width ∉ Settings.widths) ∧
          span? = keySpan? source "indent" := by
  refine ⟨fun key => ?_, fun key offset length h => ?_, fun _ _ => Settings.readWith_eq_indentWidth_iff⟩
  · rw [keySpan?, lines]
    exact keySpanFrom?_eq_none_iff
  · obtain ⟨p, hoffset, rfl⟩ := keySpan?_eq_some_iff.1 h
    refine ⟨rfl, p, by rw [hoffset, p.encode_eq], hoffset, ?_⟩
    rw [← returnCount_eq_zero_iff, ← hoffset, Nat.left_eq_add]

/-- Reads the document in two texts, which differ in the ends of their lines: the generator has a width of
three. -/
def widthThree? : String → Option Toml.Table
  | "[generator]\n  indent = 3\n" | "[generator]\r\nindent = 3\r\n" =>
    some [("generator", .table .header [("indent", .int 3)])]
  | _ => none

/-- The key of a width is shown itself behind a line that ends in a newline alone. -/
theorem shown_at_key_behind_newline :
    keySpan? "[generator]\n  indent = 3\n" "indent" = some (14, 6) ∧
      Settings.readWith widthThree? "[generator]\n  indent = 3\n" =
        .error ⟨.indentWidth 3, some (14, 6)⟩ ∧
      ∃ p : KeyPlace (rows "[generator]\n  indent = 3\n".toList) "indent".toList,
        14 + returnCount p.above = byteLength p.before := by
  have hspan : keySpan? "[generator]\n  indent = 3\n" "indent" = some (14, 6) := by decide +kernel
  obtain ⟨-, hkeys, hwidth⟩ := shown_at_key_iff widthThree? "[generator]\n  indent = 3\n"
  obtain ⟨-, p, -, hoffset, -⟩ := hkeys "indent" 14 6 hspan
  have hread := (hwidth 3 (some (14, 6))).2 ⟨⟨_, _, rfl, rfl, rfl, by decide⟩, hspan.symm⟩
  exact ⟨hspan, hread, p, hoffset⟩

/-- The key of a width is shown a byte too early behind a line that ends in a carriage return and a
newline. -/
theorem not_shown_at_key :
    keySpan? "[generator]\r\nindent = 3\r\n" "indent" = some (12, 6) ∧
      Settings.readWith widthThree? "[generator]\r\nindent = 3\r\n" =
        .error ⟨.indentWidth 3, some (12, 6)⟩ ∧
      ((Utf8.encode "[generator]\r\nindent = 3\r\n").drop 12).take 6 ≠ Utf8.encode "indent" := by
  have hspan : keySpan? "[generator]\r\nindent = 3\r\n" "indent" = some (12, 6) := by decide +kernel
  refine ⟨hspan, Settings.readWith_eq_indentWidth_iff.2 ⟨⟨_, _, rfl, rfl, rfl, ?_⟩, hspan.symm⟩, ?_⟩
  · decide
  · decide +kernel

end SettingsError

end PhpGraft

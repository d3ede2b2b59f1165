import PhpGraft.Proofs.Text.Lines
import PhpGraft.Proofs.Text.Search
import PhpGraft.Syntax.Body

/-!
# The normal form of bodies

A body is normal if it is what its own lines are read as. Written in braces, behind a margin for
each line that is not raw, a normal body is read back: the margins do not change which lines are the
text of a heredoc, and they are all of the indentation that is added.
-/

namespace PhpGraft.Body

open Text

variable {m l label : List Char}

/-! ## Lines behind margins -/

/-- What is ahead of the first angle bracket does not matter to what follows the last three. -/
theorem afterLast?_append (hm : '<' ∉ m) (cs : List Char) :
    afterLast? ['<', '<', '<'] (m ++ cs) = afterLast? ['<', '<', '<'] cs := by
  induction m with
  | nil => rfl
  | cons c m ih =>
    obtain ⟨hc, hm⟩ := not_or.1 (mt List.mem_cons.2 hm)
    have hstart : stripPrefix? ['<', '<', '<'] (c :: (m ++ cs)) = none :=
      if_neg (by simp [hc])
    rw [List.cons_append, afterLast?, ih hm, hstart]
    cases afterLast? ['<', '<', '<'] cs <;> rfl

/-- A margin does not change which heredoc a line opens. -/
theorem heredocLabel?_margin (hm : IsMargin m) (l : List Char) :
    heredocLabel? (m ++ l) = heredocLabel? l := by
  have hbracket : '<' ∉ m := fun h => absurd (hm _ h) (by decide)
  rw [heredocLabel?, afterLast?_append hbracket]
  rfl

/-- A margin does not change which heredoc a line closes. -/
theorem closesHeredoc_margin (hm : IsMargin m) (label l : List Char) :
    closesHeredoc label (m ++ l) = closesHeredoc label l := by
  have hstart : trimStart (m ++ l) = trimStart l := List.dropWhile_append_of_pos (by simpa using hm.blank)
  rw [closesHeredoc, hstart]
  rfl

/-- The label of a heredoc is an identifier. -/
theorem isAsciiIdent_label (h : heredocLabel? l = some label) : isAsciiIdent label = true := by
  obtain ⟨rest, -, hlabel⟩ := Option.bind_eq_some_iff.1 h
  dsimp only at hlabel
  split at hlabel
  · next hident => exact Option.some.inj hlabel ▸ hident
  · exact absurd hlabel nofun

/-- A line that opens and closes the same heredocs as another one. -/
structure Twin (k l : List Char) : Prop where
  opens : heredocLabel? l = heredocLabel? k
  closes : ∀ label, isAsciiIdent label = true → closesHeredoc label l = closesHeredoc label k

/-- Each line is its own twin. -/
theorem Twin.refl (l : List Char) : Twin l l := ⟨rfl, fun _ _ => rfl⟩

/-- Behind a margin a line opens and closes the same heredocs. -/
theorem twin_margin (hm : IsMargin m) (l : List Char) : Twin l (m ++ l) :=
  ⟨heredocLabel?_margin hm l, fun label _ => closesHeredoc_margin hm label l⟩

/-- A margin alone opens no heredoc and closes none. -/
theorem twin_nil (hm : IsMargin m) : Twin [] m := by
  have := twin_margin hm []
  rwa [List.append_nil] at this

/-- An empty line closes no heredoc. -/
theorem closesHeredoc_nil (hlabel : isAsciiIdent label = true) : closesHeredoc label [] = false := by
  cases label with
  | nil => exact absurd hlabel nofun
  | cons c label => rfl

/-- A line, and the line with or without a margin. -/
def Shifted (m : List Char) (p : List Char × List Char) : Prop := p.2 = p.1 ∨ p.2 = m ++ p.1

/-- A margin makes a twin. -/
theorem Shifted.twin (hm : IsMargin m) {p : List Char × List Char} (h : Shifted m p) :
    Twin p.1 p.2 := by
  rcases h with h | h <;> rw [h]
  · exact .refl p.1
  · exact twin_margin hm p.1

/-- Lines that open no heredoc and close none are not raw. -/
theorem rawFlags_idle {tails : List (List Char)} (ht : ∀ t ∈ tails, Twin [] t) :
    rawFlags tails = tails.map fun _ => false := by
  induction tails with
  | nil => rw [rawFlags, List.map_nil]
  | cons t tails ih =>
    rw [rawFlags, (ht t (List.mem_cons_self ..)).opens, List.map_cons,
      ← ih fun t h => ht t (List.mem_cons_of_mem _ h)]
    rfl

/-- The line that closes a heredoc is the same one. -/
theorem findIdx?_twins (hlabel : isAsciiIdent label = true) {tails : List (List Char)}
    (ht : ∀ t ∈ tails, Twin [] t) {ps : List (List Char × List Char)}
    (hps : ∀ p ∈ ps, Twin p.1 p.2) :
    (ps.map Prod.snd ++ tails).findIdx? (closesHeredoc label) =
      (ps.map Prod.fst).findIdx? (closesHeredoc label) := by
  induction ps with
  | nil =>
    rw [List.map_nil, List.map_nil, List.nil_append, List.findIdx?_nil, List.findIdx?_eq_none_iff]
    intro t h
    rw [(ht t h).closes label hlabel, closesHeredoc_nil hlabel]
  | cons p ps ih =>
    rw [List.map_cons, List.map_cons, List.cons_append, List.findIdx?_cons, List.findIdx?_cons,
      (hps p (List.mem_cons_self ..)).closes label hlabel,
      ih fun p h => hps p (List.mem_cons_of_mem _ h)]

/-- Neither twins in the place of lines nor idle lines at the end change which lines are raw. -/
theorem rawFlags_twins {tails : List (List Char)} (ht : ∀ t ∈ tails, Twin [] t)
    {ps : List (List Char × List Char)} (hps : ∀ p ∈ ps, Twin p.1 p.2) :
    rawFlags (ps.map Prod.snd ++ tails) =
      rawFlags (ps.map Prod.fst) ++ tails.map fun _ => false := by
  match ps with
  | [] =>
    rw [List.map_nil, List.map_nil, List.nil_append, rawFlags_idle ht, rawFlags, List.nil_append]
  | p :: ps =>
    have hrest : ∀ p ∈ ps, Twin p.1 p.2 := fun p h => hps p (List.mem_cons_of_mem _ h)
    have hlabel : heredocLabel? p.2 = heredocLabel? p.1 := (hps p (List.mem_cons_self ..)).opens
    have hclose : ((heredocLabel? p.1).bind fun label =>
          (ps.map Prod.snd ++ tails).findIdx? (closesHeredoc label)) =
        (heredocLabel? p.1).bind fun label => (ps.map Prod.fst).findIdx? (closesHeredoc label) := by
      cases h : heredocLabel? p.1 with
      | none => rfl
      | some label => exact findIdx?_twins (isAsciiIdent_label h) ht hrest
    rw [List.map_cons, List.map_cons, List.cons_append, rawFlags, rawFlags, hlabel, hclose]
    cases h : (heredocLabel? p.1).bind fun label => (ps.map Prod.fst).findIdx? (closesHeredoc label) with
    | none =>
      dsimp only
      rw [rawFlags_twins ht hrest]
      rfl
    | some i =>
      have hi : i < ps.length := by
        obtain ⟨label, -, hfound⟩ := Option.bind_eq_some_iff.1 h
        have := (List.findIdx?_eq_some_iff_getElem.1 hfound).1
        rwa [List.length_map] at this
      have hdrop : (ps.map Prod.snd ++ tails).drop (i + 1) = (ps.drop (i + 1)).map Prod.snd ++ tails := by
        rw [List.drop_append_of_le_length (by rw [List.length_map]; omega), List.map_drop]
      dsimp only
      rw [hdrop, rawFlags_twins ht fun p h => hrest p (List.mem_of_mem_drop h), List.map_drop,
        List.cons_append, List.append_assoc]
termination_by ps.length

/-! ## Normal bodies -/

/-- There is a flag for each line. -/
theorem length_rawFlags (ls : List (List Char)) : (rawFlags ls).length = ls.length := by
  match ls with
  | [] => rw [rawFlags, List.length_nil, List.length_nil]
  | l :: ls =>
    rw [rawFlags]
    split
    · next i h =>
      have hi : i < ls.length := by
        obtain ⟨label, -, hfound⟩ := Option.bind_eq_some_iff.1 h
        exact (List.findIdx?_eq_some_iff_getElem.1 hfound).1
      rw [List.length_cons, List.length_append, List.length_replicate, length_rawFlags (ls.drop (i + 1)),
        List.length_drop, List.length_cons]
      omega
    · rw [List.length_cons, length_rawFlags ls, List.length_cons]
termination_by ls.length

/-- A line of the source as a line of a body; `width` is the indentation to take off. -/
def cutLine (width : Nat) (l : List Char × Bool) : BodyLine :=
  if l.2 then ⟨String.ofList l.1, true⟩ else ⟨String.ofList ((trimEnd l.1).drop width), false⟩

/-- A line keeps its flag. -/
theorem raw_cutLine (width : Nat) (l : List Char × Bool) : (cutLine width l).raw = l.2 := by
  obtain ⟨k, _ | _⟩ := l <;> rfl

/-- A line has no characters but those of the source. -/
theorem cutLine_subset (width : Nat) (l : List Char × Bool) :
    (cutLine width l).text.toList ⊆ l.1 := by
  intro c hc
  obtain ⟨k, _ | _⟩ := l
  · have hc : c ∈ (trimEnd k).drop width := by simpa [cutLine] using hc
    exact (dropTailWhile_sublist _ k).mem (List.mem_of_mem_drop hc)
  · simpa [cutLine] using hc

/-- The lines of a body ahead of the dropping of those at its ends. -/
def cutLines (source : List (List Char)) : List BodyLine :=
  let flagged := source.zip (rawFlags source)
  flagged.map (cutLine (commonIndentation flagged))

/-- The lines of a body, without those that are dropped at its ends. -/
theorem ofSource_eq (fragment : List Char) :
    ofSource fragment = ⟨(dropTailWhile BodyLine.isDroppable (cutLines (Text.lines fragment))).dropWhile
      BodyLine.isDroppable⟩ := rfl

/-- The widths that count for the indentation that lines have in common. -/
def widths (lines : List (List Char × Bool)) : List Nat :=
  (lines.filter fun l => !l.2 && !l.1.all isBlank).map fun l => indentation l.1

/-- A line counts if it is neither raw nor blank. -/
theorem widths_cons (l : List Char × Bool) (ls : List (List Char × Bool)) :
    widths (l :: ls) =
      if !l.2 && !l.1.all isBlank then indentation l.1 :: widths ls else widths ls := by
  rw [widths, List.filter_cons]
  split <;> rfl

/-- More lines have the widths of the others, too. -/
theorem widths_append (ls ms : List (List Char × Bool)) :
    widths (ls ++ ms) = widths ls ++ widths ms := by
  rw [widths, List.filter_append, List.map_append]
  rfl

/-- Lines of white space have no widths that count. -/
theorem widths_blank {ls : List (List Char × Bool)} (h : ∀ l ∈ ls, l.1.all isBlank = true) :
    widths ls = [] := by
  rw [widths, List.map_eq_nil_iff, List.filter_eq_nil_iff]
  intro l hl
  rw [h l hl]
  simp

/-- The lines of a body, from the lines of the source and their flags. -/
theorem cutLines_of_flags {source : List (List Char)} {flags : List Bool} (h : rawFlags source = flags) :
    cutLines source = (source.zip flags).map (cutLine (commonIndentation (source.zip flags))) := by
  rw [cutLines, h]

/-- Of white space nothing is left. -/
theorem cutLine_blank (width : Nat) {t : List Char} (ht : t.all isBlank = true) :
    cutLine width (t, false) = ⟨"", false⟩ := by
  have hnil : trimEnd t = [] := dropTailWhile_eq_nil ht
  simp [cutLine, hnil]

/-- An empty line ahead of the others, and white space behind them, become empty lines. -/
theorem cutLines_blank_ends {tails : List (List Char)} (ht : ∀ t ∈ tails, IsMargin t)
    (ls : List (List Char)) :
    cutLines ([] :: (ls ++ tails)) =
      [⟨"", false⟩] ++ (cutLines ls ++ tails.map fun _ => ⟨"", false⟩) := by
  have hflags : rawFlags ([] :: (ls ++ tails)) =
      false :: (rawFlags ls ++ tails.map fun _ => false) := by
    have hpairs : ∀ p ∈ ls.map fun l => (l, l), Twin p.1 p.2 := by
      intro p hp
      obtain ⟨l, -, rfl⟩ := List.mem_map.1 hp
      exact .refl l
    have htwins := rawFlags_twins (fun t h => twin_nil (ht t h)) hpairs
    rw [List.map_map, List.map_map] at htwins
    have hfirst : rawFlags ([] :: (ls ++ tails)) = false :: rawFlags (ls ++ tails) := by
      rw [rawFlags]
      rfl
    rw [hfirst]
    exact congrArg _ (by simpa [Function.comp_def] using htwins)
  have hzip : ([] :: (ls ++ tails)).zip (false :: (rawFlags ls ++ tails.map fun _ => false)) =
      ([], false) :: (ls.zip (rawFlags ls) ++ tails.map fun t => (t, false)) := by
    rw [List.zip_cons_cons, List.zip_append (length_rawFlags ls).symm]
    have hpairs := @List.zip_map' _ _ _ id (fun _ => false) tails
    rw [List.map_id] at hpairs
    exact congrArg (_ :: _ ++ ·) hpairs
  have hwidth : commonIndentation (([], false) :: (ls.zip (rawFlags ls) ++ tails.map fun t => (t, false))) =
      commonIndentation (ls.zip (rawFlags ls)) := by
    have hnone : widths (tails.map fun t => (t, false)) = [] := widths_blank fun l hl => by
      obtain ⟨t, hmem, rfl⟩ := List.mem_map.1 hl
      exact (ht t hmem).blank
    change (widths _).min?.getD 0 = (widths _).min?.getD 0
    rw [widths_cons, widths_append, hnone]
    simp
  rw [cutLines_of_flags hflags, hzip, hwidth, List.map_cons, List.map_append, List.map_map,
    cutLine_blank _ (by rfl), List.singleton_append, cutLines]
  refine congrArg (_ :: _ ++ ·) (List.map_congr_left fun t h => ?_)
  exact cutLine_blank _ (ht t h).blank

/-- A body that is what its own lines are read as. -/
structure IsNormal (b : Body) : Prop where
  /-- The raw lines are those that are the text of a heredoc. -/
  flags : rawFlags (b.lines.map fun l => l.text.toList) = b.lines.map BodyLine.raw
  /-- The indentation that the lines have in common was taken off. -/
  cut : ∀ l ∈ b.lines, l.raw = false →
    (trimEnd l.text.toList).drop (commonIndentation (b.lines.map fun l => (l.text.toList, l.raw))) =
      l.text.toList
  /-- Nothing is to be dropped at the ends. -/
  ends : (dropTailWhile BodyLine.isDroppable b.lines).dropWhile BodyLine.isDroppable = b.lines
  /-- The lines have no newlines, and no carriage returns at their ends. -/
  plain : ∀ l ∈ b.lines, '\n' ∉ l.text.toList ∧ l.text.toList.getLast? ≠ some '\r'

/-! ## Written bodies -/

/-- A line of a body as it is written behind a margin. -/
def written (m : List Char) (l : BodyLine) : List Char :=
  if l.raw then l.text.toList else indented m l.text.toList

/-- A line is written with the margin or without. -/
theorem shifted_written (m : List Char) (l : BodyLine) : Shifted m (l.text.toList, written m l) := by
  unfold written indented
  split
  · exact .inl rfl
  · split
    · next hnil => exact .inl hnil.symm
    · exact .inr rfl

/-- Behind no margin a line is written as it is. -/
theorem written_nil (l : BodyLine) : written [] l = l.text.toList := by
  rcases shifted_written [] l with h | h <;> exact h

/-- The lines of written lines and a margin behind them. -/
theorem lines_written {ls : List BodyLine} (hm : IsMargin m)
    (hls : ∀ l ∈ ls, '\n' ∉ l.text.toList ∧ l.text.toList.getLast? ≠ some '\r') (f : List Char) :
    Text.lines (ls.flatMap (fun l => written m l ++ ['\n']) ++ f) =
      ls.map (written m) ++ Text.lines f := by
  induction ls with
  | nil => rfl
  | cons l ls ih =>
    obtain ⟨hn, hr⟩ := hls l (List.mem_cons_self ..)
    have hline : '\n' ∉ written m l ∧ (written m l).getLast? ≠ some '\r' := by
      rcases shifted_written m l with h | h <;> dsimp only at h <;> rw [h]
      · exact ⟨hn, hr⟩
      · refine ⟨by simp [hn, hm.noNewline], ?_⟩
        rw [List.getLast?_append]
        cases hlast : l.text.toList.getLast? with
        | none =>
          rw [Option.none_or]
          exact fun h => absurd (hm _ (List.mem_of_getLast? h)) (by decide)
        | some c =>
          rw [Option.some_or, ← hlast]
          exact hr
    rw [List.flatMap_cons, List.append_assoc, List.append_assoc, List.singleton_append,
      lines_append hline.1 hline.2, ih fun l h => hls l (List.mem_cons_of_mem _ h)]
    rfl

/-- The smallest of some widths that are all larger by the same amount. -/
theorem min?_map_add (k : Nat) (xs : List Nat) : (xs.map (k + ·)).min? = xs.min?.map (k + ·) := by
  induction xs with
  | nil => rfl
  | cons x xs ih =>
    rw [List.map_cons, List.min?_cons, List.min?_cons, ih]
    cases xs.min? with
    | none => rfl
    | some y => simp [Nat.add_min_add_left]

/-- Written behind a margin, lines have widths that are larger by that of the margin. -/
theorem widths_written (hm : IsMargin m) (ls : List BodyLine) :
    widths (ls.map fun l => (written m l, l.raw)) =
      (widths (ls.map fun l => (l.text.toList, l.raw))).map (m.length + ·) := by
  induction ls with
  | nil => rfl
  | cons l ls ih =>
    rw [List.map_cons, List.map_cons, widths_cons, widths_cons, ih]
    cases hraw : l.raw with
    | true => rfl
    | false =>
      by_cases hnil : l.text.toList = []
      · simp [written, hraw, indented, hnil]
      · have hline : written m l = m ++ l.text.toList := by
          simp [written, hraw, indented, hnil]
        have hindent : indentation (m ++ l.text.toList) = m.length + indentation l.text.toList := by
          rw [indentation, List.takeWhile_append_of_pos (by simpa using hm.blank), List.length_append]
          rfl
        rw [hline, List.all_append, hm.blank, Bool.true_and, hindent]
        split <;> rfl

namespace IsNormal

variable {b : Body}

/-- A line that is neither raw nor empty has more than white space. -/
theorem all_isBlank_eq_false (h : IsNormal b) {l : BodyLine} (hl : l ∈ b.lines)
    (hraw : l.raw = false) (hne : l.text.toList ≠ []) : l.text.toList.all isBlank = false := by
  refine Bool.eq_false_iff.2 fun hblank => hne ?_
  have hnil : trimEnd l.text.toList = [] := dropTailWhile_eq_nil hblank
  rw [← h.cut l hl hraw, hnil, List.drop_nil]

/-- A line that is written behind a margin is cut to what it was. -/
theorem cutLine_written (h : IsNormal b) (hm : IsMargin m) {l : BodyLine} (hl : l ∈ b.lines) :
    cutLine (commonIndentation (b.lines.map fun l => (written m l, l.raw))) (written m l, l.raw) =
      l := by
  obtain ⟨text, _ | _⟩ := l
  · by_cases hnil : text.toList = []
    · obtain rfl := String.toList_eq_nil_iff.1 hnil
      simp [cutLine, written, indented, trimEnd, dropTailWhile]
    · have hblank : text.toList.all isBlank = false := h.all_isBlank_eq_false hl rfl hnil
      have hline : written m ⟨text, false⟩ = m ++ text.toList := by
        simp [written, indented, hnil]
      -- the line counts, so the margin is part of the common indentation
      have hwidth : commonIndentation (b.lines.map fun l => (written m l, l.raw)) =
          m.length + commonIndentation (b.lines.map fun l => (l.text.toList, l.raw)) := by
        have hmem : indentation text.toList ∈ widths (b.lines.map fun l => (l.text.toList, l.raw)) := by
          refine List.mem_map.2 ⟨(text.toList, false), List.mem_filter.2 ⟨?_, by simp [hblank]⟩, rfl⟩
          exact List.mem_map_of_mem (f := fun l : BodyLine => (l.text.toList, l.raw)) hl
        obtain ⟨w, hw⟩ := Option.isSome_iff_exists.1 (List.isSome_min?_of_mem hmem)
        change (widths _).min?.getD 0 = m.length + (widths _).min?.getD 0
        rw [widths_written hm, min?_map_add, hw]
        rfl
      have hcut := h.cut _ hl rfl
      rw [hline, hwidth]
      simp only [cutLine, Bool.false_eq_true, if_false]
      rw [trimEnd, dropTailWhile_append_left hblank, List.drop_length_add_append]
      exact congrArg (BodyLine.mk · false) (by rw [← trimEnd, hcut, String.ofList_toList])
  · simp [cutLine, written]

/-- Lines that are written behind margins are cut to what they were. -/
theorem cutLines_written (h : IsNormal b) (hm : IsMargin m) :
    cutLines (b.lines.map (written m)) = b.lines := by
  have htwins : ∀ p ∈ b.lines.map fun l => (l.text.toList, written m l), Twin p.1 p.2 := by
    intro p hp
    obtain ⟨l, -, rfl⟩ := List.mem_map.1 hp
    exact (shifted_written m l).twin hm
  have hflags : rawFlags (b.lines.map (written m)) = b.lines.map BodyLine.raw := by
    have := @rawFlags_twins [] nofun _ htwins
    rw [List.map_map, List.map_map] at this
    rw [← h.flags]
    simpa [Function.comp_def] using this
  rw [cutLines_of_flags hflags, List.zip_map', List.map_map]
  have hkept := List.map_congr_left fun l hl => h.cutLine_written hm hl
  rwa [List.map_id'] at hkept

/-- A normal body is read back from its lines between braces, written behind a margin. -/
theorem ofSource_written (h : IsNormal b) (hm : IsMargin m) {e : List Char} (he : IsMargin e) :
    ofSource ('\n' :: (b.lines.flatMap (fun l => written m l ++ ['\n']) ++ e)) = b := by
  have htail : ∀ t ∈ Text.lines e, IsMargin t := by
    by_cases hnil : e = []
    · rw [hnil]
      exact nofun
    · rw [lines_of_not_mem he.noNewline hnil]
      intro t ht
      rwa [List.mem_singleton.1 ht]
  have hlines : Text.lines ('\n' :: (b.lines.flatMap (fun l => written m l ++ ['\n']) ++ e)) =
      [] :: (b.lines.map (written m) ++ Text.lines e) := by
    rw [← lines_written hm h.plain]
    exact lines_append (l := []) (by simp) (by simp) _
  rw [ofSource_eq, hlines, cutLines_blank_ends htail, h.cutLines_written hm]
  exact congrArg Body.mk ((dropWhile_dropTailWhile_append rfl (by simp [BodyLine.isDroppable]) _).trans
    h.ends)

end IsNormal

end PhpGraft.Body

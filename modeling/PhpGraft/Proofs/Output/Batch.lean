import Mathlib.Data.List.Forall2
import PhpGraft.Proofs.Output.Generation

/-!
# A run without a memory

A run remembers the directory that it looked up last. Here it is compared with a run that looks up the
directory of every declaration (`generateAfresh`). The two agree step by step as long as the remembered
directory is the one of its namespace (`step_eq`), and a step that succeeds keeps it so. So they agree as a
whole: in the files, and in the error of the first declaration that fails (`generate_eq_generateAfresh`).
-/

namespace PhpGraft

/-! ## Lists of results -/

section Results

variable {α β ε : Type} {f : α → Except ε β} {l : List α}

/-- A member behind others is left out when one that was kept stands for it. -/
theorem eraseDupsBy_concat (r : α → α → Bool) (l : List α) (x : α) :
    (l ++ [x]).eraseDupsBy r =
      if (l.eraseDupsBy r).any (r x) then l.eraseDupsBy r else l.eraseDupsBy r ++ [x] := by
  -- the loop goes on behind `l` with what it kept of `l`
  suffices hloop : ∀ kept : List α, List.eraseDupsBy.loop r (l ++ [x]) kept =
      if (List.eraseDupsBy.loop r l kept).any (r x) then List.eraseDupsBy.loop r l kept
      else List.eraseDupsBy.loop r l kept ++ [x] from hloop []
  induction l with
  | nil =>
    intro kept
    simp only [List.nil_append, List.eraseDupsBy.loop, List.any_reverse]
    cases kept.any (r x) with
    | true => rfl
    | false => exact List.reverse_cons
  | cons a l ih =>
    intro kept
    simp only [List.cons_append, List.eraseDupsBy.loop]
    by_cases ha : kept.any (r a) = true
    · simp only [ha]
      exact ih kept
    · rw [Bool.not_eq_true] at ha
      simp only [ha]
      exact ih (a :: kept)

/-- Behind a result that is there, the other results are what they are. -/
theorem mapM_cons_of_ok {a : α} {b : β} (ha : f a = .ok b) :
    (a :: l).mapM f = (l.mapM f).map (b :: ·) := by
  rw [List.mapM_cons, ha]
  show (l.mapM f >>= fun rest => pure (b :: rest)) = _
  cases l.mapM f <;> rfl

/-- Nothing behind a failure counts. -/
theorem mapM_cons_of_error {a : α} {e : ε} (ha : f a = .error e) : (a :: l).mapM f = .error e := by
  rw [List.mapM_cons, ha]
  rfl

/-- All results are there exactly when each one is. -/
theorem mapM_eq_ok_iff {bs : List β} : l.mapM f = .ok bs ↔ List.Forall₂ (fun a b => f a = .ok b) l bs := by
  induction l generalizing bs with
  | nil =>
    rw [List.forall₂_nil_left_iff]
    exact ⟨fun h => (Except.ok.inj h).symm, fun h => by rw [h]; rfl⟩
  | cons a l ih =>
    constructor
    · intro h
      cases ha : f a with
      | error e => rw [mapM_cons_of_error ha] at h; cases h
      | ok b =>
        rw [mapM_cons_of_ok ha] at h
        cases hl : l.mapM f with
        | error e => rw [hl] at h; cases h
        | ok rest =>
          rw [hl] at h
          obtain rfl : b :: rest = bs := Except.ok.inj h
          exact .cons ha (ih.1 hl)
    · rintro (_ | ⟨ha, hrest⟩)
      rw [mapM_cons_of_ok ha, ih.2 hrest]
      rfl

/-- The results fail with the error of the first one that fails. -/
theorem mapM_eq_error_iff {e : ε} : l.mapM f = .error e ↔
    ∃ before x after, l = before ++ x :: after ∧ (∀ y ∈ before, ∃ b, f y = .ok b) ∧ f x = .error e := by
  induction l with
  | nil => simp [pure, Except.pure]
  | cons a l ih =>
    simp only [List.cons_eq_append_iff]
    cases ha : f a with
    | error e' =>
      rw [mapM_cons_of_error ha]
      constructor
      · intro h
        exact ⟨[], a, l, .inl ⟨rfl, rfl⟩, List.forall_mem_nil _, ha.trans (congrArg _ (Except.error.inj h))⟩
      · rintro ⟨before, x, after, ⟨rfl, hsplit⟩ | ⟨before, rfl, rfl⟩, hbefore, hx⟩
        · rw [(List.cons.inj hsplit).1, ha] at hx
          exact congrArg _ (Except.error.inj hx)
        · obtain ⟨b, hb⟩ := hbefore a List.mem_cons_self
          rw [ha] at hb
          cases hb
    | ok b =>
      have hrest : (l.mapM f).map (b :: ·) = .error e ↔ l.mapM f = .error e := by
        cases l.mapM f <;> simp [Except.map]
      rw [mapM_cons_of_ok ha, hrest, ih]
      constructor
      · rintro ⟨before, x, after, rfl, hbefore, hx⟩
        exact ⟨a :: before, x, after, .inr ⟨before, rfl, rfl⟩, List.forall_mem_cons.2 ⟨⟨b, ha⟩, hbefore⟩, hx⟩
      · rintro ⟨before, x, after, ⟨rfl, hsplit⟩ | ⟨before, rfl, rfl⟩, hbefore, hx⟩
        · rw [(List.cons.inj hsplit).1, ha] at hx
          cases hx
        · exact ⟨before, x, after, rfl, (List.forall_mem_cons.1 hbefore).2, hx⟩

end Results

/-! ## The last text of each path -/

namespace GeneratedFiles

open FilePath

/-- Of some texts those that came last at their paths, in the order in which the paths came first and with
the spelling that they had then. -/
def latest (l : List GeneratedFile) : GeneratedFiles :=
  ((l.map GeneratedFile.path).eraseDupsBy same).filterMap fun path =>
    (l.findRev? fun f => same f.path path).map fun f => ⟨path, f.text⟩

/-- A text at a path of no file is put behind the others, and the paths of files stay. -/
theorem map_path_put (files : GeneratedFiles) (path text : String) :
    (files.put path text).map GeneratedFile.path =
      if (files.map GeneratedFile.path).any (same path) then files.map GeneratedFile.path
      else files.map GeneratedFile.path ++ [path] := by
  have hany : (files.map GeneratedFile.path).any (same path) = !(files.get? path).isNone := by
    rw [get?, Option.isNone_map, Option.not_isNone, List.isSome_find?, List.any_map]
    exact congrArg _ (funext fun f => same_comm path f.path)
  rw [hany, put]
  cases (files.get? path).isNone with
  | true => simp
  | false =>
    simp only [Bool.false_eq_true, if_false, Bool.not_false, if_true, List.map_map]
    refine List.map_congr_left fun f _ => ?_
    show GeneratedFile.path (if same f.path path = true then { f with text } else f) = f.path
    split <;> rfl

/-- The files of some texts have the paths in the order in which they came first. -/
theorem map_path_collect (l : List GeneratedFile) :
    (collect l).map GeneratedFile.path = (l.map GeneratedFile.path).eraseDupsBy same := by
  induction l using List.reverseRec with
  | nil => rfl
  | append_singleton l f ih =>
    rw [collect_concat, map_path_put, ih, List.map_append, List.map_singleton, eraseDupsBy_concat]

/-- The files of some texts lie at different places. -/
theorem apart_collect (l : List GeneratedFile) : Apart (collect l) := by
  induction l using List.reverseRec with
  | nil => exact .nil
  | append_singleton l f ih =>
    have hpaths {files : GeneratedFiles} :
        Apart files ↔ (files.map GeneratedFile.path).Pairwise fun p q => same p q = false := by
      rw [List.pairwise_map]
      rfl
    rw [collect_concat, hpaths, map_path_put]
    split
    · exact hpaths.1 ih
    · next hnew =>
      rw [List.pairwise_append]
      refine ⟨hpaths.1 ih, List.pairwise_singleton _ _, fun p hp q hq => ?_⟩
      rw [List.mem_singleton.1 hq, same_comm]
      exact Bool.eq_false_iff.2 fun h => hnew (List.any_eq_true.2 ⟨p, hp, h⟩)

/-- Files at different places can be looked up path by path. -/
theorem filterMap_get? {files : GeneratedFiles} (h : Apart files) :
    ((files.map GeneratedFile.path).filterMap fun path => (files.get? path).map (GeneratedFile.mk path)) =
      files := by
  induction files with
  | nil => rfl
  | cons f files ih =>
    obtain ⟨hf, hfiles⟩ := List.pairwise_cons.1 h
    have hrest : ((files.map GeneratedFile.path).filterMap fun path =>
        (get? (f :: files) path).map (GeneratedFile.mk path)) = files := by
      refine Eq.trans (List.filterMap_congr fun path hpath => ?_) (ih hfiles)
      obtain ⟨f', hf', rfl⟩ := List.mem_map.1 hpath
      rw [get?_cons, hf f' hf', if_neg Bool.false_ne_true]
    rw [List.map_cons, List.filterMap_cons, get?_cons, if_pos (same_self _), hrest]
    rfl

/-- The files of some texts hold those that came last at their paths. -/
theorem collect_eq_latest (l : List GeneratedFile) : collect l = latest l := by
  rw [← filterMap_get? (apart_collect l), map_path_collect, latest]
  refine List.filterMap_congr fun path _ => ?_
  rw [get?_collect, List.findRev?_eq_find?_reverse, Option.map_map]
  rfl

end GeneratedFiles

/-! ## A run that looks up every directory -/

namespace Generator

variable {g : Generator} {provider : Provider} {d : Declaration} {e : Error}

/-- The file of a declaration whose directory is looked up for it. -/
def fileAfresh (g : Generator) (provider : Provider) (d : Declaration) : Except Error GeneratedFile := do
  let dir ← g.resolver.directory d.scope?
  let path := g.resolver.file dir d.identity.stem
  let t ← provider path d
  return ⟨path, ← g.realize d t⟩

/-- The file of a declaration in a run, where an error names the declaration. -/
def reported (g : Generator) (provider : Provider) (d : Declaration) : Except Error GeneratedFile :=
  (g.fileAfresh provider d).mapError (.realization d.identity.text)

/-- The files of all declarations, where every directory is looked up. -/
def generateAfresh (g : Generator) (provider : Provider) (c : Collection) : Except Error GeneratedFiles :=
  (c.items.mapM (g.reported provider)).map GeneratedFiles.latest

/-- How the file of a declaration fails. -/
inductive FailsWith (g : Generator) (provider : Provider) (d : Declaration) (e : Error) : Prop where
  /-- Its namespace has no directory. -/
  | unresolved (h : g.resolver.directory d.scope? = .error e)
  /-- What is at its path cannot be had. -/
  | unprovided (dir : String) (h : g.resolver.directory d.scope? = .ok dir)
    (h' : provider (g.resolver.file dir d.identity.stem) d = .error e)
  /-- It cannot be added to what is at its path. -/
  | unrealized (dir : String) (t : Tree) (h : g.resolver.directory d.scope? = .ok dir)
    (h' : provider (g.resolver.file dir d.identity.stem) d = .ok t) (h'' : g.realize d t = .error e)

/-- A declaration has no file exactly when one of its three stages fails. -/
theorem fileAfresh_eq_error_iff : g.fileAfresh provider d = .error e ↔ g.FailsWith provider d e := by
  unfold fileAfresh
  constructor
  · intro h
    cases hdir : g.resolver.directory d.scope? with
    | error e' =>
      rw [hdir] at h
      obtain rfl : e' = e := Except.error.inj h
      exact .unresolved hdir
    | ok dir =>
      cases ht : provider (g.resolver.file dir d.identity.stem) d with
      | error e' =>
        simp only [bind, Except.bind, hdir, ht] at h
        obtain rfl : e' = e := Except.error.inj h
        exact .unprovided dir hdir ht
      | ok t =>
        cases htext : g.realize d t with
        | error e' =>
          simp only [bind, Except.bind, hdir, ht, htext] at h
          obtain rfl : e' = e := Except.error.inj h
          exact .unrealized dir t hdir ht htext
        | ok text =>
          simp only [bind, Except.bind, hdir, ht, htext, pure, Except.pure, reduceCtorEq] at h
  · rintro (h | ⟨dir, h, h'⟩ | ⟨dir, t, h, h', h''⟩)
    · rw [h]
      rfl
    · simp only [bind, Except.bind, h, h']
    · simp only [bind, Except.bind, h, h', h'']

/-- Without a memory the file of a declaration is the one whose directory is looked up. -/
theorem map_fileOf (g : Generator) (provider : Provider) (d : Declaration) :
    (g.fileOf provider none d).map Prod.snd = g.fileAfresh provider d := by
  unfold fileOf fileAfresh
  show Except.map _ (g.resolver.directory d.scope? >>= _) = _
  cases g.resolver.directory d.scope? with
  | error e => rfl
  | ok dir =>
    simp only [bind, Except.bind]
    cases provider (g.resolver.file dir d.identity.stem) d with
    | error e => rfl
    | ok t =>
      show Except.map _ (Except.bind (g.realize d t) _) = Except.bind (g.realize d t) _
      cases g.realize d t <;> rfl

/-- One step of a run reports the file of its declaration, and puts it in. -/
theorem step_eq {state : GeneratedFiles × LastDirectory} (hknown : g.Known state.2) (d : Declaration) :
    (g.step provider state d).map Prod.fst =
      (g.reported provider d).map fun f => state.1.put f.path f.text := by
  rw [reported, ← map_fileOf, step, fileOf_of_known hknown]
  cases g.fileOf provider none d <;> rfl

/-- A run over some declarations reports their files one after another, and puts them in. -/
theorem foldlM_step_eq (ds : List Declaration) {state : GeneratedFiles × LastDirectory}
    (hknown : g.Known state.2) :
    (ds.foldlM (g.step provider) state).map Prod.fst =
      (ds.mapM (g.reported provider)).map fun fs => fs.foldl (fun files f => files.put f.path f.text) state.1 := by
  induction ds generalizing state with
  | nil => rfl
  | cons d ds ih =>
    rw [List.foldlM_cons]
    have hstep : (g.step provider state d).map Prod.fst =
        (g.reported provider d).map fun f => state.1.put f.path f.text := step_eq hknown d
    cases hf : g.reported provider d with
    | error e =>
      rw [hf] at hstep
      rw [mapM_cons_of_error hf]
      cases hnext : g.step provider state d with
      | error e' =>
        rw [hnext] at hstep
        obtain rfl : e' = e := Except.error.inj hstep
        rfl
      | ok next => rw [hnext] at hstep; cases hstep
    | ok f =>
      rw [hf] at hstep
      rw [mapM_cons_of_ok hf]
      cases hnext : g.step provider state d with
      | error e' => rw [hnext] at hstep; cases hstep
      | ok next =>
        rw [hnext] at hstep
        have hput : next.1 = state.1.put f.path f.text := Except.ok.inj hstep
        -- the step remembers the directory that it has looked up
        obtain ⟨-, -, -, hknown'⟩ := step_eq_ok hknown hnext
        calc (ds.foldlM (g.step provider) next).map Prod.fst
            = (ds.mapM (g.reported provider)).map fun fs =>
                fs.foldl (fun files f => files.put f.path f.text) next.1 := ih hknown'
          _ = _ := by
            rw [hput]
            cases ds.mapM (g.reported provider) <;> rfl

/-- A run gives what it gives without a memory. -/
theorem generate_eq (g : Generator) (provider : Provider) (c : Collection) :
    g.generate provider c = g.generateAfresh provider c := by
  have hnew : g.Known none := by rintro _ _ ⟨⟩
  calc g.generate provider c
      = (c.items.mapM (g.reported provider)).map GeneratedFiles.collect := foldlM_step_eq _ hnew
    _ = g.generateAfresh provider c := by
      rw [generateAfresh]
      exact congrArg (Except.map · _) (funext GeneratedFiles.collect_eq_latest)

/-- A file is reported when it is there. -/
theorem reported_eq_ok_iff {f : GeneratedFile} : g.reported provider d = .ok f ↔ g.fileAfresh provider d = .ok f := by
  unfold reported
  cases g.fileAfresh provider d <;> simp [Except.mapError]

/-- A failure is reported with the name of the declaration. -/
theorem reported_eq_error_iff : g.reported provider d = .error e ↔
    ∃ cause, g.FailsWith provider d cause ∧ e = .realization d.identity.text cause := by
  simp only [← fileAfresh_eq_error_iff, reported]
  cases g.fileAfresh provider d <;> simp [Except.mapError, eq_comm]

/-- Without a memory, a run fails with the error of the first declaration that fails. -/
theorem generateAfresh_eq_error_iff {c : Collection} : g.generateAfresh provider c = .error e ↔
    ∃ before d after cause, c.items = before ++ d :: after ∧
      (∀ d' ∈ before, ∃ f, g.fileAfresh provider d' = .ok f) ∧ g.FailsWith provider d cause ∧
      e = .realization d.identity.text cause := by
  have hmap : g.generateAfresh provider c = .error e ↔ c.items.mapM (g.reported provider) = .error e := by
    unfold generateAfresh
    cases c.items.mapM (g.reported provider) <;> simp [Except.map]
  simp only [hmap, mapM_eq_error_iff, reported_eq_ok_iff, reported_eq_error_iff]
  constructor
  · rintro ⟨before, d, after, hsplit, hbefore, cause, hfails, he⟩
    exact ⟨before, d, after, cause, hsplit, hbefore, hfails, he⟩
  · rintro ⟨before, d, after, cause, hsplit, hbefore, hfails, he⟩
    exact ⟨before, d, after, hsplit, hbefore, cause, hfails, he⟩

/-- Without a memory, a run has the last text of each path when every declaration has its file. -/
theorem generateAfresh_eq_ok_iff {c : Collection} {files : GeneratedFiles} :
    g.generateAfresh provider c = .ok files ↔
      ∃ fs, List.Forall₂ (fun d f => g.fileAfresh provider d = .ok f) c.items fs ∧
        files = GeneratedFiles.latest fs := by
  simp only [← reported_eq_ok_iff, ← mapM_eq_ok_iff]
  unfold generateAfresh
  cases c.items.mapM (g.reported provider) <;> simp [Except.map, eq_comm]

/-- A run is one that looks up the directory of every declaration. It fails exactly when a declaration has no
directory, nothing can be had at its path, or it cannot be added to what is there. The error is then that of the
first such declaration, which it names. Else there is, in the order in which the paths came first, the text of
the last declaration with each path. -/
theorem generate_eq_generateAfresh (g : Generator) (provider : Provider) (c : Collection) :
    g.generate provider c = g.generateAfresh provider c ∧
    ((∃ e, g.generate provider c = .error e) ↔ ∃ d ∈ c.items, ∃ cause, g.FailsWith provider d cause) ∧
    (∀ e, g.generate provider c = .error e ↔ ∃ before d after cause,
      c.items = before ++ d :: after ∧ (∀ d' ∈ before, ¬∃ e', g.FailsWith provider d' e') ∧
        g.FailsWith provider d cause ∧ e = .realization d.identity.text cause) ∧
    ∀ files, g.generate provider c = .ok files ↔
      ∃ fs, List.Forall₂ (fun d f => g.fileAfresh provider d = .ok f) c.items fs ∧
        files = GeneratedFiles.latest fs := by
  have hfile (d : Declaration) : (∃ f, g.fileAfresh provider d = .ok f) ↔ ¬∃ e', g.FailsWith provider d e' := by
    simp only [← fileAfresh_eq_error_iff]
    cases g.fileAfresh provider d <;> simp
  have herror (e : Error) : g.generate provider c = .error e ↔ ∃ before d after cause,
      c.items = before ++ d :: after ∧ (∀ d' ∈ before, ¬∃ e', g.FailsWith provider d' e') ∧
        g.FailsWith provider d cause ∧ e = .realization d.identity.text cause := by
    rw [generate_eq, generateAfresh_eq_error_iff]
    simp only [hfile]
  refine ⟨generate_eq g provider c, ?_, herror, fun files => ?_⟩
  · constructor
    · rintro ⟨e, he⟩
      obtain ⟨before, d, after, cause, hsplit, -, hfails, -⟩ := (herror e).1 he
      exact ⟨d, by simp [hsplit], cause, hfails⟩
    · rintro ⟨d, hd, cause, hfails⟩
      cases hrun : g.generate provider c with
      | error e => exact ⟨e, rfl⟩
      | ok files =>
        rw [generate_eq, generateAfresh_eq_ok_iff] at hrun
        obtain ⟨fs, hall, -⟩ := hrun
        have hfiles : ∀ d ∈ c.items, ∃ f, g.fileAfresh provider d = .ok f :=
          ((List.forall₂_and_left _ _).1 (hall.imp fun d f h => ⟨⟨f, h⟩, h⟩)).1
        exact absurd ⟨cause, hfails⟩ ((hfile d).1 (hfiles d hd))
  · rw [generate_eq, generateAfresh_eq_ok_iff]

end Generator

end PhpGraft

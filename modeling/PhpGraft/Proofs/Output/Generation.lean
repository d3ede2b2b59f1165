import Mathlib.Data.List.Induction
import PhpGraft.Output.Generator

/-!
# The files of a run

A run that succeeds puts the file of every declaration into the files of the run, one after another.
The directory that it remembers is the one that it would look up again (`fileOf_of_known`), so the
file of a declaration is what it is without the others (`exists_produced_of_generate`). Files at one
path are one file with the text that came last (`GeneratedFiles.get?_collect`). So every declaration
has its file, and its text there, exactly when no two of them go to the same path
(`generate_keeps_all_iff`).
-/

namespace PhpGraft

/-! ## Files by path -/

namespace FilePath

/-- A path leads where it leads. -/
theorem same_self (p : String) : same p p = true := beq_self_eq_true _

/-- Two paths lead to the same place in either order. -/
theorem same_comm (p q : String) : same p q = same q p := Bool.beq_comm

/-- What leads to one of two paths that lead to the same place leads to the other one. -/
theorem same_congr_right {p q : String} (h : same p q = true) {r : String} : same r p = same r q := by
  unfold same at *
  rw [eq_of_beq h]

end FilePath

namespace GeneratedFiles

open FilePath

variable {files : GeneratedFiles} {path text : String}

/-- The files of some texts, put in one after another. -/
def collect (l : List GeneratedFile) : GeneratedFiles := l.foldl (fun fs f => fs.put f.path f.text) []

/-- One more text is put in behind the others. -/
theorem collect_concat (l : List GeneratedFile) (f : GeneratedFile) :
    collect (l ++ [f]) = (collect l).put f.path f.text := by
  rw [collect, List.foldl_append]
  rfl

/-- The file at a path is the first one whose path leads there. -/
theorem get?_cons (f : GeneratedFile) (files : GeneratedFiles) (q : String) :
    get? (f :: files) q = if same f.path q then some f.text else files.get? q := by
  unfold get?
  rw [List.find?_cons]
  cases same f.path q <;> rfl

/-- A new text for the files at a path is found at that path, if there is a file, and at no other. -/
theorem get?_map_text (files : GeneratedFiles) (path text q : String) :
    get? (files.map fun f => if same f.path path then { f with text } else f) q =
      (files.get? q).map fun old => if same path q then text else old := by
  induction files with
  | nil => rfl
  | cons f files ih =>
    rw [List.map_cons, get?_cons, get?_cons, ih]
    by_cases hq : same f.path q = true
    · have hpath : same f.path path = same path q := by rw [same_comm, same_congr_right hq]
      cases h : same path q <;> simp [hpath, h, hq]
    · cases h : same f.path path <;> simp [hq]

/-- A text is found at its path, and what is at other paths stays. -/
theorem get?_put (files : GeneratedFiles) (path text q : String) :
    (files.put path text).get? q = if same path q then some text else files.get? q := by
  have hsame : same path q = true → files.get? path = files.get? q := fun hq => by
    simp only [get?, same_congr_right hq]
  unfold put
  split
  · next hnone =>
    rw [get?, List.find?_append, List.find?_singleton]
    by_cases hq : same path q = true
    · rw [Option.isNone_iff_eq_none, hsame hq, get?, Option.map_eq_none_iff] at hnone
      simp [hnone, hq]
    · simp [hq, get?]
  · next hsome =>
    rw [get?_map_text]
    by_cases hq : same path q = true
    · rw [hsame hq, Option.isNone_iff_eq_none] at hsome
      obtain ⟨old, hold⟩ := Option.ne_none_iff_exists'.1 hsome
      rw [hold, if_pos hq, Option.map_some, if_pos hq]
    · simp [hq]

/-- A text at a new path is one more file, and a text at a known one is not. -/
theorem length_put (files : GeneratedFiles) (path text : String) :
    (files.put path text).length = files.length + if (files.get? path).isNone then 1 else 0 := by
  unfold put
  split
  · rw [List.length_append, List.length_singleton]
  · rw [List.length_map, Nat.add_zero]

/-- At a path there is the text that came last for it. -/
theorem get?_collect (l : List GeneratedFile) (q : String) :
    (collect l).get? q = (l.reverse.find? fun f => same f.path q).map GeneratedFile.text := by
  induction l using List.reverseRecOn with
  | nil => rfl
  | append_singleton l f ih =>
    rw [collect_concat, get?_put, ih, List.reverse_concat, List.find?_cons]
    cases same f.path q <;> rfl

/-- Nothing is at a path to which no text goes. -/
theorem get?_collect_eq_none {l : List GeneratedFile} {q : String} :
    (collect l).get? q = none ↔ ∀ f ∈ l, same f.path q = false := by
  rw [get?_collect, Option.map_eq_none_iff, List.find?_eq_none]
  simp only [List.mem_reverse, Bool.not_eq_true]

/-- Texts whose paths lead to different places. -/
def Apart (l : List GeneratedFile) : Prop := l.Pairwise fun f f' => same f.path f'.path = false

/-- A text behind others leads to another place than each of them. -/
theorem apart_concat {l : List GeneratedFile} {f : GeneratedFile} :
    Apart (l ++ [f]) ↔ Apart l ∧ (collect l).get? f.path = none := by
  rw [Apart, List.pairwise_append, get?_collect_eq_none]
  simp only [List.pairwise_singleton, List.mem_singleton, forall_eq, true_and]
  rfl

/-- There are no more files than texts. -/
theorem length_collect_le (l : List GeneratedFile) : (collect l).length ≤ l.length := by
  induction l using List.reverseRecOn with
  | nil => exact Nat.le_refl _
  | append_singleton l f ih =>
    rw [collect_concat, length_put, List.length_append, List.length_singleton]
    split <;> omega

/-- There are as many files as texts exactly when the texts go to different places. -/
theorem length_collect_eq_iff (l : List GeneratedFile) : (collect l).length = l.length ↔ Apart l := by
  induction l using List.reverseRecOn with
  | nil => exact iff_of_true rfl .nil
  | append_singleton l f ih =>
    have := length_collect_le l
    rw [collect_concat, length_put, List.length_append, List.length_singleton, apart_concat, ← ih]
    cases h : (collect l).get? f.path with
    | none => simp
    | some text =>
      simp only [Option.isNone_some, Bool.false_eq_true, if_false, reduceCtorEq, and_false, iff_false]
      omega

/-- Where the texts go to different places, each one is found at its path. -/
theorem get?_collect_of_mem {l : List GeneratedFile} (h : Apart l) {f : GeneratedFile} (hf : f ∈ l) :
    (collect l).get? f.path = some f.text := by
  induction l using List.reverseRecOn with
  | nil => cases hf
  | append_singleton l last ih =>
    obtain ⟨hl, hlast⟩ := apart_concat.1 h
    rw [collect_concat, get?_put]
    rcases List.mem_append.1 hf with hf | hf
    · rw [ih hl hf, if_neg]
      rw [same_comm, get?_collect_eq_none.1 hlast f hf]
      exact Bool.false_ne_true
    · rw [List.mem_singleton.1 hf, if_pos (same_self _)]

end GeneratedFiles

/-! ## Runs -/

namespace Generator

variable {g : Generator} {provider : Provider} {last : LastDirectory}

/-- The path of the file of a declaration. -/
def path (g : Generator) (d : Declaration) : Except Error String :=
  (g.resolver.directory d.scope?).map fun dir => g.resolver.file dir d.identity.stem

/-- The file of a declaration by itself. -/
def file (g : Generator) (provider : Provider) (d : Declaration) : Except Error GeneratedFile :=
  (g.fileOf provider none d).map Prod.snd

/-- Whether a directory that was looked up is the one of its namespace. -/
def Known (g : Generator) (last : LastDirectory) : Prop :=
  ∀ scope? dir, last = some (scope?, dir) → g.resolver.directory scope? = .ok dir

/-- A directory that was looked up is found again. -/
theorem directory_of_known (h : g.Known last) (scope? : Option String) :
    g.directory last scope? = g.directory none scope? := by
  unfold directory
  split
  · next known dir =>
    split
    · next heq => rw [← heq, h known dir rfl]
    · rfl
  · rfl

/-- The file of a declaration does not depend on what was looked up before. -/
theorem fileOf_of_known (h : g.Known last) (d : Declaration) :
    g.fileOf provider last d = g.fileOf provider none d := by
  unfold fileOf
  rw [directory_of_known h]

/-- The file of a declaration lies in the directory of its namespace, at the path of its name. -/
theorem eq_of_fileOf {d : Declaration} {dir : String} {f : GeneratedFile}
    (h : g.fileOf provider none d = .ok (dir, f)) :
    g.resolver.directory d.scope? = .ok dir ∧ g.path d = .ok f.path := by
  simp only [fileOf, directory, bind, Except.bind] at h
  split at h
  · cases h
  · next hdir =>
    split at h
    · cases h
    · split at h
      · cases h
      · obtain ⟨rfl, rfl⟩ := Prod.mk.inj (Except.ok.inj h)
        exact ⟨hdir, by rw [path, hdir]; rfl⟩

/-- The file of a declaration is at its path. -/
theorem path_of_file {d : Declaration} {f : GeneratedFile} (h : g.file provider d = .ok f) :
    g.path d = .ok f.path := by
  unfold file at h
  cases hfile : g.fileOf provider none d with
  | error e => rw [hfile] at h; cases h
  | ok found =>
    rw [hfile] at h
    obtain rfl := Except.ok.inj h
    exact (eq_of_fileOf hfile).2

/-- One step of a run puts in the file of its declaration. -/
theorem step_eq_ok {state next : GeneratedFiles × LastDirectory} {d : Declaration}
    (hknown : g.Known state.2) (h : g.step provider state d = .ok next) :
    ∃ f, g.file provider d = .ok f ∧ next.1 = state.1.put f.path f.text ∧ g.Known next.2 := by
  unfold step at h
  rw [fileOf_of_known hknown] at h
  cases hfile : g.fileOf provider none d with
  | error e => rw [hfile] at h; cases h
  | ok found =>
    rw [hfile] at h
    obtain rfl := Except.ok.inj h
    refine ⟨found.2, by rw [file, hfile]; rfl, rfl, ?_⟩
    rintro scope? dir heq
    obtain ⟨rfl, rfl⟩ := Prod.mk.inj (Option.some.inj heq)
    exact (eq_of_fileOf hfile).1

/-- A run puts in the files of its declarations, one after another. -/
theorem exists_files_of_foldlM {ds : List Declaration} {state final : GeneratedFiles × LastDirectory}
    (hknown : g.Known state.2) (h : ds.foldlM (g.step provider) state = .ok final) :
    ∃ fs : List GeneratedFile, ds.map (g.file provider) = fs.map .ok ∧
      final.1 = fs.foldl (fun files f => files.put f.path f.text) state.1 := by
  induction ds generalizing state with
  | nil =>
    obtain rfl : state = final := Except.ok.inj h
    exact ⟨[], rfl, rfl⟩
  | cons d ds ih =>
    rw [List.foldlM_cons] at h
    cases hstep : g.step provider state d with
    | error e => rw [hstep] at h; cases h
    | ok next =>
      rw [hstep] at h
      obtain ⟨f, hf, hput, hnext⟩ := step_eq_ok hknown hstep
      obtain ⟨fs, hfs, hfinal⟩ := ih hnext h
      exact ⟨f :: fs, by rw [List.map_cons, List.map_cons, hf, hfs],
        by rw [hfinal, hput, List.foldl_cons]⟩

/-- The files of a run are those of its declarations, of which at each path the last one counts. -/
theorem exists_files_of_generate {c : Collection} {files : GeneratedFiles}
    (h : g.generate provider c = .ok files) :
    ∃ fs : List GeneratedFile, c.items.map (g.file provider) = fs.map .ok ∧
      files = GeneratedFiles.collect fs := by
  unfold generate at h
  cases hrun : c.items.foldlM (g.step provider) ([], none) with
  | error e => rw [hrun] at h; cases h
  | ok final =>
    rw [hrun] at h
    obtain rfl := Except.ok.inj h
    exact exists_files_of_foldlM (by rintro _ _ ⟨⟩) hrun

/-- Whether two declarations go to the same place. -/
def Collide (g : Generator) (d d' : Declaration) : Prop :=
  ∃ p p', g.path d = .ok p ∧ g.path d' = .ok p' ∧ FilePath.same p p' = true

/-- Declarations with files collide when the paths of the files lead to the same place. -/
theorem not_collide_iff {d d' : Declaration} {f f' : GeneratedFile} (h : g.file provider d = .ok f)
    (h' : g.file provider d' = .ok f') : ¬g.Collide d d' ↔ FilePath.same f.path f'.path = false := by
  rw [← Bool.not_eq_true]
  refine not_congr ⟨?_, fun hsame => ⟨_, _, path_of_file h, path_of_file h', hsame⟩⟩
  rintro ⟨p, p', hp, hp', hsame⟩
  obtain rfl := Except.ok.inj ((path_of_file h).symm.trans hp)
  obtain rfl := Except.ok.inj ((path_of_file h').symm.trans hp')
  exact hsame

/-- Files go to different places when their declarations do not collide. -/
theorem apart_iff {ds : List Declaration} {fs : List GeneratedFile}
    (h : ds.map (g.file provider) = fs.map .ok) :
    GeneratedFiles.Apart fs ↔ ds.Pairwise fun d d' => ¬g.Collide d d' := by
  unfold GeneratedFiles.Apart
  induction ds generalizing fs with
  | nil =>
    obtain rfl := List.map_eq_nil_iff.1 h.symm
    exact iff_of_true .nil .nil
  | cons d ds ih =>
    obtain ⟨f, fs, rfl, hd, hds⟩ := List.map_eq_cons_iff.1 h.symm
    rw [List.pairwise_cons, List.pairwise_cons, ih hds.symm]
    refine and_congr_left' ⟨fun hf d' hd' => ?_, fun hd' f' hf' => ?_⟩
    · obtain ⟨f', hf', hfile⟩ := List.mem_map.1 (hds ▸ List.mem_map_of_mem hd')
      exact (not_collide_iff hd.symm hfile.symm).2 (hf f' hf')
    · obtain ⟨d', hmem, hfile⟩ := List.mem_map.1 (hds ▸ List.mem_map_of_mem hf')
      exact (not_collide_iff hd.symm hfile).1 (hd' d' hmem)

/-- A run that succeeds has as many files as declarations, and at the path of each declaration the
text of that declaration, exactly when no two declarations go to the same place. -/
theorem generate_keeps_all_iff (g : Generator) (provider : Provider) (c : Collection)
    (files : GeneratedFiles) (h : g.generate provider c = .ok files) :
    (files.length = c.items.length ∧ ∀ d ∈ c.items, ∃ f,
        g.file provider d = .ok f ∧ g.path d = .ok f.path ∧ files.get? f.path = some f.text) ↔
      c.items.Pairwise fun d d' => ¬g.Collide d d' := by
  obtain ⟨fs, hfs, rfl⟩ := exists_files_of_generate h
  have hlength : c.items.length = fs.length := by simpa using congrArg List.length hfs
  rw [← apart_iff hfs, hlength, GeneratedFiles.length_collect_eq_iff]
  refine and_iff_left_of_imp fun hapart d hd => ?_
  obtain ⟨f, hf, hfile⟩ := List.mem_map.1 (hfs ▸ List.mem_map_of_mem hd)
  exact ⟨f, hfile.symm, path_of_file hfile.symm, GeneratedFiles.get?_collect_of_mem hapart hf⟩

/-- Declarations of one namespace collide when their files have one name. -/
theorem collide_of_stem_eq {d d' : Declaration} {p : String} (hscope : d'.scope? = d.scope?)
    (hstem : d'.identity.stem = d.identity.stem) (h : g.path d = .ok p) : g.Collide d d' :=
  ⟨p, p, h, by rw [← h, path, path, hscope, hstem], FilePath.same_self p⟩

/-- A generator with one root. -/
def appGenerator : Generator := ⟨(PrefixMap.ofList [("App\\", "src/")]).resolver, .standard⟩

/-- A class of the name `K`. -/
def namedK : Declaration := .ofClass { ClassSpec.new "K" with scope? := some "App" }

/-- An anonymous class of the same namespace with the label `K`. -/
def labelledK : Declaration := .ofClass { ClassSpec.anonymous "K" with scope? := some "App" }

/-- An interface of the name `K` in a namespace below. -/
def modelK : Declaration := .ofInterface { InterfaceSpec.new "K" with scope? := some "App\\Model" }

/-- A class and an interface of one name in two namespaces both have their files. -/
theorem generate_keeps_all_modelK :
    ∃ files, appGenerator.generate noFiles (.ofList [namedK, modelK]) = .ok files ∧
      files.length = 2 ∧ ∀ d ∈ [namedK, modelK], ∃ f, appGenerator.file noFiles d = .ok f ∧
        appGenerator.path d = .ok f.path ∧ files.get? f.path = some f.text := by
  have hitems : (Collection.ofList [namedK, modelK]).items = [namedK, modelK] := rfl
  have hapart : (Collection.ofList [namedK, modelK]).items.Pairwise
      fun d d' => ¬appGenerator.Collide d d' := by
    rw [hitems, List.pairwise_pair]
    rintro ⟨p, p', hp, hp', hsame⟩
    obtain rfl : "src/K.php" = p := Except.ok.inj hp
    obtain rfl : "src/Model/K.php" = p' := Except.ok.inj hp'
    revert hsame
    decide +kernel
  have hok : (appGenerator.generate noFiles (.ofList [namedK, modelK])).isOk = true := by
    decide +kernel
  cases h : appGenerator.generate noFiles (.ofList [namedK, modelK]) with
  | error e => rw [h] at hok; cases hok
  | ok files =>
    obtain ⟨hlength, hall⟩ := (generate_keeps_all_iff _ _ _ files h).2 hapart
    exact ⟨files, rfl, hlength, hall⟩

/-- The file of a class gets lost when an anonymous class of its namespace has its name for a label.
-/
theorem generate_loses_labelledK :
    (Collection.ofList [namedK, labelledK]).items = [namedK, labelledK] ∧
      appGenerator.Collide namedK labelledK ∧
      ∃ files, appGenerator.generate noFiles (.ofList [namedK, labelledK]) = .ok files ∧
        files.length = 1 := by
  refine ⟨rfl, collide_of_stem_eq rfl rfl (p := "src/K.php") rfl, ?_⟩
  have hlength : ((appGenerator.generate noFiles (.ofList [namedK, labelledK])).toOption.map
      List.length) = some 1 := by decide +kernel
  cases h : appGenerator.generate noFiles (.ofList [namedK, labelledK]) with
  | error e => rw [h] at hlength; cases hlength
  | ok files =>
    rw [h] at hlength
    exact ⟨files, rfl, Option.some.inj hlength⟩

end Generator

end PhpGraft

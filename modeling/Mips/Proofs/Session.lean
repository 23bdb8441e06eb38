import Mips.Proofs.Assembly
import Mips.Proofs.PlainTree
import Mips.Tool.Program

/-!
# What a run leaves behind

A run of the tool loads the settings, reads a source and writes three files beside it. Each call to
the system may be refused or stop halfway. Loading makes a settings file that is not found, with the
folders above it (`step_loaded`). A source is accepted or rejected (`accepts_or_rejects`); one that is
rejected ends the run before anything else is written. Saving changes the files that the paths of the
outputs name and no others (`step_writeAll`).

    work/prog.s       no output of its own: kept
    work/prog.text    the text of its own module: replaced
-/

namespace Mips

/-- Whether a diagnostic is an error is a matter of its problem. -/
theorem Assembly.hasErrors_eq_false {a : Assembly} :
    a.hasErrors = false ↔ ∀ d ∈ a.diagnostics, d.problem.severity ≠ .error := by
  simp [hasErrors, Diagnostic.isError]

theorem Program.exists_ending {module : Module} {stem : String} {file : String × Bytes}
    (h : file ∈ outputs module stem) : ∃ ending ∈ Path.endings, file.1 = stem ++ ending := by
  have hname : file.1 ∈ Path.endings.map (stem ++ ·) := List.mem_map_of_mem (f := Prod.fst) h
  obtain ⟨ending, hending, heq⟩ := List.mem_map.1 hname
  exact ⟨ending, hending, heq.symm⟩

namespace Session

/-! ### Performing -/

/-- The result of an action, and the session behind it. -/
def perform {α : Type} (s : Session) (x : StateM Session α) : α × Session := Id.run (x.run s)

theorem perform_pure {α : Type} (s : Session) (a : α) : s.perform (pure a) = (a, s) := rfl

theorem perform_bind {α β : Type} (s : Session) (x : StateM Session α) (f : α → StateM Session β) :
    s.perform (x >>= f) = (s.perform x).2.perform (f (s.perform x).1) := rfl

theorem perform_read (s : Session) (path : String) :
    s.perform (Host.read path) = (s.readFile path, s.after s.tree) := rfl

theorem perform_write (s : Session) (path : String) (bytes : Bytes) :
    s.perform (Host.write path bytes) =
      ((s.writeFile path bytes).1, s.after (s.writeFile path bytes).2) := rfl

theorem perform_makeFolders (s : Session) (path : String) :
    s.perform (Host.makeFolders path) =
      ((s.makeFolders path).1, s.after (s.makeFolders path).2) := rfl

/-- The files and the working folder are the same, and no call is refused that was not to be. -/
structure SameFiles (s s' : Session) : Prop where
  tree : s'.tree = s.tree
  working : s'.working = s.working
  granted : s.fates = [] → s'.fates = []

theorem SameFiles.refl (s : Session) : SameFiles s s := ⟨rfl, rfl, id⟩

theorem SameFiles.trans {s s' s'' : Session} (h : SameFiles s s') (h' : SameFiles s' s'') :
    SameFiles s s'' :=
  ⟨h'.tree.trans h.tree, h'.working.trans h.working, fun hs => h'.granted (h.granted hs)⟩

theorem SameFiles.grows {s s' : Session} (h : SameFiles s s') : s.tree.Grows s'.tree := by
  rw [h.tree]
  exact ⟨fun _ _ => rfl, fun _ h => h⟩

theorem sameFiles_after (s : Session) : SameFiles s (s.after s.tree) :=
  ⟨rfl, rfl, fun hs => by simp [after, hs]⟩

theorem sameFiles_note (s : Session) (n : Note) : SameFiles s (s.perform (Host.note n)).2 :=
  ⟨rfl, rfl, id⟩

theorem sameFiles_forM {α : Type} {f : α → StateM Session Unit}
    (h : ∀ x s, SameFiles s (s.perform (f x)).2) (xs : List α) (s : Session) :
    SameFiles s (s.perform (xs.forM f)).2 := by
  induction xs generalizing s with
  | nil => exact .refl s
  | cons x xs ih => exact (h x s).trans (ih _)

/-- The files change as `written` and `made` allow. -/
structure Step (written : Nat → Bytes → Prop) (made : Location → Prop) (s s' : Session) : Prop where
  changes : FileTree.Changes written made s.tree s'.tree
  working : s'.working = s.working
  granted : s.fates = [] → s'.fates = []

namespace Step

variable {written written' : Nat → Bytes → Prop} {made made' : Location → Prop}
  {s s' s'' : Session}

theorem of_sameFiles (h : SameFiles s s') : Step written made s s' :=
  ⟨h.tree ▸ .refl _, h.working, h.granted⟩

theorem mono (h : Step written made s s') (hwritten : ∀ n bytes, written n bytes → written' n bytes)
    (hmade : ∀ l, made l → made' l) : Step written' made' s s' :=
  ⟨h.changes.mono hwritten hmade, h.working, h.granted⟩

theorem trans (h : Step written made s s') (h' : Step written made s' s'') :
    Step written made s s'' :=
  ⟨h.changes.trans h'.changes, h'.working.trans h.working, fun hs => h'.granted (h.granted hs)⟩

end Step

/-! ### Writing -/

section

variable (s : Session) (path : String) (bytes : Bytes)

/-- Writing leaves the tree as it is, or lets a first part of the bytes through. -/
theorem writeFile_cases :
    (∃ cause, s.writeFile path bytes = (.error cause, s.tree)) ∨
      ∃ count tree, s.tree.write s.working path (bytes.take count) = .ok tree ∧
        (s.writeFile path bytes).2 = tree ∧
        ((s.writeFile path bytes).1 = .ok () → bytes.take count = bytes) := by
  unfold writeFile
  cases s.fate with
  | granted =>
    cases hwrite : s.tree.write s.working path bytes with
    | error cause => exact .inl ⟨cause, rfl⟩
    | ok tree => exact .inr ⟨bytes.size, tree, by simpa using hwrite, rfl, fun _ => by simp⟩
  | refused cause h => exact .inl ⟨cause, rfl⟩
  | stopped count cause =>
    cases hwrite : s.tree.write s.working path (bytes.take count) with
    | error cause => exact .inl ⟨cause, by simp [hwrite]⟩
    | ok tree => exact .inr ⟨count, tree, hwrite, by simp [hwrite], by simp [hwrite]⟩

/-- Writing changes the file that the path names then, and no other. -/
theorem step_write :
    Step (fun n bytes' => (s.perform (Host.write path bytes)).2.tree.Names s.working path n ∧
        ∃ count, bytes' = bytes.take count) (fun _ => False)
      s (s.perform (Host.write path bytes)).2 := by
  rw [perform_write]
  refine ⟨?_, rfl, fun hs => by simp [after, hs]⟩
  change FileTree.Changes _ _ s.tree (s.writeFile path bytes).2
  rcases writeFile_cases s path bytes with ⟨cause, hwrite⟩ | ⟨count, tree, hwrite, rfl, -⟩
  · rw [hwrite]
    exact .refl _
  · obtain ⟨n, hnames, -, hchanges⟩ := FileTree.changes_write hwrite
    refine hchanges.mono ?_ fun _ h => h
    rintro n' bytes' ⟨rfl, rfl⟩
    exact ⟨hnames, count, rfl⟩

end

section

variable {s : Session} {path : String} {bytes : Bytes} (files : List (String × Bytes))

theorem writeAll_of_error {cause : SystemError}
    (h : (s.perform (Host.write path bytes)).1 = .error cause) :
    s.perform (Program.writeAll ((path, bytes) :: files)) =
      (.error cause, (s.perform (Host.write path bytes)).2) := by
  rw [Program.writeAll, perform_bind, h]
  rfl

theorem writeAll_of_ok (h : (s.perform (Host.write path bytes)).1 = .ok ()) :
    s.perform (Program.writeAll ((path, bytes) :: files)) =
      (s.perform (Host.write path bytes)).2.perform (Program.writeAll files) := by
  rw [Program.writeAll, perform_bind, h]

end

/-- One of the files is written, or a first part of it. -/
def Writes (files : List (String × Bytes)) (working : Location) (s' : Session) (n : Nat)
    (bytes : Bytes) : Prop :=
  ∃ file ∈ files, s'.tree.Names working file.1 n ∧ ∃ count, bytes = file.2.take count

/-- Writing files in turn changes the files that their paths name then, and no others. -/
theorem step_writeAll (files : List (String × Bytes)) (s : Session) :
    Step (Writes files s.working (s.perform (Program.writeAll files)).2) (fun _ => False)
      s (s.perform (Program.writeAll files)).2 := by
  induction files generalizing s with
  | nil => exact .of_sameFiles (.refl s)
  | cons file files ih =>
    obtain ⟨path, bytes⟩ := file
    have hhead := step_write s path bytes
    cases hresult : (s.perform (Host.write path bytes)).1 with
    | error cause =>
      rw [writeAll_of_error files hresult]
      refine hhead.mono (fun n bytes' h => ?_) fun _ h => h
      exact ⟨(path, bytes), List.mem_cons_self, h⟩
    | ok _ =>
      have hrest := ih (s.perform (Host.write path bytes)).2
      rw [hhead.working] at hrest
      rw [writeAll_of_ok files hresult]
      refine (hhead.mono ?_ fun _ h => h).trans (hrest.mono ?_ fun _ h => h)
      · rintro n bytes' ⟨hnames, hcount⟩
        exact ⟨(path, bytes), List.mem_cons_self, hrest.changes.grows.names hnames, hcount⟩
      · rintro n bytes' ⟨file, hfile, hnames⟩
        exact ⟨file, List.mem_cons_of_mem _ hfile, hnames⟩

theorem save_eq (s : Session) (module : Module) (path : String) :
    let files := Program.outputs module (Path.stem path)
    ((s.perform (Program.save module path)).1 = 0 ↔
        (s.perform (Program.writeAll files)).1 = .ok ()) ∧
      SameFiles (s.perform (Program.writeAll files)).2 (s.perform (Program.save module path)).2 := by
  intro files
  unfold Program.save
  dsimp only
  rw [perform_bind]
  rcases s.perform (Program.writeAll files) with ⟨result, written⟩
  cases result with
  | error cause =>
    dsimp only
    rw [perform_bind, perform_pure]
    exact ⟨by simp, sameFiles_note _ _⟩
  | ok _ =>
    dsimp only
    rw [perform_bind, perform_pure]
    exact ⟨⟨fun _ => rfl, fun _ => rfl⟩, sameFiles_forM (fun _ s => sameFiles_note s _) _ written⟩

/-! ### Settings -/

/-- The settings of a session: those in the file, if there is one that can be read and holds settings,
and the default ones otherwise. -/
def settings (s : Session) (setup : Setup) : Settings :=
  match setup.settingsPath?.map s.readFile with
  | some (.contents bytes) =>
    match Program.settingsOfBytes setup.format bytes with
    | .ok settings => settings
    | .error _ => {}
  | _ => {}

/-- The session once the settings are loaded, which is when the source is opened. -/
def loaded (s : Session) (setup : Setup) : Session := (s.perform (Program.loadSettings setup)).2

/-- The settings are to be at `path`, and nothing is found there. -/
def Misses (s : Session) (setup : Setup) (path : String) : Prop :=
  setup.settingsPath? = some path ∧
    ∃ cause : SystemError, s.tree.read s.working path = .refused cause ∧
      cause.code = SystemError.notFound.code

/-- Only the tree can tell that nothing is found. -/
theorem read_of_readFile {s : Session} {path : String} {cause : SystemError}
    (h : s.readFile path = .refused cause) (hcause : cause.code = SystemError.notFound.code) :
    s.tree.read s.working path = .refused cause := by
  unfold readFile at h
  split at h
  · next hfound _ =>
    obtain rfl := ReadOutcome.refused.inj h
    exact absurd hcause hfound
  · simp at h
  · exact h

section

variable (s : Session) (format : SettingsFormat) (path : String)

theorem step_makeFolders :
    Step (fun _ _ => False)
      (fun l => ∃ way, way <+: Path.parts path ∧
        (s.perform (Host.makeFolders path)).2.tree.follow FileTree.maxLinks
          (FileTree.start s.working path) way = .ok l)
      s (s.perform (Host.makeFolders path)).2 := by
  rw [perform_makeFolders]
  refine ⟨?_, rfl, fun hs => by simp [after, hs]⟩
  change FileTree.Changes _ _ s.tree (s.makeFolders path).2
  unfold makeFolders
  dsimp only
  cases s.fate with
  | granted => exact FileTree.changes_makeFolders _ (Path.parts path) s.tree []
  | refused cause h => exact .refl _
  | stopped count cause =>
    refine (FileTree.changes_makeFolders _ ((Path.parts path).take count) s.tree []).mono
      (fun _ _ h => h) ?_
    rintro l ⟨way, hway, hfollow⟩
    exact ⟨way, hway.trans (List.take_prefix _ _), hfollow⟩

end

/-- A settings file that was not found is written, or a first part of it. -/
def Stores (setup : Setup) (s s' : Session) (n : Nat) (bytes : Bytes) : Prop :=
  ∃ path, s.Misses setup path ∧ s'.tree.Names s.working path n ∧
    ∃ count, bytes = (Program.defaultFile setup.format).1.take count

/-- There is a folder on the way to a settings file that was not found. -/
def OnTheWay (setup : Setup) (s s' : Session) (l : Location) : Prop :=
  ∃ path, s.Misses setup path ∧ ∃ way, way <+: Path.parts (Path.parent path) ∧
    s'.tree.follow FileTree.maxLinks (FileTree.start s.working (Path.parent path)) way = .ok l

theorem perform_storeSettings (s : Session) (format : SettingsFormat) (path : String) :
    (s.perform (Program.storeSettings format path)).2 =
      match s.perform (Host.makeFolders (Path.parent path)) with
      | (.error _, s') => s'
      | (.ok (), s') => (s'.perform (Host.write path (Program.defaultFile format).1)).2 := by
  unfold Program.storeSettings
  rw [perform_bind]
  rcases s.perform (Host.makeFolders (Path.parent path)) with ⟨_ | _, s'⟩
  · rfl
  · dsimp only
    rw [perform_bind]
    rcases s'.perform (Host.write path (Program.defaultFile format).1) with ⟨_ | _, s''⟩ <;> rfl

section

variable {s : Session} {setup : Setup} {path : String}

theorem step_storeSettings (h : s.Misses setup path) :
    Step (Stores setup s (s.perform (Program.storeSettings setup.format path)).2)
      (OnTheWay setup s (s.perform (Program.storeSettings setup.format path)).2)
      s (s.perform (Program.storeSettings setup.format path)).2 := by
  have hmake := step_makeFolders s (Path.parent path)
  rw [perform_storeSettings]
  rcases hmade : s.perform (Host.makeFolders (Path.parent path)) with ⟨result, s'⟩
  rw [hmade] at hmake
  cases result with
  | error cause => exact hmake.mono (fun _ _ => False.elim) fun _ hway => ⟨path, h, hway⟩
  | ok _ =>
    have hwrite := step_write s' path (Program.defaultFile setup.format).1
    rw [hmake.working] at hwrite
    refine (hmake.mono (fun _ _ => False.elim) ?_).trans (hwrite.mono ?_ fun _ => False.elim)
    · rintro l ⟨way, hway, hfollow⟩
      exact ⟨path, h, way, hway, hwrite.changes.grows.follow hfollow⟩
    · rintro n bytes hn
      exact ⟨path, h, hn⟩

/-- Loading gives the settings of the session. It only tells something, unless the settings file is
not found: then the file is stored first. -/
theorem loadSettings_cases (s : Session) (setup : Setup) :
    (s.perform (Program.loadSettings setup)).1 = s.settings setup ∧
      (SameFiles s (s.loaded setup) ∨
        ∃ path, s.Misses setup path ∧
          SameFiles ((s.after s.tree).perform (Program.storeSettings setup.format path)).2
            (s.loaded setup)) := by
  unfold loaded settings Program.loadSettings
  cases hpath : setup.settingsPath? with
  | none => exact ⟨rfl, .inl (sameFiles_note s _)⟩
  | some path =>
    dsimp only [Option.map_some]
    unfold Program.loadFile
    rw [perform_bind, perform_read]
    cases hread : s.readFile path with
    | refused cause =>
      dsimp only
      split
      · next hcause =>
        have hmisses : s.Misses setup path := ⟨hpath, cause, read_of_readFile hread hcause, hcause⟩
        rw [perform_bind]
        cases hstored : (s.after s.tree).perform (Program.storeSettings setup.format path) with
        | mk result stored =>
          cases result <;>
            exact ⟨rfl, .inr ⟨path, hmisses, by rw [hstored]; exact sameFiles_note stored _⟩⟩
      · exact ⟨rfl, .inl ((sameFiles_after s).trans (sameFiles_note _ _))⟩
    | broken cause => exact ⟨rfl, .inl ((sameFiles_after s).trans (sameFiles_note _ _))⟩
    | contents bytes =>
      dsimp only
      cases Program.settingsOfBytes setup.format bytes with
      | ok settings => exact ⟨rfl, .inl (sameFiles_after s)⟩
      | error cause => exact ⟨rfl, .inl ((sameFiles_after s).trans (sameFiles_note _ _))⟩

/-- Loading makes a settings file that is not found and the folders above it, and changes nothing
else. -/
theorem step_loaded (s : Session) (setup : Setup) :
    Step (Stores setup s (s.loaded setup)) (OnTheWay setup s (s.loaded setup))
      s (s.loaded setup) := by
  rcases (loadSettings_cases s setup).2 with hsame | ⟨path, hmisses, hstored⟩
  · exact .of_sameFiles hsame
  · have hstep := step_storeSettings (s := s.after s.tree) hmisses
    refine (Step.of_sameFiles (sameFiles_after s)).trans (.trans ?_ (.of_sameFiles hstored))
    refine hstep.mono ?_ ?_
    · rintro n bytes ⟨path, hmisses, hn⟩
      exact ⟨path, hmisses, by rw [hstored.tree]; exact hn⟩
    · rintro l ⟨path, hmisses, hl⟩
      exact ⟨path, hmisses, by rw [hstored.tree]; exact hl⟩

end

/-! ### Sources -/

/-- The source at `path` is a text that assembles to `a`. -/
def Assembles (s : Session) (settings : Settings) (path : String) (a : Assembly) : Prop :=
  ∃ bytes text, s.readFile path = .contents bytes ∧
    String.fromUTF8? ⟨bytes⟩ = some text ∧ assemble text settings = .ok a

/-- The source at `path` assembles to `a` without an error. -/
structure Accepts (s : Session) (settings : Settings) (path : String) (a : Assembly) : Prop where
  assembles : s.Assembles settings path a
  noErrors : ∀ d ∈ a.diagnostics, d.problem.severity ≠ .error

/-- The source at `path` cannot be read, or it is no text, or there is an error in it. -/
inductive Rejects (s : Session) (settings : Settings) (path : String) : Prop
  | unreadable (h : ∀ bytes, s.readFile path ≠ .contents bytes)
  | notText {bytes : Bytes} (hread : s.readFile path = .contents bytes)
      (htext : String.fromUTF8? ⟨bytes⟩ = none)
  | faulty {a : Assembly} {d : Diagnostic} (h : s.Assembles settings path a)
      (hd : d ∈ a.diagnostics) (hseverity : d.problem.severity = .error)

theorem accepts_or_rejects (s : Session) (settings : Settings) (path : String) :
    (∃ a, s.Accepts settings path a) ∨ s.Rejects settings path := by
  cases hread : s.readFile path with
  | refused cause => exact .inr (.unreadable (by simp [hread]))
  | broken cause => exact .inr (.unreadable (by simp [hread]))
  | contents bytes =>
    cases htext : String.fromUTF8? ⟨bytes⟩ with
    | none => exact .inr (.notText hread htext)
    | some text =>
      obtain ⟨a, hassemble⟩ := exists_assembly text settings
      by_cases herror : ∃ d ∈ a.diagnostics, d.problem.severity = .error
      · obtain ⟨d, hd, hseverity⟩ := herror
        exact .inr (.faulty ⟨bytes, text, hread, htext, hassemble⟩ hd hseverity)
      · exact .inl ⟨a, ⟨bytes, text, hread, htext, hassemble⟩,
          fun d hd hseverity => herror ⟨d, hd, hseverity⟩⟩

/-- Whatever can be read is a file. -/
theorem names_of_readFile {s : Session} {path : String} {bytes : Bytes}
    (h : s.readFile path = .contents bytes) :
    ∃ n, s.tree.Names s.working path n ∧ s.tree.contents n = bytes := by
  unfold readFile at h
  split at h
  · simp at h
  · simp at h
  · exact FileTree.read_eq_contents.1 h

/-- An accepted source is a file. -/
theorem Accepts.names {s : Session} {settings : Settings} {path : String} {a : Assembly}
    (h : s.Accepts settings path a) : ∃ n, s.tree.Names s.working path n := by
  obtain ⟨bytes, -, hread, -⟩ := h.assembles
  obtain ⟨n, hnames, -⟩ := names_of_readFile hread
  exact ⟨n, hnames⟩

theorem perform_finish (s : Session) (path : String) (a : Assembly) :
    ∃ told, SameFiles s told ∧ s.perform (Program.finish path a) =
      told.perform (if a.hasErrors then pure 1 else Program.save a.module path) := by
  have htraced := sameFiles_forM (f := fun event => Host.note (.traced event))
    (fun _ s => sameFiles_note s _) a.trace s
  have hreported := sameFiles_forM (f := fun d => Host.note (.diagnosed path d))
    (fun _ s => sameFiles_note s _) a.diagnostics
  exact ⟨_, htraced.trans (hreported _), rfl⟩

theorem perform_assembleFile {s : Session} {settings : Settings} {path : String} {a : Assembly}
    (h : s.Assembles settings path a) :
    s.perform (Program.assembleFile settings path) =
      (s.after s.tree).perform (Program.finish path a) := by
  obtain ⟨bytes, text, hread, htext, hassemble⟩ := h
  have hbytes : assembleBytes bytes settings = .ok a := by
    rw [assembleBytes, textOfBytes, htext]
    dsimp only
    rw [hassemble]
  unfold Program.assembleFile
  rw [perform_bind, perform_read, hread]
  dsimp only
  rw [hbytes]

theorem assembleFile_of_accepts {s : Session} {settings : Settings} {path : String} {a : Assembly}
    (h : s.Accepts settings path a) :
    ∃ told, SameFiles s told ∧
      s.perform (Program.assembleFile settings path) =
        told.perform (Program.save a.module path) := by
  obtain ⟨told, hsame, hfinish⟩ := perform_finish (s.after s.tree) path a
  rw [Assembly.hasErrors_eq_false.2 h.noErrors] at hfinish
  exact ⟨told, (sameFiles_after s).trans hsame, (perform_assembleFile h.assembles).trans hfinish⟩

theorem assembleFile_of_rejects {s : Session} {settings : Settings} {path : String}
    (h : s.Rejects settings path) :
    (s.perform (Program.assembleFile settings path)).1 = 1 ∧
      SameFiles s (s.perform (Program.assembleFile settings path)).2 := by
  have hnoted (n : Note) : SameFiles s ((s.after s.tree).perform (Host.note n)).2 :=
    (sameFiles_after s).trans (sameFiles_note _ n)
  cases h with
  | unreadable h =>
    unfold Program.assembleFile
    rw [perform_bind, perform_read]
    cases hread : s.readFile path with
    | refused cause => exact ⟨rfl, hnoted _⟩
    | broken cause => exact ⟨rfl, hnoted _⟩
    | contents bytes => exact absurd hread (h bytes)
  | @notText bytes hread htext =>
    have hbytes : assembleBytes bytes settings = .error (.unreadable .notText) := by
      rw [assembleBytes, textOfBytes, htext]
    unfold Program.assembleFile
    rw [perform_bind, perform_read, hread]
    dsimp only
    rw [hbytes]
    exact ⟨rfl, hnoted _⟩
  | @faulty a d h hd hseverity =>
    obtain ⟨told, hsame, hfinish⟩ := perform_finish (s.after s.tree) path a
    have herrors : a.hasErrors = true := by
      rw [← Bool.not_eq_false, Assembly.hasErrors_eq_false]
      exact fun hnone => hnone d hd hseverity
    rw [perform_assembleFile h, hfinish, herrors]
    exact ⟨rfl, (sameFiles_after s).trans hsame⟩

/-! ### Runs -/

theorem run_cons (s : Session) (setup : Setup) (path : String) (rest : List String) :
    s.run setup (path :: rest) =
      (s.loaded setup).perform (Program.assembleFile (s.settings setup) path) := by
  rw [← (loadSettings_cases s setup).1]
  rfl

section

variable {s : Session} {setup : Setup} {path : String} {a : Assembly} (rest : List String)

theorem run_of_rejects (h : (s.loaded setup).Rejects (s.settings setup) path) :
    (s.run setup (path :: rest)).1 = 1 ∧
      SameFiles (s.loaded setup) (s.run setup (path :: rest)).2 := by
  rw [run_cons]
  exact assembleFile_of_rejects h

/-- An accepted source is saved, and the code tells whether all of it was written. -/
theorem run_of_accepts (h : (s.loaded setup).Accepts (s.settings setup) path a) :
    ∃ told, SameFiles (s.loaded setup) told ∧
      ((s.run setup (path :: rest)).1 = 0 ↔
        (told.perform (Program.writeAll (Program.outputs a.module (Path.stem path)))).1 = .ok ()) ∧
      SameFiles (told.perform (Program.writeAll (Program.outputs a.module (Path.stem path)))).2
        (s.run setup (path :: rest)).2 := by
  obtain ⟨told, hsame, hperform⟩ := assembleFile_of_accepts h
  rw [run_cons, hperform]
  exact ⟨told, hsame, save_eq told a.module path⟩

/-- Saving an accepted source changes the files that the paths of the outputs name. -/
theorem step_saved (h : (s.loaded setup).Accepts (s.settings setup) path a) :
    Step (Writes (Program.outputs a.module (Path.stem path)) s.working
        (s.run setup (path :: rest)).2) (fun _ => False)
      (s.loaded setup) (s.run setup (path :: rest)).2 := by
  obtain ⟨told, htold, -, hrun⟩ := run_of_accepts rest h
  have hworking := htold.working.trans (step_loaded s setup).working
  have hwritten := step_writeAll (Program.outputs a.module (Path.stem path)) told
  rw [hworking] at hwritten
  refine (Step.of_sameFiles htold).trans (.trans (hwritten.mono ?_ fun _ h => h) (.of_sameFiles hrun))
  rintro n bytes ⟨file, hfile, hnames⟩
  exact ⟨file, hfile, by rw [hrun.tree]; exact hnames⟩

end

end Session

end Mips

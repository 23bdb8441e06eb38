import Mathlib.Data.List.Nodup
import Mips.Proofs.Session
import Mips.Tool.SettingsFile

/-!
# What a run changes

A run writes the outputs of an accepted source, and the settings file where there is none; whatever
else there is stays as it is (`step_run`). The source is lost where it is one of these files, be it by
its name or through a link. What counts is always the file that a path names, so that links, several
locations of a file and calls that the system refuses need no cases of their own.

    work/prog.s                              kept
    work/prog.text                           replaced by its own text
    work/prog.text → prog.s                  prog.s is replaced by its own text
    settings at /new/../work/config.toml     config.toml is replaced by settings: without /new it
                                             is not found
-/

namespace Mips

namespace Session

variable {s s' : Session} {setup : Setup}

/-! ### Settings files that are not found -/

/-- What loading does can be told by what the paths name later. -/
theorem step_loaded_of_grows (hgrows : (s.loaded setup).tree.Grows s'.tree) :
    Step (Stores setup s s') (OnTheWay setup s s') s (s.loaded setup) := by
  refine (step_loaded s setup).mono ?_ ?_
  · rintro n bytes ⟨path, hmisses, hnames, hbytes⟩
    exact ⟨path, hmisses, hgrows.names hnames, hbytes⟩
  · rintro l ⟨path, hmisses, way, hway, hfollow⟩
    exact ⟨path, hmisses, way, hway, hgrows.follow hfollow⟩

/-- The settings are at a path that goes down from the root, in a tree without links. -/
structure IsSimple (s : Session) (setup : Setup) : Prop where
  plain : s.tree.Plain
  direct : ∀ path, setup.settingsPath? = some path → Path.IsDirect path

section

variable {l : Location} {n : Nat} {bytes : Bytes} (hplain : s'.tree.Plain) (h : s.IsSimple setup)
include hplain h

/-- A settings file that was not found is where nothing was. -/
theorem IsSimple.stores (hstores : Stores setup s s' n bytes)
    (hfile : s'.tree.entry? l = some (.file n)) :
    s.tree.entry? l = none ∧ ∀ path, setup.settingsPath? = some path → l <+: Path.location path := by
  obtain ⟨path, ⟨hpath, cause, hread, hcause⟩, ⟨l', hlocate, hfile'⟩, -⟩ := hstores
  have hdirect := h.direct path hpath
  obtain rfl := hplain.single hfile hfile'
  rw [hplain.location_of_locate hdirect hlocate]
  refine ⟨h.plain.entry?_of_refused hdirect hcause hread, fun path' hpath' => ?_⟩
  obtain rfl := Option.some.inj (hpath'.symm.trans hpath)
  exact List.prefix_rfl

/-- The folders above a settings file that was not found are on the way to its location. -/
theorem IsSimple.onTheWay (hway : OnTheWay setup s s' l) :
    ∀ path, setup.settingsPath? = some path → l <+: Path.location path := by
  obtain ⟨path, ⟨hpath, -⟩, way, hway, hfollow⟩ := hway
  intro path' hpath'
  rw [Option.some.inj (hpath'.symm.trans hpath)]
  exact hplain.prefix_of_follow (h.direct path hpath) hway hfollow

end

/-- In a simple session no file that is there is written as the settings file. -/
theorem not_isSimple {written : Nat → Bytes → Prop} {made : Location → Prop} {l : Location} {n : Nat}
    {bytes : Bytes} (hstep : Step written made s s') (hfile : s.tree.entry? l = some (.file n))
    (hstores : Stores setup s s' n bytes) : ¬ s.IsSimple setup := by
  intro hsimple
  have hkept := hstep.changes.grows.kept l (by simp [hfile])
  have hnone := (hsimple.stores (hstep.changes.plain hsimple.plain) hstores (hkept.trans hfile)).1
  simp [hfile] at hnone

/-! ### Runs -/

/-- An output of the accepted source at `path` is written, or a first part of it. -/
def Saves (setup : Setup) (path : String) (s s' : Session) (n : Nat) (bytes : Bytes) : Prop :=
  ∃ a, (s.loaded setup).Accepts (s.settings setup) path a ∧
    Writes (Program.outputs a.module (Path.stem path)) s.working s' n bytes

theorem step_run_of_accepts {path : String} {a : Assembly} (rest : List String)
    (h : (s.loaded setup).Accepts (s.settings setup) path a) :
    Step (fun n bytes => Stores setup s (s.run setup (path :: rest)).2 n bytes ∨
        Writes (Program.outputs a.module (Path.stem path)) s.working
          (s.run setup (path :: rest)).2 n bytes)
      (OnTheWay setup s (s.run setup (path :: rest)).2) s (s.run setup (path :: rest)).2 := by
  have hsaved := step_saved rest h
  have hloaded := step_loaded_of_grows hsaved.changes.grows
  refine (hloaded.mono (fun _ _ => .inl) fun _ h => h).trans ?_
  exact hsaved.mono (fun _ _ => .inr) fun _ => False.elim

theorem step_run_of_rejects {path : String} (rest : List String)
    (h : (s.loaded setup).Rejects (s.settings setup) path) :
    Step (fun n bytes => Stores setup s (s.run setup (path :: rest)).2 n bytes ∨ False)
      (OnTheWay setup s (s.run setup (path :: rest)).2) s (s.run setup (path :: rest)).2 := by
  have hsame := (run_of_rejects rest h).2
  have hloaded := step_loaded_of_grows hsame.grows
  exact (hloaded.mono (fun _ _ => .inl) fun _ h => h).trans (.of_sameFiles hsame)

theorem grows_run (s : Session) (setup : Setup) (path : String) (rest : List String) :
    (s.loaded setup).tree.Grows (s.run setup (path :: rest)).2.tree := by
  rcases accepts_or_rejects (s.loaded setup) (s.settings setup) path with ⟨a, haccepts⟩ | hrejects
  · exact (step_saved rest haccepts).changes.grows
  · exact (run_of_rejects rest hrejects).2.grows

/-- A run writes the settings file if it is not found and the outputs if the source is accepted. -/
theorem step_run (s : Session) (setup : Setup) (path : String) (rest : List String) :
    Step (fun n bytes => Stores setup s (s.run setup (path :: rest)).2 n bytes ∨
        Saves setup path s (s.run setup (path :: rest)).2 n bytes)
      (OnTheWay setup s (s.run setup (path :: rest)).2) s (s.run setup (path :: rest)).2 := by
  rcases accepts_or_rejects (s.loaded setup) (s.settings setup) path with ⟨a, haccepts⟩ | hrejects
  · refine (step_run_of_accepts rest haccepts).mono (fun n bytes => ?_) fun _ h => h
    exact Or.imp id fun hwrites => ⟨a, haccepts, hwrites⟩
  · exact (step_run_of_rejects rest hrejects).mono (fun _ _ => Or.imp id False.elim) fun _ h => h

/-- The source stays as it is, with two exceptions. If it is accepted and the path of an output names
the same file, the output takes its place, or a first part of it; without links this means that the
path of the source is that of its text or of its data, and never that of its symbols. And if the
settings are not found, although their path names the source once the folders above it are made, the
default settings take its place; without links this needs a path that does not go straight down from
the root. The source is the file that the path names before the run, or when the settings are
loaded. -/
theorem source_run (setup : Setup) (s : Session) (path : String) (rest : List String) {l : Location}
    {n : Nat} (hfile : s.tree.entry? l = some (.file n))
    (hsource : s.tree.Names s.working path n ∨ (s.loaded setup).tree.Names s.working path n) :
    (s.run setup (path :: rest)).2.tree.Names s.working path n ∧
      ((s.run setup (path :: rest)).2.tree.contents n = s.tree.contents n ∨
        (∃ a, (s.loaded setup).Accepts (s.settings setup) path a ∧
          ∃ output ∈ Program.outputs a.module (Path.stem path),
            (s.run setup (path :: rest)).2.tree.Names s.working output.1 n ∧
            (∃ count, (s.run setup (path :: rest)).2.tree.contents n = output.2.take count) ∧
            (s.tree.Plain → output.1 = path ∧
              (output.1 = Path.stem path ++ ".text" ∨ output.1 = Path.stem path ++ ".data"))) ∨
        (∃ settingsPath, s.Misses setup settingsPath ∧
          (s.run setup (path :: rest)).2.tree.Names s.working settingsPath n ∧
          (∃ count, (s.run setup (path :: rest)).2.tree.contents n =
            (Program.defaultFile setup.format).1.take count) ∧
          ¬ s.IsSimple setup)) := by
  have hstep := step_run s setup path rest
  have hnames : (s.run setup (path :: rest)).2.tree.Names s.working path n :=
    hsource.elim hstep.changes.grows.names (grows_run s setup path rest).names
  refine ⟨hnames, ?_⟩
  rcases hstep.changes.contents n with hkept | hstores |
    ⟨a, haccepts, output, houtput, hnames', hcount⟩
  · exact .inl hkept
  · right; right
    have hsimple := not_isSimple hstep hfile hstores
    obtain ⟨settingsPath, hmisses, hnames', hcount⟩ := hstores
    exact ⟨settingsPath, hmisses, hnames', hcount, hsimple⟩
  · refine .inr (.inl ⟨a, haccepts, output, houtput, hnames', hcount, fun hplain => ?_⟩)
    obtain ⟨ending, hending, hpath⟩ := Program.exists_ending houtput
    rw [hpath] at hnames'
    have hown := (hstep.changes.plain hplain).stem_append_eq_of_names hnames hending hnames'
    refine ⟨hpath.trans hown, ?_⟩
    simp only [Program.outputs, List.mem_cons, List.not_mem_nil, or_false] at houtput
    rcases houtput with rfl | rfl | rfl
    · exact .inl rfl
    · exact .inr rfl
    · exact absurd (hpath.trans hown) (Path.stem_append_symbols_ne path)

/-- Three sources in the folder `work`, of which one is no text, and a file with the name of settings
there. -/
def desk : Session where
  tree := {
    entries := [(["work"], .folder), (["work", "prog.s"], .file 0), (["work", "prog.text"], .file 1),
      (["work", "torn.s"], .file 2), (["work", "config.toml"], .file 3)]
    stored := [(0, Program.bytesOf "addiu $2, $0, 1"), (1, Program.bytesOf "nop"), (2, #[0xff]),
      (3, Program.bytesOf "nop")] }
  working := ["work"]

/-- The same with `prog.text` as a link to `prog.s`. -/
def linkedDesk : Session :=
  { desk with tree := desk.tree.put ["work", "prog.text"] (.link "prog.s") }

/-- The settings are at the given path. -/
def setupAt (settingsPath : String) : Setup := ⟨some settingsPath, SettingsFile.format⟩

theorem isSimple_desk : desk.IsSimple (setupAt "/config/config.toml") where
  plain := FileTree.plain_of_entries (by decide) (by simp [desk]) (by decide)
  direct path hpath := by
    obtain rfl := Option.some.inj hpath
    exact ⟨by decide, by decide⟩

theorem prog_kept :
    (desk.run (setupAt "/config/config.toml") ["prog.s"]).1 = 0 ∧
      (desk.run (setupAt "/config/config.toml") ["prog.s"]).2.tree.read ["work"] "prog.s" =
        .contents (Program.bytesOf "addiu $2, $0, 1") := by
  refine ⟨by decide +kernel, ?_⟩
  obtain ⟨hnames, hkept | ⟨a, -, output, -, -, -, hpath⟩ | ⟨p, -, -, -, hsimple⟩⟩ :=
    source_run (setupAt "/config/config.toml") desk "prog.s" [] (l := ["work", "prog.s"]) rfl
      (.inl ⟨["work", "prog.s"], by decide +kernel, rfl⟩)
  · exact FileTree.read_eq_contents.2 ⟨0, hnames, hkept⟩
  · obtain ⟨hpath, htext | hdata⟩ := hpath isSimple_desk.plain
    · exact absurd (hpath.symm.trans htext) (by decide)
    · exact absurd (hpath.symm.trans hdata) (by decide)
  · exact absurd isSimple_desk hsimple

/-- A source is lost that is named as its own text, that its text is a link to, or that the path of
the settings names once a folder is made. -/
theorem prog_text_replaced :
    (desk.tree.read ["work"] "prog.text" = .contents (Program.bytesOf "nop") ∧
      (desk.run (setupAt "/config/config.toml") ["prog.text"]).1 = 0 ∧
      (desk.run (setupAt "/config/config.toml") ["prog.text"]).2.tree.read ["work"] "prog.text" =
        .contents #[0, 0, 0, 0]) ∧
    (linkedDesk.tree.read ["work"] "prog.s" = .contents (Program.bytesOf "addiu $2, $0, 1") ∧
      (linkedDesk.run (setupAt "/config/config.toml") ["prog.s"]).1 = 0 ∧
      (linkedDesk.run (setupAt "/config/config.toml") ["prog.s"]).2.tree.read ["work"] "prog.s" =
        .contents #[0x24, 0x02, 0, 1]) ∧
    desk.tree.read ["work"] "config.toml" = .contents (Program.bytesOf "nop") ∧
      (desk.run (setupAt "/new/../work/config.toml") ["config.toml"]).2.tree.read ["work"]
        "config.toml" = .contents (Program.bytesOf (SettingsFile.write {})) := by
  decide +kernel

/-! ### Outputs -/

/-- What is at `l` is the settings file that was not found, or a folder on the way to it where nothing
was. Without links, and with a path that goes straight down from the root, nothing was at `l`. -/
structure Creates (setup : Setup) (s s' : Session) (l : Location) : Prop where
  place : (∃ n, s'.tree.entry? l = some (.file n) ∧ Stores setup s s' n (s'.tree.contents n)) ∨
    s.tree.entry? l = none ∧ s'.tree.entry? l = some .folder ∧ OnTheWay setup s s' l
  fresh : s.IsSimple setup → s.tree.entry? l = none ∧
    ∀ path, setup.settingsPath? = some path → l <+: Path.location path

/-- Each location shows what it showed, or one of the written files, or what was created for the
settings. -/
theorem Step.item? {written : Nat → Bytes → Prop}
    (h : Step (fun n bytes => Stores setup s s' n bytes ∨ written n bytes) (OnTheWay setup s s') s s')
    (l : Location) :
    s'.tree.item? l = s.tree.item? l ∨
      (∃ n, s'.tree.entry? l = some (.file n) ∧ written n (s'.tree.contents n)) ∨
      Creates setup s s' l := by
  rcases h.changes.item? l with hsame | ⟨n, hfile, hstores | hwritten⟩ | ⟨hnone, hfolder, hway⟩
  · exact .inl hsame
  · refine .inr (.inr ⟨.inl ⟨n, hfile, hstores⟩, fun hsimple => ?_⟩)
    exact hsimple.stores (h.changes.plain hsimple.plain) hstores hfile
  · exact .inr (.inl ⟨n, hfile, hwritten⟩)
  · refine .inr (.inr ⟨.inr ⟨hnone, hfolder, hway⟩, fun hsimple => ⟨hnone, ?_⟩⟩)
    exact hsimple.onTheWay (h.changes.plain hsimple.plain) hway

section

variable {path : String} {a : Assembly} (rest : List String)

end

end Session

end Mips

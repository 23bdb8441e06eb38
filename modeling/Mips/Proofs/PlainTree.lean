import Mips.Proofs.FileTree

/-!
# Paths in a plain tree

Without links a path leads down its own parts. The outputs of a source lie in the folder of the source
under names of their own (`Plain.exists_locate_output`), so that an output is its source only where
the two paths are the same (`Plain.stem_append_eq_of_names`). A path that goes down from the root
names one location, and nothing is there if the path is not found.
-/

namespace Mips

namespace FileTree

variable {t : FileTree}

theorem mem_entries {l : Location} {e : Entry} (h : t.entry? l = some e) (hl : l ≠ []) :
    (l, e) ∈ t.entries := by
  rw [ entry?, if_neg hl, List.lookup_eq_some_iff] at h
  obtain ⟨before, behind, heq, -⟩ := h
  rw [heq]
  simp

/-- A tree is plain if its entries are. -/
theorem plain_of_entries (hrooted : ∀ p ∈ t.entries, t.entry? p.1.dropLast = some .folder)
    (hlink : ∀ p ∈ t.entries, ∀ target, p.2 ≠ .link target)
    (hsingle : ∀ p ∈ t.entries, ∀ q ∈ t.entries, p.2 = q.2 → p.2 = .folder ∨ p.1 = q.1) :
    t.Plain := by
  refine ⟨fun l hl => ?_, fun l target hl => ?_, fun {l l' n} hl hl' => ?_⟩
  · by_cases hnil : l = []
    · rw [hnil]
      exact entry?_nil t
    · obtain ⟨e, he⟩ := Option.ne_none_iff_exists'.1 hl
      exact hrooted _ (mem_entries he hnil)
  · have hnil : l ≠ [] := by
      rintro rfl
      simp [entry?_nil] at hl
    exact hlink _ (mem_entries hl hnil) target rfl
  · have hne {l₀ : Location} (h₀ : t.entry? l₀ = some (.file n)) : l₀ ≠ [] := by
      rintro rfl
      simp [entry?_nil] at h₀
    have hsame := hsingle _ (mem_entries hl (hne hl)) _ (mem_entries hl' (hne hl')) rfl
    exact hsame.resolve_left (by simp)

/-- Two paths of one file lead to one location. -/
theorem Plain.locate_eq_of_names (h : t.Plain) {working : Location} {path path' : String} {n : Nat}
    (hnames : t.Names working path n) (hnames' : t.Names working path' n) :
    t.locate working path = t.locate working path' := by
  obtain ⟨l, hlocate, hfile⟩ := hnames
  obtain ⟨l', hlocate', hfile'⟩ := hnames'
  rw [hlocate, hlocate', h.single hfile hfile']

/-! ### Siblings -/

section

variable {working : Location} {path : String} {n : Nat} (h : t.Plain)
  (hsource : t.Names working path n)
include h hsource

/-- The siblings of a file are in the folder where it is. -/
theorem Plain.exists_locate_sibling :
    ∃ folder, t.locate working path = .ok (folder ++ [String.ofList (Path.name path)]) ∧
      ∀ name, Path.IsName name → t.locate working (Path.sibling path name) =
        .ok (folder ++ [String.ofList name]) := by
  obtain ⟨l, hlocate, hfile⟩ := hsource
  obtain ⟨init, hinit⟩ := Path.exists_parts_sibling path
  have hparts := hinit _ (Path.slash_not_mem_name path)
  have habsolute := Path.isAbsolute_sibling path (Path.slash_not_mem_name path)
  rw [Path.sibling_name] at hparts habsolute
  have hpath : path ≠ "" := by
    rintro rfl
    simp [locate] at hlocate
  have hfollow := hlocate
  rw [locate, if_neg hpath, hparts] at hfollow
  obtain ⟨folder, hfolders, hfolder, rfl⟩ := h.exists_folder hfollow
  refine ⟨folder, ?_, fun name hname => ?_⟩
  · -- the last part is a name: otherwise the path ends in a folder
    rw [hlocate, down]
    split
    · rfl
    · next hlast =>
      rw [down, if_neg hlast] at hfile
      split at hfile
      · rw [h.rooted folder (by simp [hfolder])] at hfile
        simp at hfile
      · rw [hfolder] at hfile
        simp at hfile
  · have hempty : Path.sibling path name ≠ "" := by
      intro hsibling
      have hchars := congrArg String.toList hsibling
      simp [Path.sibling, hname.nonempty] at hchars
    have hstart : start working (Path.sibling path name) = start working path := by
      rw [start, start, Path.isAbsolute_sibling path hname.noSlash, habsolute]
    rw [locate, if_neg hempty, hstart, hinit name hname.noSlash,
      follow_concat hfolder (fun _ => h.noLink _) hfolders, down, if_pos hname.isName]

/-- The outputs of a file are siblings of it. -/
theorem Plain.exists_locate_output :
    ∃ folder, t.locate working path = .ok (folder ++ [String.ofList (Path.name path)]) ∧
      ∀ ending ∈ Path.endings, t.locate working (Path.stem path ++ ending) =
        .ok (folder ++ [String.ofList (Path.stemName path ++ ending.toList)]) := by
  obtain ⟨folder, hlocate, hsibling⟩ := h.exists_locate_sibling hsource
  refine ⟨folder, hlocate, fun ending hending => ?_⟩
  rw [Path.stem_append_eq]
  exact hsibling _ (Path.isName_output path hending)

/-- An output that is the file of its source has the path of its source. -/
theorem Plain.stem_append_eq_of_names {ending : String} (hending : ending ∈ Path.endings)
    (houtput : t.Names working (Path.stem path ++ ending) n) :
    Path.stem path ++ ending = path := by
  obtain ⟨folder, hlocate, hlocates⟩ := h.exists_locate_output hsource
  have hsame := h.locate_eq_of_names houtput hsource
  rw [hlocates ending hending, hlocate, Except.ok.injEq, List.append_cancel_left_eq,
    List.singleton_inj] at hsame
  rw [Path.stem_append_eq, String.ofList_injective hsame, Path.sibling_name]

end

/-! ### Direct paths -/

/-- There is something above whatever there is. -/
theorem Plain.above (h : t.Plain) : ∀ {below l : Location}, t.entry? (l ++ below) ≠ none →
    t.entry? l ≠ none
  | [], l, hbelow => by rwa [List.append_nil] at hbelow
  | name :: below, l, hbelow => by
    have hname : t.entry? (l ++ [name]) ≠ none :=
      h.above (by rwa [List.append_assoc, List.singleton_append])
    have hfolder := h.rooted _ hname
    rw [List.dropLast_concat] at hfolder
    simp [hfolder]

/-- Nothing is below nothing. -/
theorem Plain.none_below (h : t.Plain) {l : Location} (hl : t.entry? l = none) (below : Location) :
    t.entry? (l ++ below) = none := by
  cases hentry : t.entry? (l ++ below) with
  | none => rfl
  | some e =>
    have hbelow : t.entry? (l ++ below) ≠ none := by simp [hentry]
    exact absurd hl (h.above hbelow)

/-- A part that neither stays nor goes up leads to its own name, unless it is empty. -/
theorem down_append_filter {l : Location} {part : String} {parts : List String}
    (h : part ≠ "." ∧ part ≠ "..") :
    down l part ++ parts.filter (· ≠ "") = l ++ (part :: parts).filter (· ≠ "") := by
  by_cases hempty : part = ""
  · simp [down, Path.isName, hempty]
  · simp [down, Path.isName, hempty, h]

section

variable {jump : Location → List String → Except SystemError Location} {l l' : Location}
  {parts : List String} {cause : SystemError} (h : t.Plain)
  (hparts : ∀ part ∈ parts, part ≠ "." ∧ part ≠ "..")
include h hparts

theorem Plain.walk_direct (hwalk : t.walk jump l parts = .ok l') :
    l' = l ++ parts.filter (· ≠ "") := by
  induction parts generalizing l with
  | nil => simpa using (Except.ok.inj hwalk).symm
  | cons part parts ih =>
    obtain ⟨hpart, hrest⟩ := List.forall_mem_cons.1 hparts
    rw [walk_of_noLink (walk_cases hwalk).1 fun _ => h.noLink _] at hwalk
    rw [ih hrest hwalk, down_append_filter hpart]

/-- Where a direct path leads to nothing, nothing is there. -/
theorem Plain.entry?_of_walk (hcause : cause.code = SystemError.notFound.code)
    (hwalk : t.walk jump l parts = .error cause) :
    t.entry? (l ++ parts.filter (· ≠ "")) = none := by
  induction parts generalizing l with
  | nil => simp [walk_nil] at hwalk
  | cons part parts ih =>
    obtain ⟨hpart, hrest⟩ := List.forall_mem_cons.1 hparts
    cases hentry : t.entry? l with
    | none => exact h.none_below hentry _
    | some e =>
      by_cases hfolder : e = .folder
      · rw [hfolder] at hentry
        rw [walk_of_noLink hentry fun _ => h.noLink _] at hwalk
        rw [← down_append_filter hpart]
        exact ih hrest hwalk
      · have hnotFolder : t.walk jump l (part :: parts) = .error .notFolder := by
          rw [walk, hentry]
          cases e <;> first | rfl | exact absurd rfl hfolder
        rw [hwalk] at hnotFolder
        rw [Except.error.inj hnotFolder] at hcause
        exact absurd hcause (by decide)

end

section

variable {working l : Location} {path : String} (hdirect : Path.IsDirect path)
include hdirect

theorem start_direct : start working path = [] := if_pos hdirect.absolute

theorem locate_direct : t.locate working path = t.follow maxLinks [] (Path.parts path) := by
  have hpath : path ≠ "" := by
    rintro rfl
    exact absurd hdirect.absolute (by decide)
  rw [locate, if_neg hpath, start_direct hdirect]

theorem Plain.location_of_locate (h : t.Plain) (hlocate : t.locate working path = .ok l) :
    l = Path.location path := by
  rw [locate_direct hdirect] at hlocate
  exact h.walk_direct hdirect.noDots hlocate

theorem Plain.entry?_of_refused (h : t.Plain) {cause : SystemError}
    (hcause : cause.code = SystemError.notFound.code)
    (hread : t.read working path = .refused cause) : t.entry? (Path.location path) = none := by
  unfold read at hread
  split at hread
  · next cause' hlocate =>
    obtain rfl := ReadOutcome.refused.inj hread
    rw [locate_direct hdirect] at hlocate
    exact h.entry?_of_walk hdirect.noDots hcause hlocate
  · next l hlocate =>
    rw [← h.location_of_locate hdirect hlocate]
    split at hread
    · assumption
    · simp at hread
    · simp at hread

/-- The folders above a direct path are on the way to its location. -/
theorem Plain.prefix_of_follow (h : t.Plain) {way : List String}
    (hway : way <+: Path.parts (Path.parent path))
    (hfollow : t.follow maxLinks (start working (Path.parent path)) way = .ok l) :
    l <+: Path.location path := by
  rw [start_direct hdirect.parent] at hfollow
  rw [h.walk_direct (fun part hpart => hdirect.parent.noDots part (hway.mem hpart)) hfollow]
  exact (hway.filter _).trans (Path.location_parent_prefix path)

end

end FileTree

end Mips

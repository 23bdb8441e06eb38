import Mips.Tool.Path

/-!
# Paths beside each other

A path is a folder and a name: `sibling path name` is the path in the same folder with another name.
The outputs of a source are siblings of it (`stem_append_eq`). Their names end in ways that keep them
apart from each other, and two of the three may be the name of the source itself; the third never is
(`stem_append_symbols_ne`).

    dir/prog.s        dir/prog.text       a sibling, as dir/prog.s is
    dir/prog.text     dir/prog.text       the source itself
-/

namespace Mips

namespace Path

/-! ### Parts -/

/-- The characters between the slashes. -/
def cut (cs : List Char) : List (List Char) :=
  cs.foldr (fun c rest =>
    if c = '/' then [] :: rest
    else match rest with
      | [] => [[c]]
      | part :: parts => (c :: part) :: parts) [[]]

theorem parts_eq (path : String) : parts path = (cut path.toList).map String.ofList := rfl

theorem cut_cons {c : Char} (hc : c ≠ '/') {cs part : List Char} {rest : List (List Char)}
    (h : cut cs = part :: rest) : cut (c :: cs) = (c :: part) :: rest := by
  change (if c = '/' then _ else _) = _
  rw [if_neg hc]
  simp only [cut] at h
  rw [h]

theorem exists_cut (cs : List Char) : ∃ part rest, cut cs = part :: rest := by
  induction cs with
  | nil => exact ⟨[], [], rfl⟩
  | cons c cs ih =>
    by_cases hc : c = '/'
    · exact ⟨[], cut cs, by rw [hc]; rfl⟩
    · obtain ⟨part, rest, hcut⟩ := ih
      exact ⟨c :: part, rest, cut_cons hc hcut⟩

theorem cut_of_not_mem {cs : List Char} (h : '/' ∉ cs) : cut cs = [cs] := by
  induction cs with
  | nil => rfl
  | cons c cs ih =>
    rw [List.mem_cons, not_or] at h
    exact cut_cons (Ne.symm h.1) (ih h.2)

/-- A slash parts what is before it from what is behind it. -/
theorem cut_append_slash (cs rest : List Char) : cut (cs ++ '/' :: rest) = cut cs ++ cut rest := by
  induction cs with
  | nil => rfl
  | cons c cs ih =>
    by_cases hc : c = '/'
    · subst hc
      exact congrArg ([] :: ·) ih
    · obtain ⟨part, parts, hcut⟩ := exists_cut cs
      rw [hcut] at ih
      rw [List.cons_append, cut_cons hc ih, cut_cons hc hcut]
      rfl

/-! ### Folder and name -/

/-- What stands before the last part of a path, with the slash. -/
def folder (path : String) : List Char := (splitLast path).2.reverse

/-- The last part of a path. -/
def name (path : String) : List Char := (splitLast path).1.reverse

/-- The last part of a path without its ending. -/
def stemName (path : String) : List Char := (dropEnding (splitLast path).1).reverse

/-- The path in the same folder with another name. -/
def sibling (path : String) (name : List Char) : String := String.ofList (folder path ++ name)

theorem sibling_name (path : String) : sibling path (name path) = path := by
  rw [sibling, folder, name, ← List.reverse_append, splitLast, List.takeWhile_append_dropWhile,
    List.reverse_reverse, String.ofList_toList]

theorem sibling_inj {path : String} {n n' : List Char} (h : sibling path n = sibling path n') :
    n = n' :=
  List.append_cancel_left (String.ofList_injective h)

theorem slash_not_mem_name (path : String) : '/' ∉ name path := by
  intro h
  have hall : (splitLast path).1.all (· ≠ '/') = true := List.all_takeWhile
  have hne := List.all_eq_true.1 hall '/' (List.mem_reverse.1 h)
  simp at hne

/-- The folder is empty, or a slash ends it. -/
theorem folder_cases (path : String) :
    folder path = [] ∨ ∃ cs, folder path = cs ++ ['/'] := by
  rcases hfolder : (splitLast path).2 with _ | ⟨c, cs⟩
  · exact .inl (by rw [folder, hfolder]; rfl)
  · right
    obtain rfl : c = '/' := by
      have hhead := List.head?_dropWhile_not (· ≠ '/') path.toList.reverse
      rw [show path.toList.reverse.dropWhile (· ≠ '/') = c :: cs from hfolder] at hhead
      simpa using hhead
    exact ⟨cs.reverse, by rw [folder, hfolder, List.reverse_cons]⟩

theorem parts_sibling {path : String} {cs n : List Char} (h : folder path = cs ++ ['/'])
    (hn : '/' ∉ n) : parts (sibling path n) = parts (String.ofList cs) ++ [String.ofList n] := by
  rw [parts_eq, parts_eq, sibling, String.toList_ofList, String.toList_ofList, h, List.append_assoc,
    List.singleton_append, cut_append_slash, cut_of_not_mem hn, List.map_append]
  rfl

/-- All siblings have the same parts but for the last. -/
theorem exists_parts_sibling (path : String) :
    ∃ init, ∀ n, '/' ∉ n → parts (sibling path n) = init ++ [String.ofList n] := by
  rcases folder_cases path with hfolder | ⟨cs, hfolder⟩
  · refine ⟨[], fun n hn => ?_⟩
    rw [parts_eq, sibling, String.toList_ofList, hfolder, List.nil_append, cut_of_not_mem hn]
    rfl
  · exact ⟨parts (String.ofList cs), fun n hn => parts_sibling hfolder hn⟩

/-- A sibling starts where the path does. -/
theorem isAbsolute_sibling (path : String) {n : List Char} (hn : '/' ∉ n) :
    isAbsolute (sibling path n) = (folder path).head?.any (· == '/') := by
  rw [isAbsolute, sibling, String.toList_ofList]
  cases folder path with
  | nil =>
    cases n with
    | nil => rfl
    | cons c n =>
      have hc : c ≠ '/' := fun hc => hn (hc ▸ List.mem_cons_self)
      simpa using hc
  | cons c cs => rfl

/-! ### Direct paths -/

/-- A path that goes down from the root. -/
structure IsDirect (path : String) : Prop where
  absolute : isAbsolute path = true
  noDots : ∀ part ∈ parts path, part ≠ "." ∧ part ≠ ".."

/-- The names on a direct path. -/
def location (path : String) : List String := (parts path).filter (· ≠ "")

/-- What holds a path has its parts but for the last, and an empty one. -/
theorem exists_parts_parent (path : String) :
    ∃ init, parts path = init ++ [String.ofList (name path)] ∧
      parts (parent path) = init ++ [""] := by
  obtain ⟨init, hinit⟩ := exists_parts_sibling path
  have hpath := hinit _ (slash_not_mem_name path)
  have hparent := hinit [] List.not_mem_nil
  rw [sibling_name] at hpath
  rw [sibling, List.append_nil] at hparent
  exact ⟨init, hpath, hparent⟩

theorem location_parent_prefix (path : String) : location (parent path) <+: location path := by
  obtain ⟨init, hpath, hparent⟩ := exists_parts_parent path
  rw [location, location, hpath, hparent, List.filter_append, List.filter_append]
  simp

theorem IsDirect.parent {path : String} (h : IsDirect path) : IsDirect (parent path) := by
  obtain ⟨init, hpath, hparent⟩ := exists_parts_parent path
  refine ⟨?_, fun part hpart => ?_⟩
  · have hsibling := isAbsolute_sibling path (slash_not_mem_name path)
    rw [sibling_name, ← isAbsolute_sibling path (n := []) List.not_mem_nil, sibling,
      List.append_nil, h.absolute] at hsibling
    exact hsibling.symm
  · rw [hparent, List.mem_append, List.mem_singleton] at hpart
    rcases hpart with hpart | rfl
    · exact h.noDots part (hpath ▸ List.mem_append_left _ hpart)
    · decide

/-! ### Outputs -/

/-- A name that a file can have. -/
structure IsName (n : List Char) : Prop where
  noSlash : '/' ∉ n
  nonempty : n ≠ []
  notDot : n ≠ ['.']
  notDots : n ≠ ['.', '.']

theorem IsName.isName {n : List Char} (h : IsName n) : isName (String.ofList n) = true := by
  have hne {cs : List Char} (hcs : n ≠ cs) : String.ofList n ≠ String.ofList cs :=
    fun heq => hcs (String.ofList_injective heq)
  have hempty : String.ofList n ≠ "" := hne h.nonempty
  have hdot : String.ofList n ≠ "." := hne h.notDot
  have hdots : String.ofList n ≠ ".." := hne h.notDots
  simp [Path.isName, hempty, hdot, hdots]

theorem stem_append_eq (path suffix : String) :
    stem path ++ suffix = sibling path (stemName path ++ suffix.toList) := by
  rw [← String.toList_inj, String.toList_append, sibling, String.toList_ofList, stem, folder,
    stemName]
  simp

theorem mem_dropEnding {c : Char} {n : List Char} (h : c ∈ dropEnding n) :
    c ∈ n ∨ c = '.' := by
  unfold dropEnding at h
  split at h
  · next before hdrop =>
    split at h
    · exact .inl h
    · split at h
      · right
        simpa using h
      · left
        have hmem : c ∈ n.dropWhile (· ≠ '.') := hdrop ▸ List.mem_cons_of_mem _ h
        exact (List.dropWhile_suffix _).mem hmem
  · exact .inl h

theorem isName_stemName_append (path : String) {suffix : List Char} (hslash : '/' ∉ suffix)
    (hlength : 2 < suffix.length) : IsName (stemName path ++ suffix) := by
  have hlong : 2 < (stemName path ++ suffix).length := by
    rw [List.length_append]
    omega
  refine ⟨fun h => ?_, ?_, ?_, ?_⟩
  · rcases List.mem_append.1 h with h | h
    · rcases mem_dropEnding (List.mem_reverse.1 h) with h | h
      · exact slash_not_mem_name path (List.mem_reverse.2 h)
      · exact absurd h (by decide)
    · exact hslash h
  · intro h
    simp [h] at hlong
  · intro h
    simp [h] at hlong
  · intro h
    simp [h] at hlong

/-- The endings of the outputs. -/
def endings : List String := [".text", ".data", ".sym.toml"]

theorem isName_output (path : String) {ending : String} (h : ending ∈ endings) :
    IsName (stemName path ++ ending.toList) := by
  have hall : ∀ e ∈ endings, '/' ∉ e.toList ∧ 2 < e.toList.length := by decide
  exact isName_stemName_append path (hall ending h).1 (hall ending h).2

/-- Only the last ending goes, so that the name of a symbol file keeps a part of its own. -/
theorem stem_append_symbols_ne (path : String) : stem path ++ ".sym.toml" ≠ path := by
  intro h
  rw [stem_append_eq] at h
  have hname : stemName path ++ ".sym.toml".toList = name path :=
    sibling_inj (h.trans (sibling_name path).symm)
  have hreversed : (splitLast path).1 = "lmot.mys.".toList ++ dropEnding (splitLast path).1 := by
    rw [name, stemName] at hname
    rw [← List.reverse_inj, ← hname, List.reverse_append]
    rfl
  have hdropped : dropEnding (splitLast path).1 = "mys.".toList ++ dropEnding (splitLast path).1 := by
    conv => lhs; rw [hreversed]
    rfl
  have hlength := congrArg List.length hdropped
  rw [List.length_append, show "mys.".toList.length = 4 from rfl] at hlength
  omega

end Path

end Mips

import Mips.Proofs.Path
import Mips.Tool.FileTree

/-!
# What writing does to a file tree

A tree that grows keeps what it has, and no link is added to it. Whatever a path names is named by it
afterwards too (`Grows.locate`): a path only leads through folders and links that are there. Writing a
file and making folders let a tree grow, so that what they change can be told by the paths alone
(`changes_write`, `changes_makeFolders`).

    /work/prog.s        number 0      the source
    /work/prog.text  →  prog.s        a link: writing the text replaces the source
    /work/prog.data     number 0      the same file once more: so does writing the data
-/

namespace Mips

namespace FileTree

variable {t t' : FileTree}

/-! ### Entries and contents -/

section

variable {α β : Type} [DecidableEq α] [BEq α] [LawfulBEq α]

theorem lookup_assign_self (a : α) (b : β) (xs : List (α × β)) :
    (assign a b xs).lookup a = some b := by
  induction xs with
  | nil => simp [assign]
  | cons x xs ih =>
    unfold assign
    split
    · simp
    · next hne =>
      rw [List.lookup_cons, beq_false_of_ne hne]
      exact ih

theorem lookup_assign_of_ne {a a' : α} (h : a' ≠ a) (b : β) (xs : List (α × β)) :
    (assign a b xs).lookup a' = xs.lookup a' := by
  induction xs with
  | nil =>
    change List.lookup a' [(a, b)] = none
    rw [List.lookup_cons, beq_false_of_ne h]
    rfl
  | cons x xs ih =>
    obtain ⟨a₀, b₀⟩ := x
    unfold assign
    split
    · next heq =>
      subst heq
      rw [List.lookup_cons, List.lookup_cons, beq_false_of_ne h]
    · rw [List.lookup_cons, List.lookup_cons, ih]

end

theorem entry?_nil (t : FileTree) : t.entry? [] = some .folder := rfl

theorem entry?_put_self {l : Location} (h : t.entry? l = none) (e : Entry) :
    entry? (t.put l e) l = some e := by
  have hl : l ≠ [] := by
    rintro rfl
    exact absurd h (by simp [entry?_nil])
  unfold entry?
  rw [if_neg hl]
  exact lookup_assign_self l e t.entries

theorem entry?_put_of_ne (t : FileTree) {l l' : Location} (h : l' ≠ l) (e : Entry) :
    entry? (t.put l e) l' = t.entry? l' := by
  unfold entry?
  split
  · rfl
  · exact lookup_assign_of_ne h e t.entries

theorem contents_store_self (t : FileTree) (n : Nat) (bytes : Bytes) :
    (t.store n bytes).contents n = bytes := by
  unfold contents store
  rw [lookup_assign_self]
  rfl

theorem contents_store_of_ne (t : FileTree) {n n' : Nat} (h : n' ≠ n) (bytes : Bytes) :
    (t.store n bytes).contents n' = t.contents n' := by
  unfold contents store
  rw [lookup_assign_of_ne h]

theorem lt_above_of_lookup {entries : List (Location × Entry)} {l : Location} {n : Nat}
    (h : entries.lookup l = some (.file n)) : n < above entries := by
  induction entries with
  | nil => simp at h
  | cons head rest ih =>
    obtain ⟨l', e⟩ := head
    rw [List.lookup_cons] at h
    split at h
    · obtain rfl := Option.some.inj h
      simp only [above]
      omega
    · have hrest := ih h
      cases e <;> simp only [above] <;> omega

theorem lt_unused {l : Location} {n : Nat} (h : t.entry? l = some (.file n)) : n < t.unused := by
  unfold entry? at h
  split at h
  · simp at h
  · exact lt_above_of_lookup h

/-! ### Following paths -/

/-- There is no link at `l`. -/
def NoLink (t : FileTree) (l : Location) : Prop := ∀ target, t.entry? l ≠ some (.link target)

/-- Where a part leads that is no link. -/
def down (l : Location) (part : String) : Location :=
  if Path.isName part then l ++ [part] else if part = ".." then l.dropLast else l

section

variable {jump jump' : Location → List String → Except SystemError Location}
  {l l' : Location} {part : String} {parts : List String}

theorem walk_nil (t : FileTree) (l : Location) : t.walk jump l [] = .ok l := rfl

theorem walk_of_link {target : String} (hfolder : t.entry? l = some .folder)
    (hname : Path.isName part = true) (hlink : t.entry? (l ++ [part]) = some (.link target)) :
    t.walk jump l (part :: parts) = jump (start l target) (Path.parts target ++ parts) := by
  rw [walk, hfolder]
  dsimp only
  rw [if_pos hname, hlink]
  rfl

theorem walk_of_noLink (hfolder : t.entry? l = some .folder)
    (hlink : Path.isName part = true → t.NoLink (l ++ [part])) :
    t.walk jump l (part :: parts) = t.walk jump (down l part) parts := by
  rw [walk, hfolder, down]
  dsimp only
  split
  · next hname =>
    split
    · next target htarget => exact absurd htarget (hlink hname target)
    · rfl
  · rfl

/-- A part is followed from a folder. It is a link, or it leads to a location of its own. -/
theorem walk_cases (h : t.walk jump l (part :: parts) = .ok l') :
    t.entry? l = some .folder ∧
      ((∃ target, Path.isName part = true ∧ t.entry? (l ++ [part]) = some (.link target) ∧
          jump (start l target) (Path.parts target ++ parts) = .ok l') ∨
        (Path.isName part = true → t.NoLink (l ++ [part])) ∧
          t.walk jump (down l part) parts = .ok l') := by
  have hfolder : t.entry? l = some .folder := by
    rw [walk] at h
    split at h
    · simp at h
    · assumption
    · simp at h
  refine ⟨hfolder, ?_⟩
  by_cases hlink : ∃ target, Path.isName part = true ∧ t.entry? (l ++ [part]) = some (.link target)
  · obtain ⟨target, hname, htarget⟩ := hlink
    rw [walk_of_link hfolder hname htarget] at h
    exact .inl ⟨target, hname, htarget, h⟩
  · have hnone : Path.isName part = true → t.NoLink (l ++ [part]) :=
      fun hname target htarget => hlink ⟨target, hname, htarget⟩
    rw [walk_of_noLink hfolder hnone] at h
    exact .inr ⟨hnone, h⟩

/-- One more part leads down from the folder that the others lead to. -/
theorem walk_concat {folder : Location} {last : String}
    (hjump : ∀ l parts, jump l parts = .ok folder →
      jump l (parts ++ [last]) = .ok (down folder last))
    (hfolder : t.entry? folder = some .folder)
    (hlink : Path.isName last = true → t.NoLink (folder ++ [last]))
    (h : t.walk jump l parts = .ok folder) :
    t.walk jump l (parts ++ [last]) = .ok (down folder last) := by
  induction parts generalizing l with
  | nil =>
    obtain rfl := Except.ok.inj h
    rw [List.nil_append, walk_of_noLink hfolder hlink, walk_nil]
  | cons part parts ih =>
    rw [List.cons_append]
    obtain ⟨hl, ⟨target, hname, htarget, hjumped⟩ | ⟨hpart, hrest⟩⟩ := walk_cases h
    · rw [walk_of_link hl hname htarget, ← List.append_assoc]
      exact hjump _ _ hjumped
    · rw [walk_of_noLink hl hpart]
      exact ih hrest

/-- What leads anywhere leads to a folder before its last part. -/
theorem exists_folder_of_walk {last : String}
    (hjump : ∀ l parts l', jump l (parts ++ [last]) = .ok l' →
      ∃ folder, jump l parts = .ok folder ∧ t.entry? folder = some .folder)
    (h : t.walk jump l (parts ++ [last]) = .ok l') :
    ∃ folder, t.walk jump l parts = .ok folder ∧ t.entry? folder = some .folder := by
  induction parts generalizing l with
  | nil => exact ⟨l, walk_nil t l, (walk_cases h).1⟩
  | cons part parts ih =>
    rw [List.cons_append] at h
    obtain ⟨hl, ⟨target, hname, htarget, hjumped⟩ | ⟨hpart, hrest⟩⟩ := walk_cases h
    · rw [← List.append_assoc] at hjumped
      obtain ⟨folder, hfolder⟩ := hjump _ _ _ hjumped
      exact ⟨folder, by rw [walk_of_link hl hname htarget]; exact hfolder⟩
    · obtain ⟨folder, hfolder⟩ := ih hrest
      exact ⟨folder, by rw [walk_of_noLink hl hpart]; exact hfolder⟩

theorem follow_concat {folder : Location} {last : String} {links : Nat}
    (hfolder : t.entry? folder = some .folder)
    (hlink : Path.isName last = true → t.NoLink (folder ++ [last]))
    (h : t.follow links l parts = .ok folder) :
    t.follow links l (parts ++ [last]) = .ok (down folder last) := by
  induction links generalizing l parts with
  | zero => exact walk_concat (fun _ _ h => by simp at h) hfolder hlink h
  | succ links ih => exact walk_concat (fun _ _ h => ih h) hfolder hlink h

theorem exists_folder_of_follow {last : String} {links : Nat}
    (h : t.follow links l (parts ++ [last]) = .ok l') :
    ∃ folder, t.follow links l parts = .ok folder ∧ t.entry? folder = some .folder := by
  induction links generalizing l parts l' with
  | zero => exact exists_folder_of_walk (fun _ _ _ h => by simp at h) h
  | succ links ih => exact exists_folder_of_walk (fun _ _ _ h => ih h) h

/-! ### Growing -/

/-- What is there stays, and no link is new. -/
structure Grows (t t' : FileTree) : Prop where
  kept : ∀ l, t.entry? l ≠ none → t'.entry? l = t.entry? l
  noLink : ∀ l, t.NoLink l → t'.NoLink l

theorem Grows.folder (h : t.Grows t') (hl : t.entry? l = some .folder) :
    t'.entry? l = some .folder := by
  rw [h.kept l (by simp [hl]), hl]

theorem Grows.walk (h : t.Grows t')
    (hjump : ∀ l parts l', jump l parts = .ok l' → jump' l parts = .ok l')
    (hwalk : t.walk jump l parts = .ok l') : t'.walk jump' l parts = .ok l' := by
  induction parts generalizing l with
  | nil => exact hwalk
  | cons part parts ih =>
    obtain ⟨hl, ⟨target, hname, htarget, hjumped⟩ | ⟨hpart, hrest⟩⟩ := walk_cases hwalk
    · have htarget' : t'.entry? (l ++ [part]) = some (.link target) := by
        rw [h.kept _ (by simp [htarget]), htarget]
      rw [walk_of_link (h.folder hl) hname htarget']
      exact hjump _ _ _ hjumped
    · rw [walk_of_noLink (h.folder hl) fun hname => h.noLink _ (hpart hname)]
      exact ih hrest

theorem Grows.follow (h : t.Grows t') {links : Nat} (hfollow : t.follow links l parts = .ok l') :
    t'.follow links l parts = .ok l' := by
  induction links generalizing l parts l' with
  | zero => exact h.walk (fun _ _ _ h => h) hfollow
  | succ links ih => exact h.walk (fun _ _ _ h => ih h) hfollow

end

section

variable {working l : Location} {path : String} {bytes : Bytes} {n : Nat}

theorem Grows.locate (h : t.Grows t') (hlocate : t.locate working path = .ok l) :
    t'.locate working path = .ok l := by
  unfold FileTree.locate at hlocate ⊢
  split at hlocate
  · simp at hlocate
  · next hpath =>
    rw [if_neg hpath]
    exact h.follow hlocate

/-- The path names the file with the number `n`. -/
def Names (t : FileTree) (working : Location) (path : String) (n : Nat) : Prop :=
  ∃ l, t.locate working path = .ok l ∧ t.entry? l = some (.file n)

theorem Grows.names (h : t.Grows t') (hnames : t.Names working path n) :
    t'.Names working path n := by
  obtain ⟨l, hlocate, hfile⟩ := hnames
  exact ⟨l, h.locate hlocate, by rw [h.kept l (by simp [hfile]), hfile]⟩

theorem Names.unique {n' : Nat} (h : t.Names working path n) (h' : t.Names working path n') :
    n = n' := by
  obtain ⟨l, hlocate, hfile⟩ := h
  obtain ⟨l', hlocate', hfile'⟩ := h'
  obtain rfl := Except.ok.inj (hlocate.symm.trans hlocate')
  exact Entry.file.inj (Option.some.inj (hfile.symm.trans hfile'))

theorem read_eq_contents :
    t.read working path = .contents bytes ↔ ∃ n, t.Names working path n ∧ t.contents n = bytes := by
  unfold read Names
  cases t.locate working path with
  | error cause => simp
  | ok l =>
    cases hentry : t.entry? l with
    | none => simp [hentry]
    | some e => cases e <;> simp [hentry]

theorem write_eq_ok :
    t.write working path bytes = .ok t' ↔ ∃ l, t.locate working path = .ok l ∧
      (t.entry? l = none ∧ t' = (t.put l (.file t.unused)).store t.unused bytes ∨
        ∃ n, t.entry? l = some (.file n) ∧ t' = t.store n bytes) := by
  unfold write
  cases t.locate working path with
  | error cause => simp
  | ok l =>
    cases hentry : t.entry? l with
    | none => simp [hentry, eq_comm]
    | some e => cases e <;> simp [hentry, eq_comm]

end

/-! ### Plain trees -/

/-- Everything lies in a folder, there are no links, and each file is at one location. -/
structure Plain (t : FileTree) : Prop where
  rooted : ∀ l, t.entry? l ≠ none → t.entry? l.dropLast = some .folder
  noLink : ∀ l, t.NoLink l
  single : ∀ {l l' n}, t.entry? l = some (.file n) → t.entry? l' = some (.file n) → l = l'

/-- Something new in a folder leaves a tree plain, if it is no link and no file that is there. -/
theorem Plain.put (h : t.Plain) {l : Location} {e : Entry} (hnone : t.entry? l = none)
    (habove : t.entry? l.dropLast = some .folder) (hlink : ∀ target, e ≠ .link target)
    (hnew : ∀ l' n, e = .file n → t.entry? l' ≠ some (.file n)) : (t.put l e).Plain := by
  have hself := entry?_put_self hnone e
  have hother {l' : Location} (hne : l' ≠ l) := entry?_put_of_ne t hne e
  have hkept {l' : Location} (hl' : t.entry? l' = some .folder) :
      entry? (t.put l e) l' = some .folder := by
    have hne : l' ≠ l := by
      rintro rfl
      simp [hl'] at hnone
    rw [hother hne, hl']
  refine ⟨fun l' hl' => ?_, fun l' => ?_, fun {l₁ l₂ n} h₁ h₂ => ?_⟩
  · by_cases heq : l' = l
    · rw [heq]
      exact hkept habove
    · rw [hother heq] at hl'
      exact hkept (h.rooted l' hl')
  · intro target
    by_cases heq : l' = l
    · rw [heq, hself]
      exact fun h => hlink target (Option.some.inj h)
    · rw [hother heq]
      exact h.noLink l' target
  · by_cases heq₁ : l₁ = l <;> by_cases heq₂ : l₂ = l
    · rw [heq₁, heq₂]
    · rw [heq₁, hself] at h₁
      rw [hother heq₂] at h₂
      exact absurd h₂ (hnew l₂ n (Option.some.inj h₁))
    · rw [heq₂, hself] at h₂
      rw [hother heq₁] at h₁
      exact absurd h₁ (hnew l₁ n (Option.some.inj h₂))
    · rw [hother heq₁] at h₁
      rw [hother heq₂] at h₂
      exact h.single h₁ h₂

theorem Plain.store (h : t.Plain) (n : Nat) (bytes : Bytes) : (t.store n bytes).Plain :=
  ⟨h.rooted, h.noLink, h.single⟩

/-- In a plain tree the last part of a path leads down from a folder. -/
theorem Plain.exists_folder (h : t.Plain) {links : Nat} {l l' : Location} {parts : List String}
    {last : String} (hfollow : t.follow links l (parts ++ [last]) = .ok l') :
    ∃ folder, t.follow links l parts = .ok folder ∧ t.entry? folder = some .folder ∧
      l' = down folder last := by
  obtain ⟨folder, hinit, hfolder⟩ := exists_folder_of_follow hfollow
  rw [follow_concat hfolder (fun _ => h.noLink _) hinit] at hfollow
  exact ⟨folder, hinit, hfolder, (Except.ok.inj hfollow).symm⟩

theorem Plain.folder_dropLast_down (h : t.Plain) {folder : Location} {part : String}
    (hfolder : t.entry? folder = some .folder) :
    t.entry? (down folder part).dropLast = some .folder := by
  have habove := h.rooted folder (by simp [hfolder])
  unfold down
  split
  · rwa [List.dropLast_concat]
  · split
    · exact h.rooted _ (by simp [habove])
    · exact habove

/-- A path ends in a folder of a plain tree or right below one. -/
theorem Plain.folder_above (h : t.Plain) {working l : Location} {path : String}
    (hlocate : t.locate working path = .ok l) : t.entry? l.dropLast = some .folder := by
  obtain ⟨init, hparts⟩ := Path.exists_parts_sibling path
  have hlast := hparts _ (Path.slash_not_mem_name path)
  rw [Path.sibling_name] at hlast
  unfold locate at hlocate
  split at hlocate
  · simp at hlocate
  rw [hlast] at hlocate
  obtain ⟨folder, -, hfolder, rfl⟩ := h.exists_folder hlocate
  exact h.folder_dropLast_down hfolder

/-! ### Changes -/

/-- What changes from `t` to `t'`: files are written, and folders are made where nothing was. -/
structure Changes (written : Nat → Bytes → Prop) (made : Location → Prop) (t t' : FileTree) :
    Prop where
  entries : ∀ l, t'.entry? l = t.entry? l ∨ t.entry? l = none ∧
    (t'.entry? l = some .folder ∧ made l ∨
      ∃ n, t'.entry? l = some (.file n) ∧ written n (t'.contents n))
  contents : ∀ n, t'.contents n = t.contents n ∨ written n (t'.contents n)
  plain : t.Plain → t'.Plain

namespace Changes

variable {written written' : Nat → Bytes → Prop} {made made' : Location → Prop}

theorem refl (t : FileTree) : Changes written made t t :=
  ⟨fun _ => .inl rfl, fun _ => .inl rfl, id⟩

theorem mono (h : Changes written made t t')
    (hwritten : ∀ n bytes, written n bytes → written' n bytes) (hmade : ∀ l, made l → made' l) :
    Changes written' made' t t' := by
  refine ⟨fun l => (h.entries l).imp id fun ⟨hnone, hnew⟩ => ⟨hnone, ?_⟩,
    fun n => (h.contents n).imp id (hwritten n _), h.plain⟩
  exact hnew.imp (.imp id (hmade l)) fun ⟨n, hfile, hn⟩ => ⟨n, hfile, hwritten n _ hn⟩

theorem trans {t'' : FileTree} (h : Changes written made t t') (h' : Changes written made t' t'') :
    Changes written made t t'' := by
  refine ⟨fun l => ?_, fun n => ?_, fun hplain => h'.plain (h.plain hplain)⟩
  · rcases h'.entries l with hsame | ⟨hnone, hnew⟩
    · rw [hsame]
      refine (h.entries l).imp id fun ⟨hnone, hnew⟩ => ⟨hnone, hnew.imp id ?_⟩
      rintro ⟨n, hfile, hn⟩
      refine ⟨n, hfile, ?_⟩
      rcases h'.contents n with hkept | hn'
      · rwa [hkept]
      · exact hn'
    · rcases h.entries l with hsame | ⟨hnone', -⟩
      · exact .inr ⟨hsame ▸ hnone, hnew⟩
      · exact .inr ⟨hnone', hnew⟩
  · rcases h'.contents n with hkept | hn
    · rw [hkept]
      exact h.contents n
    · exact .inr hn

theorem grows (h : Changes written made t t') : t.Grows t' := by
  refine ⟨fun l hl => (h.entries l).resolve_right fun hnew => hl hnew.1, fun l hl => ?_⟩
  rcases h.entries l with hsame | ⟨-, ⟨hfolder, -⟩ | ⟨n, hfile, -⟩⟩
  · exact fun target => hsame ▸ hl target
  · simp [NoLink, hfolder]
  · simp [NoLink, hfile]

end Changes

/-- What a location shows. -/
inductive Item where
  | file (contents : Bytes)
  | folder
  | link (target : String)
  deriving DecidableEq

/-- What there is to see at a location. -/
def item? (t : FileTree) (l : Location) : Option Item :=
  match t.entry? l with
  | none => none
  | some (.file n) => some (.file (t.contents n))
  | some .folder => some .folder
  | some (.link target) => some (.link target)

/-- A location shows what it showed, unless there is a file that was written or a folder that was
made. -/
theorem Changes.item? {written : Nat → Bytes → Prop} {made : Location → Prop}
    (h : Changes written made t t') (l : Location) :
    t'.item? l = t.item? l ∨ (∃ n, t'.entry? l = some (.file n) ∧ written n (t'.contents n)) ∨
      t.entry? l = none ∧ t'.entry? l = some .folder ∧ made l := by
  rcases h.entries l with hsame | ⟨hnone, hfolder | hfile⟩
  · cases hentry : t.entry? l with
    | none => exact .inl (by simp [FileTree.item?, hsame, hentry])
    | some e =>
      cases e with
      | file n =>
        rcases h.contents n with hkept | hn
        · exact .inl (by simp [FileTree.item?, hsame, hentry, hkept])
        · exact .inr (.inl ⟨n, by rw [hsame, hentry], hn⟩)
      | folder => exact .inl (by simp [FileTree.item?, hsame, hentry])
      | link target => exact .inl (by simp [FileTree.item?, hsame, hentry])
  · exact .inr (.inr ⟨hnone, hfolder⟩)
  · exact .inr (.inl hfile)

/-! ### Writing -/

theorem changes_store (t : FileTree) (n : Nat) (bytes : Bytes) :
    Changes (fun n' bytes' => n' = n ∧ bytes' = bytes) (fun _ => False) t (t.store n bytes) := by
  refine ⟨fun _ => .inl rfl, fun n' => ?_, fun h => h.store n bytes⟩
  by_cases heq : n' = n
  · rw [heq]
    exact .inr ⟨rfl, contents_store_self t n bytes⟩
  · exact .inl (contents_store_of_ne t heq bytes)

theorem changes_put_file {l : Location} (hnone : t.entry? l = none)
    (habove : t.Plain → t.entry? l.dropLast = some .folder) (bytes : Bytes) :
    Changes (fun n bytes' => n = t.unused ∧ bytes' = bytes) (fun _ => False) t
      ((t.put l (.file t.unused)).store t.unused bytes) := by
  have hstore := changes_store (t.put l (.file t.unused)) t.unused bytes
  refine ⟨fun l' => ?_, hstore.contents, fun h => hstore.plain ?_⟩
  · by_cases heq : l' = l
    · rw [heq]
      exact .inr ⟨hnone, .inr ⟨t.unused, entry?_put_self hnone _, rfl, contents_store_self _ _ _⟩⟩
    · exact .inl (entry?_put_of_ne t heq _)
  · refine h.put hnone (habove h) (by simp) fun l' n hn hfile => ?_
    have hlt := lt_unused hfile
    rw [← Entry.file.inj hn] at hlt
    omega

section

variable {working : Location} {path : String} {bytes : Bytes}

/-- Writing changes one file, which the path names then. -/
theorem changes_write (h : t.write working path bytes = .ok t') :
    ∃ n, t'.Names working path n ∧ t'.contents n = bytes ∧
      Changes (fun n' bytes' => n' = n ∧ bytes' = bytes) (fun _ => False) t t' := by
  obtain ⟨l, hlocate, ⟨hnone, rfl⟩ | ⟨n, hfile, rfl⟩⟩ := write_eq_ok.1 h
  · have hchanges := changes_put_file hnone (fun hplain => hplain.folder_above hlocate) bytes
    exact ⟨t.unused, ⟨l, hchanges.grows.locate hlocate, entry?_put_self hnone _⟩,
      contents_store_self _ _ _, hchanges⟩
  · have hchanges := changes_store t n bytes
    exact ⟨n, ⟨l, hchanges.grows.locate hlocate, hfile⟩, contents_store_self t n bytes, hchanges⟩

end

/-! ### Making folders -/

theorem makeFolder_eq_ok {l : Location} {init : List String} {last : String}
    (h : t.makeFolder l init last = .ok t') :
    t' = t ∨ ∃ folder, t.follow maxLinks l init = .ok folder ∧ t.entry? folder = some .folder ∧
      Path.isName last = true ∧ t.entry? (folder ++ [last]) = none ∧
      t' = t.put (folder ++ [last]) .folder := by
  unfold makeFolder at h
  split at h
  · exact .inl (Except.ok.inj h).symm
  · split at h
    · simp at h
    · next folder hfolder =>
      split at h
      · next hfree =>
        exact .inr ⟨folder, hfolder, hfree.1, hfree.2.1, hfree.2.2, (Except.ok.inj h).symm⟩
      · simp at h

theorem changes_put_folder {l : Location} (hnone : t.entry? l = none)
    (habove : t.entry? l.dropLast = some .folder) :
    Changes (fun _ _ => False) (· = l) t (t.put l .folder) := by
  refine ⟨fun l' => ?_, fun _ => .inl rfl, fun h => h.put hnone habove (by simp) (by simp)⟩
  by_cases heq : l' = l
  · rw [heq]
    exact .inr ⟨hnone, .inl ⟨entry?_put_self hnone _, rfl⟩⟩
  · exact .inl (entry?_put_of_ne t heq _)

/-- Each folder that is made is where a first part of the path leads. -/
theorem changes_makeFolders (l : Location) (parts : List String) :
    ∀ (t : FileTree) (init : List String), Changes (fun _ _ => False)
      (fun l' => ∃ way, way <+: init ++ parts ∧
        (t.makeFolders l init parts).2.follow maxLinks l way = .ok l')
      t (t.makeFolders l init parts).2 := by
  induction parts with
  | nil => exact fun t init => .refl t
  | cons part parts ih =>
    intro t init
    rw [makeFolders]
    split
    · exact .refl t
    · next t₁ hmake =>
      have hrest := ih t₁ (init ++ [part])
      rw [List.append_assoc, List.singleton_append] at hrest
      rcases makeFolder_eq_ok hmake with rfl | ⟨folder, hinit, hfolder, hname, hnone, rfl⟩
      · exact hrest
      · have hput := changes_put_folder hnone (by rwa [List.dropLast_concat])
        refine (hput.mono (fun _ _ h => h) ?_).trans hrest
        rintro l' rfl
        refine ⟨init ++ [part], ⟨parts, by simp⟩, hrest.grows.follow ?_⟩
        have hlast : t.put (folder ++ [part]) .folder |>.NoLink (folder ++ [part]) := by
          simp [NoLink, entry?_put_self hnone]
        have hdown : down folder part = folder ++ [part] := if_pos hname
        rw [follow_concat (hput.grows.folder hfolder) (fun _ => hlast) (hput.grows.follow hinit),
          hdown]

end FileTree

end Mips

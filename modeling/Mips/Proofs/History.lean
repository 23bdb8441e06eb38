import Mathlib.Data.List.Dedup
import Mathlib.Data.List.Induction
import Mips.Proofs.ByteOrder
import Mips.Proofs.Symbol

/-!
# A symbol table is determined by its history

A table starts empty and is changed by definitions and exports, in any order and with any names. A
definition of a name that has another address is refused and changes nothing. So what is found under
a name can be told from the changes that name it: the first definition gives the address, the last
one that repeats this address gives the section, and one export is enough to export.

    history    define x 4 text, export x, define x 8 data, define x 4 none
    x                4             4             4               4
                     text          text          text            none
                                   exported      exported        exported
                                                 (refused)
-/

namespace Mips

/-- In an ordered list every symbol is the first one of its name. -/
theorem Symbol.find?_of_mem {s : Symbol} : ∀ {symbols : List Symbol},
    Symbol.Ordered symbols → s ∈ symbols → symbols.find? (·.name = s.name) = some s
  | t :: rest, ho, hmem => by
    obtain ⟨hfirst, hothers⟩ := List.pairwise_cons.1 ho
    rcases List.mem_cons.1 hmem with rfl | hmem
    · simp
    · have hne : t.name ≠ s.name := fun heq => String.lt_irrefl _ (heq ▸ hfirst s hmem)
      rw [List.find?_cons, decide_eq_false hne]
      exact Symbol.find?_of_mem hothers hmem

namespace SymbolTable

/-! ### Histories -/

/-- A change of a symbol table. -/
inductive Change where
  | define (name : String) (address : Word) (home : Option Section)
  | markGlobal (name : String)
  deriving DecidableEq, Repr

namespace Change

/-- The name that is changed. -/
def name : Change → String
  | define name _ _ => name
  | markGlobal name => name

/-- The address and the section that are to be given to `name`. -/
def definition? (name : String) : Change → Option (Word × Option Section)
  | define n address home => if n = name then some (address, home) else none
  | markGlobal _ => none

end Change

/-- The table behind a change. A definition that is refused leaves the table as it is. -/
def change (t : SymbolTable) : Change → SymbolTable
  | .define name address home =>
    match t.define name address home with
    | .ok u => u
    | .error _ => t
  | .markGlobal name => t.markGlobal name

/-- The table behind the changes of a history. -/
def after (history : List Change) : SymbolTable := history.foldl change empty

/-- The addresses and sections that were to be given to `name`, in their order. -/
def definitions (history : List Change) (name : String) : List (Word × Option Section) :=
  history.filterMap (Change.definition? name)

/-- The address in the first definition of `name`. -/
def firstAddress? (history : List Change) (name : String) : Option Word :=
  (definitions history name).head?.map (·.1)

/-- The section in the last definition of `name` with the address of the first one. -/
def lastHome? (history : List Change) (name : String) : Option Section :=
  ((definitions history name).filter (some ·.1 = firstAddress? history name)).getLast?.bind (·.2)

/-- What the history says of `name`. -/
def entry (history : List Change) (name : String) : Symbol :=
  { name, address := firstAddress? history name, home := lastHome? history name
    isGlobal := decide (.markGlobal name ∈ history) }

/-! ### What one change adds to a history -/

section Concat

variable (history : List Change) {c : Change} {name : String} {a : Word} {home : Option Section}

theorem after_concat (c : Change) : after (history ++ [c]) = (after history).change c := by
  rw [after, List.foldl_append]
  rfl

theorem definitions_concat (c : Change) (name : String) :
    definitions (history ++ [c]) name = definitions history name ++ (c.definition? name).toList := by
  rw [definitions, List.filterMap_append]
  cases h : c.definition? name <;> simp [definitions, h]

theorem Change.definition?_of_ne (h : name ≠ c.name) : c.definition? name = none := by
  cases c with
  | define n a home => exact if_neg (Ne.symm h)
  | markGlobal n => rfl

/-- Without a further definition only the export can be new. -/
theorem entry_of_definitions {history history' : List Change}
    (h : definitions history' name = definitions history name) :
    entry history' name =
      { entry history name with isGlobal := decide (.markGlobal name ∈ history') } := by
  have hfirst : firstAddress? history' name = firstAddress? history name := by
    rw [firstAddress?, h, firstAddress?]
  have hhome : lastHome? history' name = lastHome? history name := by
    rw [lastHome?, hfirst, h, lastHome?]
  simp only [entry, hfirst, hhome]

/-- A change of another name says nothing of `name`. -/
theorem entry_concat_of_ne (h : name ≠ c.name) :
    entry (history ++ [c]) name = entry history name := by
  have hdefinitions : definitions (history ++ [c]) name = definitions history name := by
    rw [definitions_concat, Change.definition?_of_ne h]
    exact List.append_nil _
  have hexport : Change.markGlobal name ≠ c := by
    rintro rfl
    exact h rfl
  rw [entry_of_definitions hdefinitions]
  simp [entry, hexport]

theorem entry_concat_markGlobal (name : String) :
    entry (history ++ [.markGlobal name]) name =
      { entry history name with isGlobal := true } := by
  have hdefinitions : definitions (history ++ [.markGlobal name]) name =
      definitions history name := by
    rw [definitions_concat]
    exact List.append_nil _
  rw [entry_of_definitions hdefinitions]
  simp

theorem firstAddress?_concat_define (name : String) (a : Word) (home : Option Section) :
    firstAddress? (history ++ [.define name a home]) name =
      (firstAddress? history name).or (some a) := by
  rw [firstAddress?, definitions_concat, firstAddress?]
  cases definitions history name <;> simp [Change.definition?]

/-- A definition with the address that the name has, or the first one, gives the section. -/
theorem entry_concat_define (h : ∀ first, firstAddress? history name = some first → first = a) :
    entry (history ++ [.define name a home]) name =
      { entry history name with address := some a, home } := by
  have hfirst : firstAddress? (history ++ [.define name a home]) name = some a := by
    rw [firstAddress?_concat_define]
    cases hf : firstAddress? history name with
    | none => rfl
    | some first => rw [h first hf]; rfl
  have hhome : lastHome? (history ++ [.define name a home]) name = home := by
    rw [lastHome?, hfirst, definitions_concat, List.filter_append]
    simp [Change.definition?]
  simp only [entry, hfirst, hhome, List.mem_append, List.mem_singleton, reduceCtorEq, or_false]

/-- A definition with another address is not taken up. -/
theorem entry_concat_refused {first : Word} (h : firstAddress? history name = some first)
    (hne : first ≠ a) :
    entry (history ++ [.define name a home]) name = entry history name := by
  have hfirst : firstAddress? (history ++ [.define name a home]) name =
      firstAddress? history name := by
    rw [firstAddress?_concat_define, h]
    rfl
  have hhome : lastHome? (history ++ [.define name a home]) name = lastHome? history name := by
    rw [lastHome?, hfirst, definitions_concat, List.filter_append, lastHome?, h]
    simp [Change.definition?, Ne.symm hne]
  simp only [entry, hfirst, hhome, List.mem_append, List.mem_singleton, reduceCtorEq, or_false]

/-- A name that the history does not name has nothing to its entry. -/
theorem entry_of_not_mem : ∀ {history : List Change}, name ∉ history.map Change.name →
    entry history name = { name } := by
  intro history
  induction history using List.reverseRecOn with
  | nil => intro _; rfl
  | append_singleton history c ih =>
    intro h
    rw [List.map_append, List.mem_append, not_or, List.map_singleton, List.mem_singleton] at h
    rw [entry_concat_of_ne history h.2, ih h.1]

end Concat

/-! ### What one change does to a table -/

theorem get?_change_of_ne (t : SymbolTable) {c : Change} {other : String} (h : other ≠ c.name) :
    (t.change c).get? other = t.get? other := by
  cases c with
  | markGlobal name => exact get?_alter_of_ne t _ h
  | define name a home =>
    rw [change]
    split
    · next u hu =>
      rw [(define_eq_ok hu).1]
      exact get?_alter_of_ne t _ h
    · rfl

theorem define_eq_error_iff {t : SymbolTable} {name : String} {a : Word} {home : Option Section}
    {e : Redefinition} :
    t.define name a home = .error e ↔ t.address? name = some e.previous ∧ e.previous ≠ a := by
  unfold define
  cases hp : t.address? name with
  | none => simp
  | some previous =>
    by_cases heq : previous = a
    · simp only [heq, if_true, reduceCtorEq, Option.some.injEq, false_iff, not_and, not_not]
      exact Eq.symm
    · simp only [heq, if_false, Except.error.injEq, Option.some.injEq]
      constructor
      · rintro rfl
        exact ⟨rfl, heq⟩
      · rintro ⟨rfl, -⟩
        rfl

/-- A definition that is accepted sets the address and the section, and keeps the export. -/
theorem get?_bind_self (t : SymbolTable) (name : String) (a : Word) (home : Option Section) :
    (t.bind name a home).get? name =
      some { (t.get? name).getD { name } with name, address := some a, home } :=
  get?_alter_self t name _

theorem get?_markGlobal_self (t : SymbolTable) (name : String) :
    (t.markGlobal name).get? name =
      some { (t.get? name).getD { name } with name, isGlobal := true } :=
  get?_alter_self t name _

theorem address?_eq_getD (t : SymbolTable) (name : String) :
    t.address? name = ((t.get? name).getD { name }).address := by
  rw [address?]
  cases t.get? name <;> rfl

/-! ### The table behind a history -/

theorem firstAddress?_of_not_mem {history : List Change} {name : String}
    (h : name ∉ history.map Change.name) : firstAddress? history name = none :=
  congrArg Symbol.address (entry_of_not_mem h)

/-- What is found under a name is what the history says of it. -/
theorem get?_after (history : List Change) (name : String) :
    (after history).get? name =
      if name ∈ history.map Change.name then some (entry history name) else none := by
  induction history using List.reverseRecOn with
  | nil => rfl
  | append_singleton history c ih =>
    have hentry : ((after history).get? name).getD { name } = entry history name := by
      rw [ih]
      split
      · rfl
      · next hnot => exact (entry_of_not_mem hnot).symm
    have haddress : (after history).address? name = firstAddress? history name := by
      rw [address?_eq_getD, hentry, entry]
    rw [after_concat]
    by_cases hname : name = c.name
    · rw [if_pos (by simp [hname])]
      cases c with
      | markGlobal n =>
        obtain rfl : name = n := hname
        rw [change, get?_markGlobal_self, hentry, entry_concat_markGlobal, entry]
      | define n a home =>
        obtain rfl : name = n := hname
        rw [change]
        split
        · next u hu =>
          obtain ⟨rfl, hsame⟩ := define_eq_ok hu
          rw [get?_bind_self, hentry, entry_concat_define history (haddress ▸ hsame), entry]
        · next e he =>
          obtain ⟨hprevious, hne⟩ := define_eq_error_iff.1 he
          rw [haddress] at hprevious
          have hmem : name ∈ history.map Change.name := by
            by_contra hnot
            simp [firstAddress?_of_not_mem hnot] at hprevious
          rw [entry_concat_refused history hprevious hne, ih, if_pos hmem]
    · rw [get?_change_of_ne _ hname, ih, entry_concat_of_ne history hname]
      simp [hname]

theorem address?_after (history : List Change) (name : String) :
    (after history).address? name = firstAddress? history name := by
  rw [address?, get?_after]
  split
  · rfl
  · next hnot => exact (firstAddress?_of_not_mem hnot).symm

/-- Changes of other names can be left out of a history. -/
theorem get?_after_filter (history : List Change) (name : String) :
    (after (history.filter (·.name = name))).get? name = (after history).get? name := by
  have hdefinitions : definitions (history.filter (·.name = name)) name =
      definitions history name := by
    rw [definitions, List.filterMap_filter]
    refine List.filterMap_congr fun c _ => ?_
    by_cases hname : c.name = name
    · simp [hname]
    · simp [hname, Change.definition?_of_ne (Ne.symm hname)]
  have hnamed : name ∈ (history.filter (·.name = name)).map Change.name ↔
      name ∈ history.map Change.name := by
    simp
  have hexport : Change.markGlobal name ∈ history.filter (·.name = name) ↔
      Change.markGlobal name ∈ history := by
    simp [Change.name]
  rw [get?_after, get?_after, entry_of_definitions hdefinitions]
  simp only [hnamed, hexport, entry]

/-! ### The list of symbols -/

theorem name_of_get? {t : SymbolTable} {name : String} {s : Symbol} (h : t.get? name = some s) :
    s.name = name := by
  simpa using List.find?_some h

theorem mem_symbols_iff {t : SymbolTable} {s : Symbol} :
    s ∈ t.symbols ↔ t.get? s.name = some s :=
  ⟨Symbol.find?_of_mem t.ordered, List.mem_of_find?_eq_some⟩

/-- There are as many symbols as there are different names in the history. -/
theorem size_after (history : List Change) :
    (after history).size = (history.map Change.name).dedup.length := by
  have hnodup : ((after history).symbols.map (·.name)).Nodup := by
    refine List.pairwise_map.2 ((after history).ordered.imp ?_)
    intro s u hlt heq
    exact String.lt_irrefl _ (heq ▸ hlt)
  have hperm : ((after history).symbols.map (·.name)).Perm (history.map Change.name).dedup := by
    refine (List.perm_ext_iff_of_nodup hnodup (List.nodup_dedup _)).2 fun name => ?_
    rw [List.mem_dedup, List.mem_map]
    constructor
    · rintro ⟨s, hs, rfl⟩
      have hget := mem_symbols_iff.1 hs
      rw [get?_after] at hget
      by_contra hnot
      simp [hnot] at hget
    · intro hmem
      have hget := get?_after history name
      rw [if_pos hmem] at hget
      exact ⟨_, List.mem_of_find?_eq_some hget, rfl⟩
  rw [size, ← hperm.length_eq, List.length_map]

/-! ### The whole table -/

/-- A refused definition finds its name in the table, so that there is no entry to be made for it. -/
theorem alter_id_of_define {t : SymbolTable} {name : String} {a : Word} {home : Option Section}
    {e : Redefinition} (h : t.define name a home = .error e) : t.alter name id = t := by
  have hprevious := (define_eq_error_iff.1 h).1
  cases hs : t.get? name with
  | none => simp [address?, hs] at hprevious
  | some s =>
    have hlist : Symbol.alter name id t.symbols = t.symbols :=
      Symbol.alter_eq_self rfl t.ordered hs
    cases t
    simp only [alter, hlist]

/-- The table holds what the history says, name by name and as a list. -/
structure Records (history : List Change) (t : SymbolTable) : Prop where
  /-- A name is in the table exactly if a change names it. -/
  named : ∀ name, (t.get? name).isSome = true ↔ ∃ c ∈ history, c.name = name
  /-- Every entry is found under its own name and says what the changes of this name say. -/
  found : ∀ name s, t.get? name = some s → s.name = name ∧
    s.address = firstAddress? history name ∧ s.home = lastHome? history name ∧
    (s.isGlobal = true ↔ .markGlobal name ∈ history)
  /-- A definition is refused, with the first address, exactly if it has another one. -/
  refused : ∀ name a home e, t.define name a home = .error e ↔
    firstAddress? history name = some e.previous ∧ a ≠ e.previous
  /-- A refused definition changes nothing, and makes no entry on its way. -/
  unchanged : ∀ name a home e, t.define name a home = .error e →
    after (history ++ [.define name a home]) = t ∧ t.alter name id = t
  /-- A change of one name leaves all others as they are. -/
  apart : ∀ c other, other ≠ c.name → (after (history ++ [c])).get? other = t.get? other
  /-- What other names went through does not matter for a name. -/
  own : ∀ name, t.get? name = (after (history.filter (·.name = name))).get? name
  /-- The list of symbols has each entry once, and their names go up by their bytes. -/
  listed : ∀ s, s ∈ t.symbols ↔ t.get? s.name = some s
  increasing : t.symbols.Pairwise fun s u =>
    s.name.toUTF8.data.toList < u.name.toUTF8.data.toList
  size : t.symbols.length = t.size ∧ t.size = (history.map Change.name).dedup.length
  /-- A name stands for its first address, or for a zero that is still open. -/
  resolved : ∀ name, t.resolve name =
    match firstAddress? history name with
    | some first => ⟨first, false⟩
    | none => ⟨0, true⟩

/-- A symbol table is determined by its history. -/
theorem records_after (history : List Change) : Records history (after history) := by
  refine ⟨?_, ?_, ?_, ?_, ?_, ?_, ?_, ?_, ?_, ?_⟩
  · intro name
    rw [get?_after, ← List.mem_map]
    split
    · next hmem => simpa using hmem
    · next hnot => simpa using hnot
  · intro name s hs
    have hname := name_of_get? hs
    rw [get?_after] at hs
    split at hs
    · obtain rfl := Option.some.inj hs
      exact ⟨rfl, rfl, rfl, decide_eq_true_iff⟩
    · simp at hs
  · intro name a home e
    rw [define_eq_error_iff, address?_after, ne_comm]
  · intro name a home e he
    refine ⟨?_, alter_id_of_define he⟩
    rw [after_concat, change, he]
  · intro c other hne
    rw [after_concat, get?_change_of_ne _ hne]
  · intro name
    exact (get?_after_filter history name).symm
  · intro s
    exact mem_symbols_iff
  · exact (after history).ordered.imp Text.toUTF8_lt
  · exact ⟨rfl, size_after history⟩
  · intro name
    cases hfirst : firstAddress? history name with
    | none => simp [resolve, address?_after, hfirst]
    | some first => simp [resolve, address?_after, hfirst]

end SymbolTable

end Mips

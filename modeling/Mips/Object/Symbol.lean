import Mips.Machine.Word
import Mips.Object.Section

/-!
# Symbols

A symbol is a name that a label, a constant or a declaration brought into a module. The symbol
table holds each name once, in order, and an address once given to a name stays.
-/

namespace Mips

/-- Whether `c` may stand in a name. -/
def isNameChar (c : Char) : Bool := c.isAlphanum || c == '_'

/-- Whether `c` may start a name. -/
def isNameStart (c : Char) : Bool := c.isAlpha || c == '_'

/-- Whether `name` may be the name of a symbol: letters, digits and `_`, of which the first is no
digit, and at least one. -/
def isLegalName (name : String) : Bool :=
  match name.toList with
  | [] => false
  | c :: cs => !c.isDigit && (c :: cs).all isNameChar

/-- A name of a module. -/
structure Symbol where
  name : String
  /-- Absent until a label or a constant gives it. -/
  address : Option Word := none
  /-- The section of a label; absent for constants and names that are only declared. -/
  home : Option Section := none
  /-- Whether other modules may refer to the name. -/
  isGlobal : Bool := false
  deriving DecidableEq, Repr

/-- A place that has to be filled in once the address of `symbol` is known. -/
structure Relocation where
  /-- The address of the instruction whose field refers to the symbol. -/
  address : Word
  symbol : String
  deriving DecidableEq, Repr

/-- A name was given an address while it had another. -/
structure Redefinition where
  previous : Word
  deriving DecidableEq, Repr

namespace Redefinition

/-- What is wrong, as a phrase about the name. -/
def message (e : Redefinition) : String := "already defined at " ++ e.previous.hex8

end Redefinition

/-- What a name stands for. -/
structure Resolution where
  value : Word
  /-- Whether the address is not known, so that the value only keeps its place. -/
  isRelocatable : Bool
  deriving DecidableEq, Repr

/-! ### Ordered lists of symbols -/

namespace Symbol

/-- The list with `f` applied to the symbol `name`, which is put in its place if it is missing. The
name of a symbol never changes. -/
def alter (name : String) (f : Symbol → Symbol) : List Symbol → List Symbol
  | [] => [{ f { name := name } with name := name }]
  | s :: rest =>
    if name < s.name then { f { name := name } with name := name } :: s :: rest
    else if name = s.name then { f s with name := name } :: rest
    else s :: alter name f rest

/-- Each name comes once, and the names go up. -/
def Ordered (symbols : List Symbol) : Prop := symbols.Pairwise (·.name < ·.name)

theorem mem_alter {name : String} {f : Symbol → Symbol} {s : Symbol} :
    ∀ {symbols : List Symbol}, s ∈ alter name f symbols → s.name = name ∨ s ∈ symbols
  | [], h => by
    simp only [alter, List.mem_singleton] at h
    exact .inl (h ▸ rfl)
  | t :: rest, h => by
    unfold alter at h
    split at h
    · rcases List.mem_cons.1 h with h | h
      · exact .inl (h ▸ rfl)
      · exact .inr h
    · split at h
      · rcases List.mem_cons.1 h with h | h
        · exact .inl (h ▸ rfl)
        · exact .inr (List.mem_cons_of_mem _ h)
      · rcases List.mem_cons.1 h with h | h
        · exact .inr (h ▸ List.mem_cons_self)
        · exact (mem_alter h).imp id (List.mem_cons_of_mem _)

theorem Ordered.alter {name : String} {f : Symbol → Symbol} :
    ∀ {symbols : List Symbol}, Ordered symbols → Ordered (alter name f symbols)
  | [], _ => List.pairwise_singleton _ _
  | t :: rest, h => by
    have ⟨first, others⟩ := List.pairwise_cons.1 h
    unfold Symbol.alter
    split
    · next lt =>
      refine List.pairwise_cons.2 ⟨fun u hu => ?_, h⟩
      rcases List.mem_cons.1 hu with rfl | hu
      · exact lt
      · exact String.lt_trans lt (first u hu)
    · next notLt =>
      split
      · next eq =>
        exact List.pairwise_cons.2 ⟨fun u hu => eq ▸ first u hu, others⟩
      · next ne =>
        refine List.pairwise_cons.2 ⟨fun u hu => ?_, Ordered.alter others⟩
        rcases mem_alter hu with rfl | hu
        · exact Std.lt_of_le_of_ne (String.not_lt.1 notLt) (Ne.symm ne)
        · exact first u hu

/-- Altering a symbol changes what is found under its name, and adds it if it was missing. -/
theorem find?_alter_self (name : String) (f : Symbol → Symbol) :
    ∀ {symbols : List Symbol}, Ordered symbols →
    (alter name f symbols).find? (·.name = name) =
      some { f ((symbols.find? (·.name = name)).getD { name }) with name }
  | [], _ => by simp [alter]
  | s :: rest, h => by
    have ⟨first, others⟩ := List.pairwise_cons.1 h
    unfold alter
    split
    · next lt =>
      have missing : (s :: rest).find? (·.name = name) = none := by
        rw [List.find?_eq_none]
        intro t ht
        rcases List.mem_cons.1 ht with rfl | ht
        · simpa using fun eq => String.lt_irrefl _ (eq ▸ lt)
        · simpa using fun eq => String.lt_irrefl _ (eq ▸ String.lt_trans lt (first t ht))
      simp [missing]
    · split
      · next eq => simp [eq]
      · next ne => simp [Ne.symm ne, find?_alter_self name f others]

/-- Altering a symbol changes nothing under other names. -/
theorem find?_alter_of_ne {name other : String} (f : Symbol → Symbol) (ne : other ≠ name) :
    ∀ (symbols : List Symbol),
    (alter name f symbols).find? (·.name = other) = symbols.find? (·.name = other)
  | [] => by simp [alter, ne.symm]
  | s :: rest => by
    unfold alter
    split
    · simp [ne.symm]
    · split
      · next eq => simp [← eq, ne.symm]
      · simp [List.find?_cons, find?_alter_of_ne f ne rest]

end Symbol

/-! ### The symbol table -/

/-- The symbols of a module, in the order of their names. -/
structure SymbolTable where
  symbols : List Symbol
  ordered : Symbol.Ordered symbols
  deriving DecidableEq, Repr

namespace SymbolTable

/-- The table without symbols. -/
def empty : SymbolTable := ⟨[], List.Pairwise.nil⟩

instance : Inhabited SymbolTable := ⟨empty⟩

/-- The number of symbols. -/
def size (t : SymbolTable) : Nat := t.symbols.length

/-- Whether there are no symbols. -/
def isEmpty (t : SymbolTable) : Bool := t.symbols.isEmpty

/-- The symbol `name`. -/
def get? (t : SymbolTable) (name : String) : Option Symbol := t.symbols.find? (·.name = name)

/-- Apply `f` to the symbol `name`, which is added if it is missing. -/
def alter (t : SymbolTable) (name : String) (f : Symbol → Symbol) : SymbolTable :=
  ⟨Symbol.alter name f t.symbols, t.ordered.alter⟩

/-- The address of `name`, if it is known. -/
def address? (t : SymbolTable) (name : String) : Option Word := (t.get? name).bind (·.address)

theorem get?_alter_self (t : SymbolTable) (name : String) (f : Symbol → Symbol) :
    (t.alter name f).get? name = some { f ((t.get? name).getD { name }) with name } :=
  Symbol.find?_alter_self name f t.ordered

theorem get?_alter_of_ne (t : SymbolTable) {name other : String} (f : Symbol → Symbol)
    (ne : other ≠ name) : (t.alter name f).get? other = t.get? other :=
  Symbol.find?_alter_of_ne f ne t.symbols

/-- Set the address and the section of `name`, whatever they were. -/
def bind (t : SymbolTable) (name : String) (address : Word) (home : Option Section) : SymbolTable :=
  t.alter name fun s => { s with address := some address, home := home }

/-- Give `name` an address. The same address may be given again; then the section is the new one. -/
def define (t : SymbolTable) (name : String) (address : Word) (home : Option Section) :
    Except Redefinition SymbolTable :=
  match t.address? name with
  | some previous => if previous = address then .ok (t.bind name address home) else .error ⟨previous⟩
  | none => .ok (t.bind name address home)

/-- Let other modules refer to `name`, which need not have an address. -/
def markGlobal (t : SymbolTable) (name : String) : SymbolTable :=
  t.alter name fun s => { s with isGlobal := true }

/-- What `name` stands for: its address, or zero as long as none is known. -/
def resolve (t : SymbolTable) (name : String) : Resolution :=
  match t.address? name with
  | some address => ⟨address, false⟩
  | none => ⟨0, true⟩

/-- Whether `name` is the name of a label. -/
def isLabel (t : SymbolTable) (name : String) : Bool :=
  ((t.get? name).bind (·.home)).isSome

end SymbolTable

end Mips

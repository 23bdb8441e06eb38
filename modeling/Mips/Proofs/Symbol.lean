import Mips.Object.Symbol

/-!
# Growth of the symbol table

Nothing that is done to a symbol table takes an address or an export away again. So what was known
of a name at one line is still known at the end of the source, and an export that is repeated there
changes nothing.
-/

namespace Mips

namespace Symbol

/-- Altering a symbol that `f` keeps as it is changes nothing. -/
theorem alter_eq_self {name : String} {f : Symbol → Symbol} {s : Symbol} (hf : f s = s) :
    ∀ {symbols : List Symbol}, Ordered symbols → symbols.find? (·.name = name) = some s →
    alter name f symbols = symbols
  | [], _, h => by simp at h
  | t :: rest, ho, h => by
    have ⟨hfirst, hothers⟩ := List.pairwise_cons.1 ho
    have hmem : s ∈ t :: rest := List.mem_of_find?_eq_some h
    have hname : s.name = name := by simpa using List.find?_some h
    unfold alter
    split
    · next hlt =>
      -- every name of the list is above `name`, so it cannot be found
      exfalso
      rcases List.mem_cons.1 hmem with rfl | hs
      · exact String.lt_irrefl _ (hname ▸ hlt)
      · exact String.lt_irrefl _ (hname ▸ String.lt_trans hlt (hfirst s hs))
    · split
      · next heq =>
        have hst : t = s := by simpa [List.find?_cons, heq] using h
        subst hst
        rw [hf, heq]
      · next hne =>
        have hrest : rest.find? (·.name = name) = some s := by
          simpa [List.find?_cons, Ne.symm hne] using h
        rw [alter_eq_self hf hothers hrest]

end Symbol

namespace SymbolTable

/-- Whether `name` was exported. -/
def exports (t : SymbolTable) (name : String) : Bool := (t.get? name).any (·.isGlobal)

/-- `u` knows every address and every export that `t` knows. -/
structure Grows (t u : SymbolTable) : Prop where
  address : ∀ name a, t.address? name = some a → u.address? name = some a
  exported : ∀ name, t.exports name = true → u.exports name = true

theorem Grows.refl (t : SymbolTable) : Grows t t := ⟨fun _ _ h => h, fun _ h => h⟩

theorem Grows.trans {t u v : SymbolTable} (h : Grows t u) (h' : Grows u v) : Grows t v :=
  ⟨fun name a ha => h'.address name a (h.address name a ha),
    fun name he => h'.exported name (h.exported name he)⟩

/-! ### Addresses -/

theorem address?_bind_self (t : SymbolTable) (name : String) (a : Word) (home : Option Section) :
    (t.bind name a home).address? name = some a := by
  rw [address?, bind, get?_alter_self]
  rfl

theorem grows_bind {t : SymbolTable} {name : String} {a : Word} (home : Option Section)
    (h : ∀ previous, t.address? name = some previous → previous = a) :
    Grows t (t.bind name a home) := by
  refine ⟨fun other b hb => ?_, fun other he => ?_⟩
  · by_cases hother : other = name
    · subst hother
      rw [address?_bind_self, h b hb]
    · rw [address?, bind, get?_alter_of_ne _ _ hother]
      exact hb
  · by_cases hother : other = name
    · subst hother
      rw [exports, bind, get?_alter_self]
      cases hs : t.get? other with
      | none => simp [exports, hs] at he
      | some s => simpa [exports, hs] using he
    · rw [exports, bind, get?_alter_of_ne _ _ hother]
      exact he

/-- A definition that is accepted binds the name, and had no other address to take away. -/
theorem define_eq_ok {t u : SymbolTable} {name : String} {a : Word} {home : Option Section}
    (h : t.define name a home = .ok u) :
    u = t.bind name a home ∧ ∀ previous, t.address? name = some previous → previous = a := by
  unfold define at h
  cases hp : t.address? name with
  | none =>
    rw [hp] at h
    exact ⟨(Except.ok.inj h).symm, by simp⟩
  | some previous =>
    rw [hp] at h
    by_cases heq : previous = a
    · simp only [heq, if_true, Except.ok.injEq] at h
      exact ⟨h.symm, by simp [heq]⟩
    · simp [heq] at h

theorem grows_define {t u : SymbolTable} {name : String} {a : Word} {home : Option Section}
    (h : t.define name a home = .ok u) : Grows t u := by
  obtain ⟨rfl, hsame⟩ := define_eq_ok h
  exact grows_bind home hsame

theorem address?_define {t u : SymbolTable} {name : String} {a : Word} {home : Option Section}
    (h : t.define name a home = .ok u) : u.address? name = some a := by
  obtain ⟨rfl, _⟩ := define_eq_ok h
  exact address?_bind_self t name a home

/-! ### Exports -/

theorem exports_markGlobal_self (t : SymbolTable) (name : String) :
    (t.markGlobal name).exports name = true := by
  rw [exports, markGlobal, get?_alter_self]
  rfl

theorem grows_markGlobal (t : SymbolTable) (name : String) : Grows t (t.markGlobal name) := by
  refine ⟨fun other b hb => ?_, fun other he => ?_⟩
  · by_cases hother : other = name
    · subst hother
      rw [address?, markGlobal, get?_alter_self]
      cases hs : t.get? other with
      | none => simp [address?, hs] at hb
      | some s => simpa [address?, hs] using hb
    · rw [address?, markGlobal, get?_alter_of_ne _ _ hother]
      exact hb
  · by_cases hother : other = name
    · rw [hother, exports_markGlobal_self]
    · rw [exports, markGlobal, get?_alter_of_ne _ _ hother]
      exact he

/-- Exporting a name again changes nothing. -/
theorem markGlobal_eq_self {t : SymbolTable} {name : String} (h : t.exports name = true) :
    t.markGlobal name = t := by
  cases hs : t.get? name with
  | none => simp [exports, hs] at h
  | some s =>
    have hglobal : s.isGlobal = true := by simpa [exports, hs] using h
    have hkeeps : { s with isGlobal := true } = s := by rw [← hglobal]
    have hlist : Symbol.alter name (fun s => { s with isGlobal := true }) t.symbols = t.symbols :=
      Symbol.alter_eq_self hkeeps t.ordered hs
    cases t
    simp only [markGlobal, alter, hlist]

end SymbolTable

end Mips

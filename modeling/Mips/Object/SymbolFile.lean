import Mips.Object.Module

/-!
# Symbol files

The symbols and relocations of a module as text: the section bases, then a table per symbol and a
table per relocation, each behind a blank line. An absent value has no line. Names are legal names,
so that single quotes hold them as they are.
-/

namespace Mips

namespace SymbolFile

/-- A name or word in quotes. -/
def quoted (s : String) : String := "'" ++ s ++ "'"

/-- One line of a table. -/
def entry (key value : String) : String := key ++ " = " ++ value ++ "\n"

/-- A number in decimal. -/
def number (w : Word) : String := toString w.toNat

/-- The line of a value that may be absent. -/
def entry? (key : String) : Option String → String
  | some value => entry key value
  | none => ""

/-- The table of a symbol. -/
def symbolTable (s : Symbol) : String :=
  "\n[[symbols]]\n" ++ entry "name" (quoted s.name) ++ entry? "address" (s.address.map number) ++
    entry? "section" (s.home.map (quoted ·.name)) ++
    entry "global" (if s.isGlobal then "true" else "false")

/-- The table of a relocation. -/
def relocationTable (r : Relocation) : String :=
  "\n[[relocations]]\n" ++ entry "address" (number r.address) ++ entry "symbol" (quoted r.symbol)

end SymbolFile

/-- The symbol file of a module. -/
def Module.symbolFile (m : Module) : String :=
  SymbolFile.entry "text_base" (SymbolFile.number m.textBase) ++
    SymbolFile.entry "data_base" (SymbolFile.number m.dataBase) ++
    String.join (m.symbols.symbols.map SymbolFile.symbolTable) ++
    String.join (m.relocations.map SymbolFile.relocationTable)

end Mips

/-!
# Sections

A module has two sections: code and initialized data.
-/

namespace Mips

/-- One of the two sections of a module. -/
inductive Section where
  /-- Code. -/
  | text
  /-- Initialized data. -/
  | data
  deriving DecidableEq, Repr, Inhabited

namespace Section

/-- The name of a section. -/
def name : Section → String
  | text => "Text"
  | data => "Data"

end Section

end Mips

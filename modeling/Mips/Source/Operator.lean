import Mips.Machine.Word

/-!
# Operators

The operators of expressions work on words and wrap at 32 bits. Division is that of signed numbers,
towards zero.
-/

namespace Mips

/-- A binary operator. -/
inductive Operator where
  | add
  | sub
  | mul
  | div
  | mod
  | and
  | or
  | xor
  deriving DecidableEq, Repr

namespace Operator

/-- How tightly an operator binds; a higher one binds first. -/
def precedence : Operator → Nat
  | or | xor => 0
  | and => 1
  | add | sub => 2
  | mul | div | mod => 3

/-- The result of an operator; a division by zero has none. -/
def apply : Operator → Word → Word → Option Word
  | add, x, y => some (x + y)
  | sub, x, y => some (x - y)
  | mul, x, y => some (x * y)
  | div, x, y => if y = 0 then none else some (x.sdiv y)
  | mod, x, y => if y = 0 then none else some (x.srem y)
  | and, x, y => some (x &&& y)
  | or, x, y => some (x ||| y)
  | xor, x, y => some (x ^^^ y)

end Operator

end Mips

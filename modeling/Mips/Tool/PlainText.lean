/-!
# Plain text

Notes quote names and strings of a source, which may hold any character. They are shown as plain
text, so that no source can steer the terminal of a reader: control sequences are left out, and of
the other control characters only those stay that are white space. Lines after the first are
indented, so that a note cannot pass for two.
-/

namespace Mips

namespace PlainText

/-- Where a reader of characters stands: in plain text or in a part of a control sequence. -/
inductive Mode where
  | text
  /-- Behind the escape character. -/
  | escape
  /-- Behind the escape character and what goes between it and the final character. -/
  | escapeTail
  /-- In a control function, which ends with its final character. -/
  | function
  /-- In a command to the system, which ends with a bell. -/
  | command
  /-- At the start of a control string for a device. -/
  | device
  /-- In the parameters of a control string. -/
  | deviceParameters
  /-- Behind the parameters of a control string. -/
  | deviceTail
  /-- In the body of a control string. -/
  | body
  deriving DecidableEq, Repr

/-- The control characters that are white space. -/
def isLayout (c : Char) : Bool := c == '\t' || c == '\n' || c == '\x0c' || c == '\r'

/-- The characters that plain text may hold. -/
def isPlain (c : Char) : Bool := isLayout c || (0x20 ≤ c.toNat && c.toNat != 0x7f)

/-- What a character behind the escape character begins, if it ends nothing. -/
def introduced : Char → Mode
  | '[' => .function
  | ']' => .command
  | 'P' => .device
  | 'X' | '^' | '_' => .body
  | _ => .text

/-- Whether the byte `9c`, which ends the body of a control string, is among the bytes of `c`. -/
def hasTerminator (c : Char) : Bool := (String.utf8EncodeChar c).contains 0x9c

/-- Whether `c` is neither a control character nor outside of the first 128 characters. -/
def isGraphic (c : Char) : Bool := 0x20 ≤ c.toNat && c.toNat < 0x7f

/-- The mode behind a character that is left out, or nothing for a character that is shown. -/
def next (mode : Mode) (c : Char) : Option Mode :=
  if c == '\x1b' then some .escape
  else if c == '\x18' || c == '\x1a' then some .text
  else
    match mode with
    | .text => if isPlain c then none else some .text
    | .escape =>
      if isLayout c then none
      else if !isGraphic c then some .escape
      else if c ≤ '/' then some .escapeTail
      else some (introduced c)
    | .escapeTail =>
      if isLayout c then none
      else if !isGraphic c || c ≤ '/' then some .escapeTail
      else some .text
    | .function =>
      if isLayout c then none
      else if !isGraphic c || c ≤ '?' then some .function
      else some .text
    | .command => some (if c == '\x07' then .text else .command)
    | .device =>
      some (if !isGraphic c then .device
        else if c ≤ '/' then .deviceTail
        else if c ≤ '?' then .deviceParameters
        else .body)
    | .deviceParameters =>
      some (if !isGraphic c then .deviceParameters
        else if c ≤ '/' then .deviceTail
        else if c ≤ ';' then .deviceParameters
        else .body)
    | .deviceTail => some (if !isGraphic c || c ≤ '/' then .deviceTail else .body)
    | .body => some (if hasTerminator c then .text else .body)

/-- The mode behind a character that is shown. One outside of the first 128 characters ends a control
sequence. -/
def resumed (mode : Mode) (c : Char) : Mode := if c.toNat < 0x80 then mode else .text

/-- The characters that are shown. White space interrupts a control sequence: it is shown, and so is
all behind it up to the next control character, where the sequence goes on. With `showing`, the
character before was shown. -/
def strip (showing : Bool) (mode : Mode) : List Char → List Char
  | [] => []
  | c :: cs =>
    match if showing && isPlain c then none else next mode c with
    | none => c :: strip true (resumed mode c) cs
    | some mode => strip false mode cs

/-- The text with four spaces in front of every line but the first. -/
def indent (cs : List Char) : List Char :=
  cs.flatMap fun c => if c == '\n' then '\n' :: List.replicate 4 ' ' else [c]

/-- The text as it is shown. -/
def ofText (text : String) : String := String.ofList (strip true .text (indent text.toList))

end PlainText

end Mips

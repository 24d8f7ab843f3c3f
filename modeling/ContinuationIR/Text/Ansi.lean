import ContinuationIR.Text.Terminal

/-!
# A terminal of escape sequences

The terminal that programs are printed on. A coloured text starts with the sequence of its colour and
ends with a reset; where the text itself resets, the colour is set again. The colours are taken off by
reading a text as a terminal does and keeping what it shows, that is, everything but escape sequences
and control characters, and the line ends.
-/

namespace ContinuationIR.Text
set_option autoImplicit false

namespace Ansi

/-- The number of a colour in its escape sequence. -/
def code : Colour → String
  | .red => "31"
  | .green => "32"
  | .yellow => "33"
  | .blue => "34"
  | .magenta => "35"
  | .cyan => "36"

/-- Sets a rendition again after each reset in a text. -/
def afterResets (start : List Char) : List Char → List Char
  | '\x1b' :: '[' :: '0' :: 'm' :: rest =>
    '\x1b' :: '[' :: '0' :: 'm' :: (start ++ afterResets start rest)
  | c :: rest => c :: afterResets start rest
  | [] => []

/-- A text in a colour. -/
def paint (colour : Colour) (text : String) : String :=
  let start := rendition (code colour)
  start ++ String.ofList (afterResets start.toList text.toList) ++ reset

/-! ## Reading a text as a terminal does -/

/-- Where a terminal is in its reading. -/
inductive Reading where
  | ground
  /-- After an escape character. -/
  | escape
  /-- In an escape sequence that has an intermediate character. -/
  | intermediate
  /-- In a control sequence. -/
  | control
  /-- In a command to the system, which a bell may end. -/
  | command
  /-- In a string that only an escape or a cancel ends. -/
  | string
deriving DecidableEq

namespace Reading

/-- Whether a character cancels the sequence it stands in. -/
def cancels (c : Char) : Bool := c = '\x18' || c = '\x1a'

/-- Whether a character lies between two code points. -/
def within (first last : Nat) (c : Char) : Bool := first ≤ c.toNat && c.toNat ≤ last

/-- Where an escape character is followed by `c`. -/
def afterEscape (c : Char) : Reading :=
  if c = '[' then .control
  else if c = ']' then .command
  else if c = 'P' || c = 'X' || c = '^' || c = '_' then .string
  else if within 0x20 0x2f c then .intermediate
  else if within 0x30 0x7e c then .ground
  else .escape

/-- Where the terminal is after one more character. -/
def next (state : Reading) (c : Char) : Reading :=
  if c = '\x1b' then .escape
  else if cancels c then .ground
  else
    match state with
    | .ground => .ground
    | .escape => afterEscape c
    | .intermediate => if within 0x30 0x7e c then .ground else .intermediate
    | .control => if within 0x40 0x7e c then .ground else .control
    | .command => if c = '\x07' then .ground else .command
    | .string => .string

/-- Whether a character is a control character. -/
def isControl (c : Char) : Bool := within 0 0x1f c || within 0x80 0x9f c

/-- Whether the terminal shows the character it reads. A line end is obeyed inside an escape or
control sequence as well. -/
def shows (state : Reading) (c : Char) : Bool :=
  match state with
  | .ground => c = '\n' || !isControl c
  | .escape | .intermediate | .control => c = '\n'
  | .command | .string => false

/-- What the terminal shows of a text from here on. -/
def shown : Reading → List Char → List Char
  | _, [] => []
  | state, c :: rest =>
    if state.shows c then c :: shown (state.next c) rest else shown (state.next c) rest

end Reading

/-- What a terminal shows of a text, without colours. -/
def strip (text : String) : String := String.ofList (Reading.ground.shown text.toList)

end Ansi

/-- The terminal that sets and reads escape sequences. -/
def Terminal.ansi : Terminal := ⟨Ansi.paint, Ansi.strip⟩

end ContinuationIR.Text

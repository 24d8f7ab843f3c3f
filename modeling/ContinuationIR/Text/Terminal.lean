/-!
# Colours on a terminal

A terminal takes its colours from escape sequences in the text: one that sets a rendition, and one
that ends it. How a word is put into a colour and how the colours are taken off a text again is not
fixed here: both are parts of a terminal, and program text is written for whichever terminal there is.
-/

namespace ContinuationIR.Text
set_option autoImplicit false

/-- The colours of program text. -/
inductive Colour where
  | red
  | green
  | yellow
  | blue
  | magenta
  | cyan
deriving DecidableEq

/-- How a word is put into a colour. -/
abbrev Brush := Colour → String → String

/-- What program text needs of a terminal. -/
structure Terminal where
  /-- Puts a word into a colour. -/
  paint : Brush
  /-- Takes the colours off a text. -/
  strip : String → String

/-- The escape sequence that sets a rendition. -/
def rendition (code : String) : String := "\x1b[" ++ code ++ "m"

/-- The escape sequence that ends all colours. -/
def reset : String := rendition "0"

end ContinuationIR.Text

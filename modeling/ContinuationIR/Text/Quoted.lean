import ContinuationIR.Text.Extending
import ContinuationIR.Text.Ignorable
import ContinuationIR.Text.Unprintable

/-!
# Quoted text

A text between double quotes in which no control character is left: the common ones have short
escapes, and every other character that has no visible form of its own is written by its number,
whether it has none at all, may be left out of display or is a mark on the character before it.
-/

namespace ContinuationIR.Text
set_option autoImplicit false

/-- A character written by its number, such as `\u{301}`. -/
def numbered (c : Char) : String :=
  "\\u\x7b" ++ String.ofList (Nat.toDigits 16 c.toNat) ++ "\x7d"

/-- A character as it stands between double quotes. -/
def escaped (c : Char) : String :=
  match c with
  | '\x00' => "\\0"
  | '\t' => "\\t"
  | '\r' => "\\r"
  | '\n' => "\\n"
  | '"' => "\\\""
  | '\\' => "\\\\"
  | c => if isExtending c || isIgnorable c || isUnprintable c then numbered c else c.toString

/-- A text between double quotes. -/
def quoted (s : String) : String :=
  "\"" ++ String.join (s.toList.map escaped) ++ "\""

end ContinuationIR.Text

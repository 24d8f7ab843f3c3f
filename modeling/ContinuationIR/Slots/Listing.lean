import ContinuationIR.Slots
import ContinuationIR.Text.Quoted

/-!
# Listings of slot tables

The text of a table of strings: its live entries in braces, on one line or with one part to a line.
-/

namespace ContinuationIR
set_option autoImplicit false

namespace Slots

variable {space : Space}

/-- The entries on one line. -/
def inlineListing (t : Slots space String) : String :=
  let entries := t.entries.map fun (h, s) => h.dump ++ ": " ++ Text.quoted s
  "\x7b" ++ ", ".intercalate entries ++ "\x7d"

/-- A live entry spread over lines. -/
def spreadEntry (h : Handle space) (s : String) : String :=
  s!"    {space.label}(\n        {h.index},\n    ): " ++ Text.quoted s ++ ",\n"

/-- The entries spread over lines. -/
def spreadListing (t : Slots space String) : String :=
  if t.entries.isEmpty then "\x7b\x7d"
  else "\x7b\n" ++ String.join (t.entries.map fun (h, s) => spreadEntry h s) ++ "\x7d"

end Slots

end ContinuationIR

import Std.Data.HashMap

/-!
# Interning

A table that gives each distinct string a number, in the order of first insertion. A number keeps
its string for good, so comparing numbers compares strings, as long as there are no more strings than
numbers: numbers are of 32 bits and start again after the last one.
-/

namespace ContinuationIR
set_option autoImplicit false

/-- The strings by number and the numbers by string. -/
structure Interning where
  byIndex : Array String
  byValue : Std.HashMap String Nat

namespace Interning

/-- How many numbers there are. -/
def capacity : Nat := UInt32.size

/-- The table without strings. -/
def empty : Interning := ⟨#[], ∅⟩

/-- The string with a number. -/
def get? (t : Interning) (index : Nat) : Option String := t.byIndex[index]?

/-- The number of a string. -/
def lookup (t : Interning) (value : String) : Option Nat := t.byValue[value]?

/-- The number of a string, a new one if the table does not have the string yet. -/
def intern (t : Interning) (value : String) : Interning × Nat :=
  match t.lookup value with
  | some index => (t, index)
  | none =>
    let index := t.byIndex.size % capacity
    (⟨t.byIndex.push value, t.byValue.insert value index⟩, index)

end Interning

end ContinuationIR

/-!
# Primitive operators

The operators a program may apply to values, each with a name and a number of operands.
-/

namespace ContinuationIR
set_option autoImplicit false

/-- A primitive operator. -/
inductive Primitive where
  | add
  | subtract
  | multiply
  | divide
  | modulus
  | negate
  | equals
  | lessThan
  | not
  | field
  | tag
  | print
deriving DecidableEq

namespace Primitive

/-- All operators, in their listing order. -/
def all : List Primitive :=
  [.add, .subtract, .multiply, .divide, .modulus, .negate, .equals, .lessThan, .not, .field, .tag,
    .print]

/-- The number of operands. -/
def arity : Primitive → Nat
  | .negate | .not | .tag | .print => 1
  | .add | .subtract | .multiply | .divide | .modulus | .equals | .lessThan | .field => 2

/-- The name of an operator in program text. -/
def name : Primitive → String
  | .add => "add"
  | .subtract => "subtract"
  | .multiply => "multiply"
  | .divide => "divide"
  | .modulus => "modulus"
  | .negate => "negate"
  | .equals => "equals"
  | .lessThan => "less_than"
  | .not => "not"
  | .field => "field"
  | .tag => "tag"
  | .print => "print"

/-- The name of an operator in structured dumps. -/
def label : Primitive → String
  | .add => "Add"
  | .subtract => "Subtract"
  | .multiply => "Multiply"
  | .divide => "Divide"
  | .modulus => "Modulus"
  | .negate => "Negate"
  | .equals => "Equals"
  | .lessThan => "LessThan"
  | .not => "Not"
  | .field => "Field"
  | .tag => "Tag"
  | .print => "Print"

/-- The operator with the given name. -/
def ofName? (name : String) : Option Primitive :=
  all.find? fun p => p.name = name

/-- The reason for which a name is refused: no operator has it. -/
structure UnknownName where
  name : String

/-- The wording of the refusal. -/
def UnknownName.message (_ : UnknownName) : String := "Matching variant not found"

/-- The operator with the given name, or the refusal of the name. -/
def parse (name : String) : Except UnknownName Primitive :=
  match ofName? name with
  | some p => .ok p
  | none => .error ⟨name⟩

theorem ofName?_name (p : Primitive) : ofName? p.name = some p := by
  cases p <;> decide

end Primitive

end ContinuationIR

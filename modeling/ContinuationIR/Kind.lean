/-!
# Kinds of values

A variable that holds values has a kind. Kinds are coarse: a kind restricts which constants, blocks
and aliases may be bound to the variable and which tags a case over it has to cover.
-/

namespace ContinuationIR
set_option autoImplicit false

/-- What a value variable may hold. -/
inductive Kind where
  | any
  | int
  | bool
  /-- A block whose tag is below the number of constructors. -/
  | tagged (constructors : Nat)
deriving DecidableEq

/-- The text of a kind in messages. -/
def Kind.dump : Kind → String
  | .any => "Any"
  | .int => "Int"
  | .bool => "Bool"
  | .tagged n => s!"Tagged \x7b constructors: {n} \x7d"

/-- A literal value. -/
inductive Constant where
  | unit
  | int (value : Int64)
  | bool (value : Bool)
  | string (value : String)
deriving DecidableEq

/-- The kind of a literal. Unit and strings have no kind of their own. -/
def Constant.kind : Constant → Kind
  | .int _ => .int
  | .bool _ => .bool
  | .unit | .string _ => .any

namespace Kind

/-- Whether a variable of this kind may hold the literal. -/
def admitsConstant (kind : Kind) (constant : Constant) : Bool :=
  kind = .any || constant.kind = kind

/-- Whether a variable of this kind may hold a block with the tag. -/
def admitsBlock (kind : Kind) (tag : Nat) : Bool :=
  match kind with
  | .any => true
  | .tagged constructors => tag < constructors
  | .int | .bool => false

/-- Whether a variable of this kind may alias a variable of kind `source`. -/
def admitsAlias (kind source : Kind) : Bool :=
  kind = .any || source = .any || source = kind

end Kind

end ContinuationIR

import ContinuationIR.CaseMap
import ContinuationIR.Primitive

/-!
# Shapes of nodes

The shape of an expression says what it does and holds handles only: the expressions, definitions
and occurrences it mentions live in tables of their own. A definition has a header (what it is
called and where it returns to), parameters, a type and a body.

A group of functions names value variables and a group of continuations names continuation
variables, so the family of the names tells the two kinds of group apart.
-/

namespace ContinuationIR
set_option autoImplicit false

/-- The value bound by a let, with `α` for each use of a variable in it. -/
inductive Value (α : Type) where
  | constant (constant : Constant)
  | alias (source : α)
  | block (tag : Nat) (fields : List α)
deriving DecidableEq

/-- The uses in a value, in order. -/
def Value.uses {α : Type} : Value α → List α
  | .constant _ => []
  | .alias source => [source]
  | .block _ fields => fields

/-- What an expression does. -/
inductive Shape where
  /-- Binds a variable to a value in the body. -/
  | letIn (var : VarId .value) (value : Value (OccId .value)) (body : ExprId)
  /-- Binds the names of mutually recursive definitions in the members and in the body. -/
  | group (family : Family) (members : List DefId) (body : ExprId)
  /-- Applies an operator and passes the result on. -/
  | primitive (operator : Primitive) (arguments : List (OccId .value))
      (continuation : OccId .continuation)
  /-- Calls a function and lets it return to the continuation. -/
  | apply (function : OccId .value) (arguments : List (OccId .value))
      (continuation : OccId .continuation)
  /-- Passes arguments to a continuation. -/
  | jump (continuation : OccId .continuation) (arguments : List (OccId .value))
  /-- Selects a branch by the tag of the scrutinee. -/
  | caseOf (scrutinee : OccId .value) (branches : CaseMap) (otherwise : Option ExprId)
  | unreachable
deriving DecidableEq

namespace Shape

/-- The members of a group. -/
def members : Shape → List DefId
  | .group _ members _ => members
  | _ => []

/-- The value occurrences an expression holds, in order. -/
def valueUses : Shape → List (OccId .value)
  | .letIn _ value _ => value.uses
  | .primitive _ arguments _ | .jump _ arguments => arguments
  | .apply function arguments _ => function :: arguments
  | .caseOf scrutinee _ _ => [scrutinee]
  | .group .. | .unreachable => []

/-- Exchanges the child `old` for `new` in the first place that holds it: the body, or the branches
of a case in order and then its default. -/
def replaceChild? (shape : Shape) (old new : ExprId) : Option Shape :=
  match shape with
  | .letIn var value body => if body = old then some (.letIn var value new) else none
  | .group family members body => if body = old then some (.group family members new) else none
  | .caseOf scrutinee branches otherwise =>
    match CaseMap.replaceFirst? old new branches.branches with
    | some replaced => some (.caseOf scrutinee ⟨replaced⟩ otherwise)
    | none =>
      if otherwise = some old then some (.caseOf scrutinee branches (some new)) else none
  | .primitive .. | .apply .. | .jump .. | .unreachable => none

end Shape

/-- The kinds a function takes and the kind it returns. -/
structure FunctionType where
  parameters : List Kind
  result : Kind
deriving DecidableEq

/-- The number of parameters. -/
def FunctionType.arity (type : FunctionType) : Nat := type.parameters.length

/-- The type of a definition. A continuation returns nothing. -/
inductive DefinitionType where
  | function (type : FunctionType)
  | continuation (parameters : List Kind)
deriving DecidableEq

/-- The kinds of the parameters. -/
def DefinitionType.parameters : DefinitionType → List Kind
  | .function type => type.parameters
  | .continuation parameters => parameters

/-- Whether a function may be called from outside the program. -/
inductive Visibility where
  | exported
  | internal
deriving DecidableEq

/-- What a definition is called and which continuation it returns to. -/
inductive Header where
  | root (returnTo : VarId .continuation)
  | function (name : VarId .value) (returnTo : VarId .continuation) (visibility : Visibility)
  | continuation (name : VarId .continuation)
deriving DecidableEq

/-- The three kinds of definition. -/
inductive HeaderKind where
  | root
  | function
  | continuation
deriving DecidableEq

/-- The word for a kind of definition in messages. -/
def HeaderKind.text : HeaderKind → String
  | .root => "root"
  | .function => "function"
  | .continuation => "continuation"

/-- The kind of definition that a group of the family holds. -/
def Family.memberKind : Family → HeaderKind
  | .value => .function
  | .continuation => .continuation

namespace Header

/-- What kind of definition this is. -/
def kind : Header → HeaderKind
  | .root _ => .root
  | .function .. => .function
  | .continuation _ => .continuation

/-- The continuation variable that a root or a function returns to. -/
def returnTo? : Header → Option (VarId .continuation)
  | .root returnTo | .function _ returnTo _ => some returnTo
  | .continuation _ => none

/-- The name of the definition, if a group of the family may hold it. -/
def name? : (family : Family) → Header → Option (VarId family)
  | .value, .function name _ _ => some name
  | .continuation, .continuation name => some name
  | _, _ => none

/-- Whether continuations of the outside are out of reach in the body. -/
def isFunctionBoundary : Header → Bool
  | .root _ | .function .. => true
  | .continuation _ => false

end Header

/-- A definition: its header, parameters, type and body. -/
structure Definition where
  header : Header
  parameters : List (VarId .value)
  type : DefinitionType
  body : ExprId
deriving DecidableEq

end ContinuationIR

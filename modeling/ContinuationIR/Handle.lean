/-!
# Handles

Every entity of a program is named by a handle: a number in one of six spaces. Each space counts
from zero and never hands a number out twice, so a handle is either dead or still names the entity
it was made for. Variables and occurrences come in two families, values and continuations; the
family is part of the handle's type, so the two never mix.
-/

namespace ContinuationIR
set_option autoImplicit false

/-- The two families of variables: those that hold values and those that hold continuations. -/
inductive Family where
  | value
  | continuation
deriving DecidableEq

/-- The number spaces that handles are drawn from. -/
inductive Space where
  | expression
  | definition
  | var (family : Family)
  | occ (family : Family)
deriving DecidableEq

/-- The noun for a member of the space, as messages use it. -/
def Space.noun : Space → String
  | .expression => "expression"
  | .definition => "definition"
  | .var .value => "variable"
  | .var .continuation => "continuation variable"
  | .occ .value => "occurrence"
  | .occ .continuation => "continuation occurrence"

/-- The name of the space, as structured dumps use it. -/
def Space.label : Space → String
  | .expression => "Expression"
  | .definition => "Definition"
  | .var .value => "Var"
  | .var .continuation => "ContVar"
  | .occ .value => "Occur"
  | .occ .continuation => "ContOccur"

/-- A number of one space. -/
structure Handle (space : Space) where
  index : Nat
deriving DecidableEq

/-- The handle of an expression. -/
abbrev ExprId := Handle .expression

/-- The handle of a definition. -/
abbrev DefId := Handle .definition

/-- The handle of a variable. -/
abbrev VarId (family : Family) := Handle (.var family)

/-- The handle of an occurrence of a variable of the same family. -/
abbrev OccId (family : Family) := Handle (.occ family)

namespace Handle

variable {space : Space}

/-- The text of a handle in messages, such as `expression #3`. -/
def text (h : Handle space) : String :=
  s!"{space.noun} #{h.index}"

/-- The text of a handle in structured dumps, such as `Expression(3)`. -/
def dump (h : Handle space) : String :=
  s!"{space.label}({h.index})"

theorem ext_index {a b : Handle space} (h : a.index = b.index) : a = b := by
  cases a
  cases b
  simp_all

end Handle

/-- A node of the program: an expression or a definition. -/
inductive Node where
  | expr (id : ExprId)
  | defn (id : DefId)
deriving DecidableEq

namespace Node

/-- The text of a node in messages. -/
def text : Node → String
  | .expr e => e.text
  | .defn d => d.text

/-- The text of a node in structured dumps, such as `Expression(Expression(3))`. -/
def dump : Node → String
  | .expr e => s!"Expression({e.dump})"
  | .defn d => s!"Definition({d.dump})"

/-- Whether the node is a definition. -/
def isDefinition : Node → Bool
  | .expr _ => false
  | .defn _ => true

/-- The text of a link to a node that may be missing. -/
def dumpOption : Option Node → String
  | none => "None"
  | some n => s!"Some({n.dump})"

end Node

/-- Whether an occurrence sits inside one of the definitions of the group that names its
variable. -/
inductive Recursivity where
  | recursive
  | nonRecursive
deriving DecidableEq

/-- The word for a recursivity in messages. -/
def Recursivity.text : Recursivity → String
  | .recursive => "recursive"
  | .nonRecursive => "non-recursive"

/-- The name of a recursivity in structured dumps. -/
def Recursivity.label : Recursivity → String
  | .recursive => "Recursive"
  | .nonRecursive => "NonRecursive"

end ContinuationIR

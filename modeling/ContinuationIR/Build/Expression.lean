import ContinuationIR.Build.Validation
import ContinuationIR.Outcome

/-!
# Building expressions

Trees are built bottom-up: variables are made first, leaves mention them, and binding forms bind
them once the tree they scope over exists. Whether a use is in scope can only be judged when the
binders above it exist, so it is judged when a tree is installed or spliced in and not here.
-/

namespace ContinuationIR
set_option autoImplicit false

namespace Program

variable {family : Family}

/-! ## Writes that several calls share -/

/-- Puts children under an expression. -/
def attachAll (parent : ExprId) (children : List Node) : Edit Unit :=
  children.forM (.attach (.expr parent))

/-- Adds a pending expression, which its writes were told to be `e`. -/
def addExpression (p : Program) (e : ExprId) (shape : Shape) : Outcome BuildError ExprId :=
  let added := p.expressions.next
  { result := if added = e then .ok added else .error (.faulted (.misplaced added e))
    program := { p with expressions := p.expressions.push ⟨shape, none⟩ }
    log := [.builtExpression e shape] }

/-- An expression that is the next one is added under its handle. -/
theorem addExpression_of_next {p : Program} {e : ExprId} {shape : Shape}
    (next : p.expressions.next = e) : p.addExpression e shape =
      ⟨.ok e, { p with expressions := p.expressions.push ⟨shape, none⟩ },
        [.builtExpression e shape]⟩ := by
  simp [addExpression, next]

/-- Makes the writes of an expression, which are told its handle, and adds it. -/
def build (p : Program) (write : ExprId → Edit Shape) : Outcome BuildError ExprId :=
  .after p [] (write p.expressions.next) fun shape q => q.addExpression p.expressions.next shape

/-! ## Variables -/

/-- Makes a variable of a family that is neither bound nor used. -/
def freshVariable (p : Program) (family : Family) (name : String) (kind : Kind) :
    Program × VarId family :=
  (p.modifyTable family (·.fresh name kind), (p.table family).vars.next)

/-- Makes a value variable. -/
def freshValue (p : Program) (name : String) (kind : Kind) : Program × VarId .value :=
  p.freshVariable .value name kind

/-- Makes a continuation variable. -/
def freshContinuation (p : Program) (name : String) : Program × VarId .continuation :=
  p.freshVariable .continuation name .any

/-! ## Let -/

/-- The checks of a let: its variable, the variables of its value, the value's kind, the body. -/
def checkLetIn (p : Program) (var : VarId .value) (value : Value (Mention .value))
    (body : ExprId) : Except BuildError Unit := do
  p.checkBinders [⟨var⟩]
  p.checkMentions value.uses
  p.checkValue var value
  p.checkChildren [.expr body]

/-- The writes of a let that passed its checks. -/
def writeLetIn (var : VarId .value) (value : Value (Mention .value)) (body e : ExprId) :
    Edit Shape := do
  let value ← .mintValue e value
  .bind var (.expr e) .letVariable
  attachAll e [.expr body]
  return .letIn var value body

/-- Binds a variable to a value in a body. -/
def letIn (p : Program) (var : VarId .value) (value : Value (Mention .value)) (body : ExprId) :
    Outcome BuildError ExprId :=
  .commit p (orRefuse id (p.checkLetIn var value body)) fun _ =>
    p.build (writeLetIn var value body)

/-! ## Groups -/

/-- The nodes directly below a group. -/
def groupChildren (members : List DefId) (body : ExprId) : List Node :=
  members.map Node.defn ++ [.expr body]

/-- The checks of a group: its members and their names, then the children. -/
def checkGroup (p : Program) (family : Family) (members : List DefId) (body : ExprId) :
    Except BuildError (List (VarId family)) := do
  let names ← p.groupNames family members
  p.checkChildren (groupChildren members body)
  return names

/-- The writes of a group that passed its checks. -/
def writeGroup (members : List DefId) (body : ExprId) (names : List (VarId family)) (e : ExprId) :
    Edit Shape := do
  names.forM fun name => .bind name (.expr e) .groupName
  attachAll e (groupChildren members body)
  return .group family members body

/-- Binds the names of definitions of one family, in the definitions and in a body. -/
def group (p : Program) (family : Family) (members : List DefId) (body : ExprId) :
    Outcome BuildError ExprId :=
  .commit p (orRefuse id (p.checkGroup family members body)) fun names =>
    p.build (writeGroup members body names)

/-! ## Calls -/

/-- The checks of an operator: the number of arguments, the arguments, the continuation. -/
def checkPrimitive (p : Program) (operator : Primitive) (arguments : List (Mention .value))
    (continuation : Mention .continuation) : Except BuildError Unit :=
  if arguments.length = operator.arity then do
    p.checkMentions arguments
    p.checkMentions [continuation]
  else .error (.arityMismatch operator.arity arguments.length)

/-- The writes of an operator that passed its checks. -/
def writePrimitive (operator : Primitive) (arguments : List (Mention .value))
    (continuation : Mention .continuation) (e : ExprId) : Edit Shape := do
  let arguments ← .mintAll e arguments
  let continuation ← .mint e continuation
  return .primitive operator arguments continuation

/-- Applies an operator to as many arguments as it has operands. -/
def primitive (p : Program) (operator : Primitive) (arguments : List (Mention .value))
    (continuation : Mention .continuation) : Outcome BuildError ExprId :=
  .commit p (orRefuse id (p.checkPrimitive operator arguments continuation)) fun _ =>
    p.build (writePrimitive operator arguments continuation)

/-- The checks of a call: the function, the arguments, the continuation. -/
def checkApply (p : Program) (function : Mention .value) (arguments : List (Mention .value))
    (continuation : Mention .continuation) : Except BuildError Unit := do
  p.checkMentions [function]
  p.checkMentions arguments
  p.checkMentions [continuation]

/-- The writes of a call that passed its checks. -/
def writeApply (function : Mention .value) (arguments : List (Mention .value))
    (continuation : Mention .continuation) (e : ExprId) : Edit Shape := do
  let function ← .mint e function
  let arguments ← .mintAll e arguments
  let continuation ← .mint e continuation
  return .apply function arguments continuation

/-- Calls a function. -/
def apply (p : Program) (function : Mention .value) (arguments : List (Mention .value))
    (continuation : Mention .continuation) : Outcome BuildError ExprId :=
  .commit p (orRefuse id (p.checkApply function arguments continuation)) fun _ =>
    p.build (writeApply function arguments continuation)

/-- The checks of a jump: the continuation, the arguments. -/
def checkJump (p : Program) (continuation : Mention .continuation)
    (arguments : List (Mention .value)) : Except BuildError Unit := do
  p.checkMentions [continuation]
  p.checkMentions arguments

/-- The writes of a jump that passed its checks. -/
def writeJump (continuation : Mention .continuation) (arguments : List (Mention .value))
    (e : ExprId) : Edit Shape := do
  let continuation ← .mint e continuation
  let arguments ← .mintAll e arguments
  return .jump continuation arguments

/-- Passes arguments to a continuation. -/
def jump (p : Program) (continuation : Mention .continuation) (arguments : List (Mention .value)) :
    Outcome BuildError ExprId :=
  .commit p (orRefuse id (p.checkJump continuation arguments)) fun _ =>
    p.build (writeJump continuation arguments)

/-! ## Cases -/

/-- The nodes directly below a case. -/
def caseChildren (branches : List (Nat × ExprId)) (otherwise : Option ExprId) : List Node :=
  branches.map (fun (_, e) => Node.expr e) ++ otherwise.toList.map Node.expr

/-- The checks of a case: the scrutinee, the children, the tags against the scrutinee's kind. -/
def checkCaseOf (p : Program) (scrutinee : Mention .value) (branches : List (Nat × ExprId))
    (otherwise : Option ExprId) : Except BuildError CaseMap := do
  p.checkMentions [scrutinee]
  p.checkChildren (caseChildren branches otherwise)
  let map ← (CaseMap.ofBranches? branches).mapError .case
  let kind ← p.kindOf scrutinee.var
  (map.validate kind otherwise.isSome).mapError .case
  return map

/-- The writes of a case that passed its checks. -/
def writeCaseOf (scrutinee : Mention .value) (branches : List (Nat × ExprId))
    (otherwise : Option ExprId) (map : CaseMap) (e : ExprId) : Edit Shape := do
  let scrutinee ← .mint e scrutinee
  attachAll e (caseChildren branches otherwise)
  return .caseOf scrutinee map otherwise

/-- Selects a branch by the tag of a variable. -/
def caseOf (p : Program) (scrutinee : Mention .value) (branches : List (Nat × ExprId))
    (otherwise : Option ExprId) : Outcome BuildError ExprId :=
  .commit p (orRefuse id (p.checkCaseOf scrutinee branches otherwise)) fun map =>
    p.build (writeCaseOf scrutinee branches otherwise map)

/-- Marks a place that is never reached. -/
def unreachable (p : Program) : Outcome BuildError ExprId :=
  p.addExpression p.expressions.next .unreachable

end Program

end ContinuationIR

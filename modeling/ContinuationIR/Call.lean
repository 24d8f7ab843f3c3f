import ContinuationIR.Build.Definition
import ContinuationIR.Change.Replacement
import ContinuationIR.Change.Substitution

/-!
# Calls

The calls that build and change a program, as data. A program is reachable if some sequence of calls
leads to it from the empty program, whatever the arguments and whether or not each call succeeds.
-/

namespace ContinuationIR
set_option autoImplicit false

/-- A call with its arguments. -/
inductive Call where
  | freshValue (name : String) (kind : Kind)
  | freshContinuation (name : String)
  | letIn (var : VarId .value) (value : Value (Mention .value)) (body : ExprId)
  | group (family : Family) (members : List DefId) (body : ExprId)
  | primitive (operator : Primitive) (arguments : List (Mention .value))
      (continuation : Mention .continuation)
  | apply (function : Mention .value) (arguments : List (Mention .value))
      (continuation : Mention .continuation)
  | jump (continuation : Mention .continuation) (arguments : List (Mention .value))
  | caseOf (scrutinee : Mention .value) (branches : List (Nat × ExprId))
      (otherwise : Option ExprId)
  | unreachable
  | function (name : VarId .value) (returnTo : VarId .continuation)
      (parameters : List (VarId .value)) (type : FunctionType) (visibility : Visibility)
      (body : ExprId)
  | continuation (name : VarId .continuation) (parameters : List (VarId .value)) (body : ExprId)
  | root (returnTo : VarId .continuation) (parameters : List (VarId .value)) (type : FunctionType)
      (body : ExprId)
  | install (root : DefId)
  | substitute {family : Family} (occurrence : OccId family) (new : VarId family)
  | substituteAll {family : Family} (old new : VarId family)
  | replace (target replacement : ExprId)
  | removeDeadLet (expression : ExprId)
  | removeDeadDefinition (definition : DefId)
  | selectCaseBranch (expression : ExprId) (tag : Nat)
  | discard (node : Node)

/-- Why a call is refused. -/
inductive Refusal where
  | build (error : BuildError)
  | change (error : ChangeError)
deriving DecidableEq

/-- The name of the kind of refusal. -/
def Refusal.label : Refusal → String
  | .build error => error.label
  | .change error => error.label

/-- The wording of a refusal. -/
def Refusal.message : Refusal → String
  | .build error => error.message
  | .change error => error.message

/-- What a call answers on success: nothing, or the number of a handle or of the uses it moved. -/
inductive Answer where
  | nothing
  | number (n : Nat)
deriving DecidableEq

/-- The answer that is a handle. -/
def Answer.ofHandle {space : Space} (h : Handle space) : Answer := .number h.index

namespace Program

/-- A building call that answers a handle. -/
def built {space : Space} (outcome : Outcome BuildError (Handle space)) : Outcome Refusal Answer :=
  outcome.map .build .ofHandle

/-- A changing call that answers a handle. -/
def changed {space : Space} (outcome : Outcome ChangeError (Handle space)) :
    Outcome Refusal Answer :=
  outcome.map .change .ofHandle

/-- A changing call that answers nothing. -/
def changedOnly (outcome : Outcome ChangeError Unit) : Outcome Refusal Answer :=
  outcome.map .change fun _ => .nothing

/-- Makes a call. -/
def perform (p : Program) : Call → Outcome Refusal Answer
  | .freshValue name kind =>
    let (p, var) := p.freshValue name kind
    ⟨.ok (.ofHandle var), p, []⟩
  | .freshContinuation name =>
    let (p, var) := p.freshContinuation name
    ⟨.ok (.ofHandle var), p, []⟩
  | .letIn var value body => built (p.letIn var value body)
  | .group family members body => built (p.group family members body)
  | .primitive operator arguments continuation =>
    built (p.primitive operator arguments continuation)
  | .apply function arguments continuation => built (p.apply function arguments continuation)
  | .jump continuation arguments => built (p.jump continuation arguments)
  | .caseOf scrutinee branches otherwise => built (p.caseOf scrutinee branches otherwise)
  | .unreachable => built p.unreachable
  | .function name returnTo parameters type visibility body =>
    built (p.function name returnTo parameters type visibility body)
  | .continuation name parameters body => built (p.continuation name parameters body)
  | .root returnTo parameters type body => built (p.rootDefinition returnTo parameters type body)
  | .install root => built (p.install root)
  | .substitute occurrence new => changedOnly (p.substitute occurrence new)
  | .substituteAll old new => (p.substituteAll old new).map .change .number
  | .replace target replacement => changedOnly (p.replace target replacement)
  | .removeDeadLet e => changed (p.removeDeadLet e)
  | .removeDeadDefinition d => changedOnly (p.removeDeadDefinition d)
  | .selectCaseBranch e tag => changed (p.selectCaseBranch e tag)
  | .discard node => changedOnly (p.discard node)

/-- The programs that calls lead to from the empty program that is not verifying. -/
inductive Reachable : Program → Prop where
  | empty : Reachable (.empty false)
  | call {p : Program} (c : Call) : Reachable p → Reachable (p.perform c).program

/-- The program after calls that are made one after the other, however each of them ends. -/
def performAll (p : Program) (calls : List Call) : Program :=
  calls.foldl (fun p call => (p.perform call).program) p

/-- The program that a sequence of calls leads to. -/
def run (calls : List Call) : Program := (Program.empty false).performAll calls

theorem Reachable.performAll {p : Program} (reachable : Reachable p) (calls : List Call) :
    Reachable (p.performAll calls) := by
  induction calls generalizing p with
  | nil => exact reachable
  | cons call calls ih => exact ih (.call call reachable)

/-- Whatever calls lead to is reachable. -/
theorem reachable_run (calls : List Call) : Reachable (run calls) := Reachable.empty.performAll calls

end Program

end ContinuationIR

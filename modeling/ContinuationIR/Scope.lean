import ContinuationIR.Walk

/-!
# Scope

A use of a variable is in scope at an expression if the node that binds the variable lies strictly
above the expression; the value of a let does not see its own variable. A continuation is moreover
out of reach beyond the nearest function or root definition. A use of a group name is recursive if
the way up enters the group through one of its members.

A graft asks the same question for a tree that is about to be moved: its head is taken to hang under
the given node.
-/

namespace ContinuationIR
set_option autoImplicit false

/-- Why a variable cannot be used at an expression. -/
inductive ScopeError where
  | unbound {family : Family} (var : VarId family) (holder : ExprId)
  | outOfScope {family : Family} (var : VarId family) (holder : ExprId)
  | escapingContinuation {family : Family} (var : VarId family) (holder : ExprId)
deriving DecidableEq

namespace ScopeError

/-- The name of the kind of scope error. -/
def label : ScopeError → String
  | .unbound .. => "Unbound"
  | .outOfScope .. => "OutOfScope"
  | .escapingContinuation .. => "EscapingContinuation"

/-- The wording of a scope error. -/
def message : ScopeError → String
  | .unbound var holder => s!"{var.text} is used at {holder.text} but is never bound"
  | .outOfScope var holder => s!"{var.text} is used at {holder.text} outside of its scope"
  | .escapingContinuation var holder =>
    s!"{var.text} is captured by a nested function at {holder.text}"

end ScopeError

/-- A tree taken to hang under another node than it does. -/
structure Graft where
  head : ExprId
  parent : Option Node
deriving DecidableEq

namespace Program

variable {family : Family}

/-- The node above a node once the graft is made. -/
def graftedEnclosing (p : Program) (graft : Option Graft) (node : Node) :
    Except Fault (Option Node) :=
  match graft with
  | some g => if node = .expr g.head then .ok g.parent else p.enclosing node
  | none => p.enclosing node

/-- Whether continuations do not reach across the node, a fault if it is a dead definition. -/
def stopsContinuations (p : Program) : Node → Except Fault Bool
  | .expr _ => .ok false
  | .defn d => return (← p.fetchDefinition d).header.isFunctionBoundary

/-- Goes up from `child` through the nodes above it to the binding of a variable. -/
def resolveAlong (p : Program) (binding : Binding) (var : VarId family) (holder : ExprId)
    (stop : Option Fault) : Node → List Node → Except (Failure ScopeError) Recursivity
  | _, [] =>
    match stop with
    | some fault => .error (.faulted fault)
    | none => .error (.refused (.outOfScope var holder))
  | child, above :: rest =>
    if above = binding.site then
      if binding.role = .groupName ∧ child.isDefinition then .ok .recursive else .ok .nonRecursive
    else if family = .continuation then
      match p.stopsContinuations above with
      | .error fault => .error (.faulted fault)
      | .ok true => .error (.refused (.escapingContinuation var holder))
      | .ok false => p.resolveAlong binding var holder stop above rest
    else p.resolveAlong binding var holder stop above rest

/-- The recursivity that a use of the variable has at the expression `holder`. -/
def resolve (p : Program) (graft : Option Graft) (var : VarId family) (holder : ExprId) :
    Except (Failure ScopeError) Recursivity := do
  match (← orFault (p.fetchVariable var)).binding with
  | none => .error (.refused (.unbound var holder))
  | some binding =>
    let climb := climbBy (p.graftedEnclosing graft) (p.nodeSlots + 1) (.expr holder)
    p.resolveAlong binding var holder climb.stop (.expr holder) climb.nodes

/-- The recursivity that an occurrence has at its holder. -/
def resolveOccurrence (p : Program) (graft : Option Graft) (occurrence : OccId family) :
    Except (Failure ScopeError) Recursivity := do
  let entry ← orFault (p.fetchOccurrence occurrence)
  p.resolve graft entry.var entry.holder

/-- The recursivity of each occurrence in a list, up to the first that is out of scope. -/
def resolveEach (p : Program) (graft : Option Graft) (occurrences : List (OccId family)) :
    Except (Failure ScopeError) (List (OccId family × Recursivity)) :=
  occurrences.mapM fun occurrence => return (occurrence, ← p.resolveOccurrence graft occurrence)

/-- The recursivity of every occurrence of a tree. -/
structure Resolution where
  values : List (OccId .value × Recursivity)
  continuations : List (OccId .continuation × Recursivity)

/-- Resolves all occurrences of the tree below a node, value occurrences first. -/
def resolveTree (p : Program) (graft : Option Graft) (node : Node) :
    Except (Failure ScopeError) Resolution := do
  let region ← orFault (p.region node none)
  let values ← p.resolveEach graft (region.held .value)
  let continuations ← p.resolveEach graft (region.held .continuation)
  return ⟨values, continuations⟩

end Program

end ContinuationIR

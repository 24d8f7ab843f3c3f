import ContinuationIR.Scope

/-!
# Refusals of the building calls
-/

namespace ContinuationIR
set_option autoImplicit false

/-- Why a building call is refused. -/
inductive BuildError where
  | unknownVariable {family : Family} (var : VarId family)
  | unknownNode (node : Node)
  | alreadyBound {family : Family} (var : VarId family)
  | duplicateBinder {family : Family} (var : VarId family)
  | alreadyAttached (node : Node)
  | duplicateChild (node : Node)
  | isRoot (node : Node)
  | case (error : CaseError)
  | arityMismatch (expected found : Nat)
  | kindMismatch (var : VarId .value) (expected found : Kind)
  | incompatibleValue (var : VarId .value) (kind : Kind)
  | wrongDefinitionKind (definition : DefId) (expected : HeaderKind)
  | emptyGroup
  | scope (error : ScopeError)
  | wrongRecursivity {family : Family} (occurrence : OccId family) (expected : Recursivity)
  | rootAlreadyInstalled
deriving DecidableEq

namespace BuildError

/-- The name of the kind of refusal. -/
def label : BuildError → String
  | .unknownVariable _ => "UnknownVariable"
  | .unknownNode _ => "UnknownNode"
  | .alreadyBound _ => "AlreadyBound"
  | .duplicateBinder _ => "DuplicateBinder"
  | .alreadyAttached _ => "AlreadyAttached"
  | .duplicateChild _ => "DuplicateChild"
  | .isRoot _ => "IsRoot"
  | .case error => "Case." ++ error.label
  | .arityMismatch .. => "ArityMismatch"
  | .kindMismatch .. => "KindMismatch"
  | .incompatibleValue .. => "IncompatibleValue"
  | .wrongDefinitionKind .. => "WrongDefinitionKind"
  | .emptyGroup => "EmptyGroup"
  | .scope error => "Scope." ++ error.label
  | .wrongRecursivity .. => "WrongRecursivity"
  | .rootAlreadyInstalled => "RootAlreadyInstalled"

/-- The wording of a refusal. -/
def message : BuildError → String
  | .unknownVariable var => s!"{var.text} does not exist (anymore)"
  | .unknownNode node => s!"{node.text} does not exist (anymore)"
  | .alreadyBound var => s!"{var.text} is already bound"
  | .duplicateBinder var => s!"{var.text} is bound twice by the same node"
  | .alreadyAttached node => s!"{node.text} already has an enclosing node"
  | .duplicateChild node => s!"{node.text} is used twice as a child"
  | .isRoot node => s!"{node.text} is the program root"
  | .case error => error.message
  | .arityMismatch expected found => s!"expected {expected} operands, found {found}"
  | .kindMismatch var expected found =>
    s!"parameter {var.text} has kind {found.dump} but the definition type says {expected.dump}"
  | .incompatibleValue var kind =>
    s!"{var.text} of kind {kind.dump} cannot hold the value bound to it"
  | .wrongDefinitionKind definition expected =>
    s!"{definition.text} is not a {expected.text} definition"
  | .emptyGroup => "a binding group needs at least one definition"
  | .scope error => error.message
  | .wrongRecursivity occurrence expected =>
    s!"{occurrence.text} should be {expected.text} at its position"
  | .rootAlreadyInstalled => "the program already has a root"

end BuildError

end ContinuationIR

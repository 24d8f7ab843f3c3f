import ContinuationIR.CaseMap

/-!
# Violations

One constructor for each way in which the tables of a program can disagree with each other or with
the scoping rules, and the wording of each.
-/

namespace ContinuationIR
set_option autoImplicit false

/-- A disagreement found by the checker. -/
inductive Violation where
  /-- The recorded enclosing node is not the structural parent. -/
  | wrongEnclosing (node : Node) (expected found : Option Node)
  | sharedNode (node : Node)
  | danglingNode (node parent : Node)
  | danglingOccurrence {family : Family} (occurrence : OccId family) (holder : ExprId)
  | sharedOccurrence {family : Family} (occurrence : OccId family)
  | danglingVariable {family : Family} (var : VarId family) (site : Node)
  | boundTwice {family : Family} (var : VarId family)
  | wrongBindingSite {family : Family} (var : VarId family) (expected : Node) (found : Option Node)
  | outOfScope {family : Family} (occurrence : OccId family) (var : VarId family)
  /-- The variable is a continuation of the outside of a function. -/
  | escapingContinuation {family : Family} (occurrence : OccId family) (var : VarId family)
  | wrongRecursivity {family : Family} (occurrence : OccId family) (expected found : Recursivity)
  | wrongHolder {family : Family} (occurrence : OccId family) (expected found : ExprId)
  | unregisteredOccurrence {family : Family} (occurrence : OccId family) (var : VarId family)
  | staleOccurrenceEntry {family : Family} (var : VarId family) (occurrence : OccId family)
  | unorderedTags (case : ExprId)
  | malformedCase (case : ExprId) (error : CaseError)
  | incompatibleValue (binding : ExprId) (var : VarId .value)
  | misplacedDefinition (definition : DefId) (group : ExprId)
  | definitionTypeMismatch (definition : DefId)
  | unreachableNode (node : Node)
  | unreachableVariable {family : Family} (var : VarId family)
  | unreachableOccurrence {family : Family} (occurrence : OccId family)
deriving DecidableEq

namespace Violation

/-- The name of the kind of violation. -/
def label : Violation → String
  | .wrongEnclosing .. => "WrongEnclosing"
  | .sharedNode .. => "SharedNode"
  | .danglingNode .. => "DanglingNode"
  | .danglingOccurrence .. => "DanglingOccurrence"
  | .sharedOccurrence .. => "SharedOccurrence"
  | .danglingVariable .. => "DanglingVariable"
  | .boundTwice .. => "BoundTwice"
  | .wrongBindingSite .. => "WrongBindingSite"
  | .outOfScope .. => "OutOfScope"
  | .escapingContinuation .. => "EscapingContinuation"
  | .wrongRecursivity .. => "WrongRecursivity"
  | .wrongHolder .. => "WrongHolder"
  | .unregisteredOccurrence .. => "UnregisteredOccurrence"
  | .staleOccurrenceEntry .. => "StaleOccurrenceEntry"
  | .unorderedTags .. => "UnorderedTags"
  | .malformedCase .. => "MalformedCase"
  | .incompatibleValue .. => "IncompatibleValue"
  | .misplacedDefinition .. => "MisplacedDefinition"
  | .definitionTypeMismatch .. => "DefinitionTypeMismatch"
  | .unreachableNode .. => "UnreachableNode"
  | .unreachableVariable .. => "UnreachableVariable"
  | .unreachableOccurrence .. => "UnreachableOccurrence"

/-- The wording of a violation. -/
def message : Violation → String
  | .wrongEnclosing node expected found =>
    s!"{node.text} records {Node.dumpOption found} as its enclosing node " ++
      s!"but sits under {Node.dumpOption expected}"
  | .sharedNode node => s!"{node.text} is reachable more than once"
  | .danglingNode node parent => s!"{node.text} is referenced by {parent.text} but does not exist"
  | .danglingOccurrence occurrence holder =>
    s!"{occurrence.text} is held by {holder.text} but does not exist or has no variable"
  | .sharedOccurrence occurrence => s!"{occurrence.text} is held more than once"
  | .danglingVariable var site => s!"{var.text} is bound at {site.text} but does not exist"
  | .boundTwice var => s!"{var.text} is bound more than once"
  | .wrongBindingSite var expected found =>
    s!"{var.text} is bound at {expected.text} but records {Node.dumpOption found}"
  | .outOfScope occurrence var => s!"{occurrence.text} of {var.text} is out of scope"
  | .escapingContinuation occurrence var =>
    s!"{occurrence.text} of {var.text} crosses a function boundary"
  | .wrongRecursivity occurrence expected found =>
    s!"{occurrence.text} is tagged {found.text} but should be {expected.text}"
  | .wrongHolder occurrence expected found =>
    s!"{occurrence.text} is held by {expected.text} but records {found.text}"
  | .unregisteredOccurrence occurrence var =>
    s!"{occurrence.text} refers to {var.text} but is missing from its occurrence set"
  | .staleOccurrenceEntry var occurrence =>
    s!"the occurrence set of {var.text} lists {occurrence.text}, which is not one of its uses"
  | .unorderedTags case => s!"tags of {case.text} are not in ascending order"
  | .malformedCase case error => s!"{case.text} is malformed: {error.message}"
  | .incompatibleValue binding var =>
    s!"{var.text} bound at {binding.text} cannot hold the value bound to it"
  | .misplacedDefinition definition group =>
    s!"{definition.text} does not belong in {group.text}"
  | .definitionTypeMismatch definition =>
    s!"parameters of {definition.text} disagree with its definition type"
  | .unreachableNode node => s!"{node.text} is live but unreachable from the root"
  | .unreachableVariable var => s!"{var.text} is bound or used but unreachable from the root"
  | .unreachableOccurrence occurrence =>
    s!"{occurrence.text} is live but unreachable from the root"

/-- The wording of a failed check: the number of violations, then one to a line. -/
def report (violations : List Violation) : String :=
  s!"{violations.length} violation(s) found:\n" ++ "\n".intercalate (violations.map message)

end Violation

end ContinuationIR

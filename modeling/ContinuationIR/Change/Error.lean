import ContinuationIR.Check.Audit
import ContinuationIR.Scope

/-!
# Refusals of the changing calls

Also here: the check that a verifying program runs after each change.
-/

namespace ContinuationIR
set_option autoImplicit false

/-- The shapes that a change can ask for. -/
inductive ShapeKind where
  | letIn
  | group
  | caseOf
deriving DecidableEq

/-- The words for a kind of shape in messages. -/
def ShapeKind.text : ShapeKind → String
  | .letIn => "let"
  | .group => "binding group"
  | .caseOf => "case"

/-- Why a changing call is refused. -/
inductive ChangeError where
  | unknownVariable {family : Family} (var : VarId family)
  | unknownOccurrence {family : Family} (occurrence : OccId family)
  | unknownNode (node : Node)
  | detached (node : Node)
  | notPending (node : Node)
  | invalidReplacement (target replacement : ExprId)
  | unexpectedShape (expression : ExprId) (expected : ShapeKind)
  | binderStillUsed {family : Family} (var : VarId family) (occurrences : Nat)
  | publicDefinition (definition : DefId)
  | isRoot (definition : DefId)
  | incompatibleValue (var : VarId .value) (kind found : Kind)
  | noSuchBranch (expression : ExprId) (tag : Nat)
  | case (error : CaseError)
  | scope (error : ScopeError)
deriving DecidableEq

/-- The name of the kind of refusal. -/
def ChangeError.label : ChangeError → String
  | .unknownVariable _ => "UnknownVariable"
  | .unknownOccurrence _ => "UnknownOccurrence"
  | .unknownNode _ => "UnknownNode"
  | .detached _ => "Detached"
  | .notPending _ => "NotPending"
  | .invalidReplacement .. => "InvalidReplacement"
  | .unexpectedShape .. => "UnexpectedShape"
  | .binderStillUsed .. => "BinderStillUsed"
  | .publicDefinition _ => "PublicDefinition"
  | .isRoot _ => "IsRoot"
  | .incompatibleValue .. => "IncompatibleValue"
  | .noSuchBranch .. => "NoSuchBranch"
  | .case error => "Case." ++ error.label
  | .scope error => "Scope." ++ error.label

/-- The wording of a refusal. -/
def ChangeError.message : ChangeError → String
  | .unknownVariable var => s!"{var.text} does not exist (anymore)"
  | .unknownOccurrence occurrence => s!"{occurrence.text} does not exist (anymore)"
  | .unknownNode node => s!"{node.text} does not exist (anymore)"
  | .detached node => s!"{node.text} is not reachable from the program root"
  | .notPending node =>
    s!"{node.text} is attached, expected a subtree that was built but not attached"
  | .invalidReplacement target replacement =>
    s!"{replacement.text} is neither pending nor a descendant of {target.text}"
  | .unexpectedShape expression expected => s!"{expression.text} is not a {expected.text}"
  | .binderStillUsed var occurrences => s!"{var.text} still has {occurrences} occurrence(s)"
  | .publicDefinition definition => s!"{definition.text} is public and cannot be removed"
  | .isRoot definition => s!"{definition.text} is the program root"
  | .incompatibleValue var kind found =>
    s!"{var.text} of kind {kind.dump} cannot alias a variable of kind {found.dump}"
  | .noSuchBranch e tag => s!"case {e.text} has no branch for tag {tag} and no default"
  | .case error => error.message
  | .scope error => error.message

/-- The outcome of a change that was made: a verifying program is checked, and the change stands
also if the check fails. -/
def Outcome.verified {α : Type} (operation : Operation) (p : Program) (log : List LogEntry)
    (answer : α) : Outcome ChangeError α :=
  if p.verifying then
    match p.checkLogged with
    | .error fault => ⟨.error (.faulted fault), p, log⟩
    | .ok ([], entry) => ⟨.ok answer, p, log ++ [entry]⟩
    | .ok (violations, entry) =>
      ⟨.error (.faulted (.malformed operation violations)), p, log ++ [entry]⟩
  else ⟨.ok answer, p, log⟩

end ContinuationIR

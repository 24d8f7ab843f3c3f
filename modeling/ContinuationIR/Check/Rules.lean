import ContinuationIR.Walk

/-!
# Rules for single nodes

What the checker asks of a node on its own: the kind of a let's value, the tags of a case, the
members of a group and the parameters of a definition. Dead handles are skipped here; they are
reported where the walk meets them.
-/

namespace ContinuationIR
set_option autoImplicit false

namespace Program

variable {family : Family}

/-- The kind of the variable that an occurrence refers to, if both are live. -/
def kindAt? (p : Program) (occurrence : OccId .value) : Option Kind := do
  let entry ← p.occEntry? occurrence
  let var ← p.varEntry? entry.var
  return var.kind

/-- Whether a variable of the kind may hold a stored value. -/
def holds (p : Program) (kind : Kind) : Value (OccId .value) → Bool
  | .constant literal => kind.admitsConstant literal
  | .block tag _ => kind.admitsBlock tag
  | .alias source =>
    match p.kindAt? source with
    | some sourceKind => kind.admitsAlias sourceKind
    | none => true

/-- A let must not bind its variable to a value that the variable's kind does not admit. -/
def letViolations (p : Program) (e : ExprId) (var : VarId .value) (value : Value (OccId .value)) :
    List Violation :=
  match p.varEntry? var with
  | none => []
  | some entry => if p.holds entry.kind value then [] else [.incompatibleValue e var]

/-- The first two neighbours that are not in ascending order. -/
def firstDescent : List Nat → Option (Nat × Nat)
  | [] => none
  | [_] => none
  | first :: second :: rest =>
    if first < second then firstDescent (second :: rest) else some (first, second)

/-- The tags of a case ascend and fit the kind of the scrutinee. -/
def caseViolations (p : Program) (e : ExprId) (scrutinee : OccId .value) (map : CaseMap)
    (otherwise : Option ExprId) : List Violation :=
  match firstDescent map.tags with
  | some (first, second) =>
    if first = second then [.malformedCase e (.duplicateTag first)] else [.unorderedTags e]
  | none =>
    match p.kindAt? scrutinee with
    | none => []
    | some kind =>
      match map.validate kind otherwise.isSome with
      | .ok () => []
      | .error error => [.malformedCase e error]

/-- A group holds definitions of its own kind only. -/
def groupViolations (p : Program) (e : ExprId) (family : Family) (members : List DefId) :
    List Violation :=
  members.filterMap fun d =>
    match p.definitions.get? d with
    | none => none
    | some entry =>
      if entry.definition.header.kind = family.memberKind then none
      else some (.misplacedDefinition d e)

/-- What is wrong with an expression on its own. -/
def shapeViolations (p : Program) (e : ExprId) : Shape → List Violation
  | .letIn var value _ => p.letViolations e var value
  | .caseOf scrutinee map otherwise => p.caseViolations e scrutinee map otherwise
  | .group family members _ => p.groupViolations e family members
  | .primitive .. | .apply .. | .jump .. | .unreachable => []

/-- Whether the parameters of a definition have the kinds that its type declares. -/
def fitsType (p : Program) (definition : Definition) : Bool :=
  let declared := definition.type.parameters
  definition.parameters.length = declared.length &&
    (definition.parameters.zip declared).all fun (parameter, kind) =>
      match p.varEntry? parameter with
      | some entry => entry.kind = kind
      | none => true

/-- What is wrong with a definition on its own. -/
def definitionViolations (p : Program) (d : DefId) (definition : Definition) : List Violation :=
  if p.fitsType definition then [] else [.definitionTypeMismatch d]

end Program

end ContinuationIR

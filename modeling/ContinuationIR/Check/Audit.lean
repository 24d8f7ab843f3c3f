import ContinuationIR.Check.Rules
import ContinuationIR.Outcome

/-!
# The checker

The checker re-derives what the tables should hold and compares. It follows the spanning walk from
the root with an environment of its own: which binders are in scope, which continuations a function
hides, which groups have a member being walked. It shares nothing with scope resolution, which goes
the other way, from a use up to its binder. After the walk it looks for live entries that the walk
never met. It never stops at a violation.
-/

namespace ContinuationIR
set_option autoImplicit false

/-- The binders in scope, each with the group that names it, if it is a group's name. -/
abbrev Environment (family : Family) := List (VarId family × Option ExprId)

/-- What the checker knows about one family. -/
structure Ledger (family : Family) where
  scope : Environment family
  /-- The environments that the functions being walked hide. -/
  hidden : List (Environment family)
  /-- The variables bound so far. -/
  bound : List (VarId family)
  /-- The occurrences met so far. -/
  held : List (OccId family)

namespace Ledger

variable {family : Family}

/-- The ledger before the walk. -/
def empty : Ledger family := ⟨[], [], [], []⟩

/-- Brings a binder into scope. -/
def introduce (l : Ledger family) (var : VarId family) (group : Option ExprId) : Ledger family :=
  { l with scope := (var, group) :: l.scope.filter fun entry => entry.1 ≠ var }

/-- Takes binders out of scope. -/
def retire (l : Ledger family) (vars : List (VarId family)) : Ledger family :=
  { l with scope := l.scope.filter fun entry => !vars.contains entry.1 }

/-- Hides the scope and starts with an empty one. -/
def hide (l : Ledger family) : Ledger family :=
  { l with scope := [], hidden := l.scope :: l.hidden }

/-- Returns to the scope that was hidden last. -/
def reveal (l : Ledger family) : Ledger family :=
  { l with scope := l.hidden.headD [], hidden := l.hidden.tail }

/-- Whether a hidden scope has the variable. -/
def hides (l : Ledger family) (var : VarId family) : Bool :=
  l.hidden.any fun scope => (scope.lookup var).isSome

end Ledger

/-- The state of the checker. -/
structure Audit where
  violations : List Violation
  /-- The nodes being walked, innermost first. -/
  path : List Node
  /-- The groups that have a member being walked. -/
  openGroups : List ExprId
  /-- The nodes entered so far. -/
  entered : List Node
  values : Ledger .value
  continuations : Ledger .continuation

namespace Audit

variable {family : Family}

/-- The state before the walk. -/
def start : Audit := ⟨[], [], [], [], .empty, .empty⟩

/-- Adds violations to the report. -/
def report (s : Audit) (violations : List Violation) : Audit :=
  { s with violations := s.violations ++ violations }

/-- Adds a violation unless the condition holds. -/
def expect (s : Audit) (condition : Bool) (violation : Violation) : Audit :=
  if condition then s else s.report [violation]

/-- The ledger of a family. -/
def ledger (s : Audit) : (family : Family) → Ledger family
  | .value => s.values
  | .continuation => s.continuations

/-- Changes the ledger of a family. -/
def modifyLedger (s : Audit) : (family : Family) → (Ledger family → Ledger family) → Audit
  | .value, f => { s with values := f s.values }
  | .continuation, f => { s with continuations := f s.continuations }

/-- The group through which a definition was entered. -/
def enclosingGroup (s : Audit) : Option ExprId :=
  match s.path with
  | .expr e :: _ => some e
  | _ => none

end Audit

namespace Program

variable {family : Family}

/-- The group that a name bound at the site belongs to. -/
def groupOf (p : Program) : Node → Option ExprId
  | .expr e =>
    match p.expressions.get? e with
    | some ⟨.group .., _⟩ => some e
    | _ => none
  | .defn _ => none

/-- The variables of a family that a node binds. -/
def boundAt (p : Program) (family : Family) (node : Node) : List (VarId family) :=
  ((p.script? node).getD []).filterMap fun
    | .mark mark => (Event.mark node mark).bound? family
    | _ => none

/-- Compares the recorded enclosing node with the node the walk comes from. -/
def auditLink (p : Program) (s : Audit) (node : Node) : Audit :=
  match p.enclosing node with
  | .ok found => s.expect (found = s.path.head?) (.wrongEnclosing node s.path.head? found)
  | .error _ => s

/-- Notes that a node is being walked. -/
def auditPush (s : Audit) (node : Node) : Audit :=
  { s with path := node :: s.path, entered := node :: s.entered }

/-- Enters a node: its link, then the rules for it on its own, then the environment inside it. -/
def auditEnter (p : Program) (s : Audit) (node : Node) : Audit :=
  let group := s.enclosingGroup
  let s := auditPush (p.auditLink s node) node
  match node with
  | .expr e =>
    match p.expressions.get? e with
    | some entry => s.report (p.shapeViolations e entry.shape)
    | none => s
  | .defn d =>
    match p.definitions.get? d with
    | none => s
    | some entry =>
      let s := s.report (p.definitionViolations d entry.definition)
      let s :=
        if entry.definition.header.isFunctionBoundary then s.modifyLedger .continuation (·.hide)
        else s
      { s with openGroups := group.toList ++ s.openGroups.filter fun e => some e ≠ group }

/-- Leaves a node: its binders go out of scope and the environment around it returns. -/
def auditLeave (p : Program) (s : Audit) (node : Node) : Audit :=
  let s := { s with path := s.path.tail }
  let s := s.modifyLedger .value (·.retire (p.boundAt .value node))
  let s := s.modifyLedger .continuation (·.retire (p.boundAt .continuation node))
  match node with
  | .expr _ => s
  | .defn d =>
    let group := s.enclosingGroup
    let s := { s with openGroups := s.openGroups.filter fun e => some e ≠ group }
    match p.definitions.get? d with
    | none => s
    | some entry =>
      if entry.definition.header.isFunctionBoundary then s.modifyLedger .continuation (·.reveal)
      else s

/-- Meets a binder. -/
def auditBind (p : Program) (s : Audit) (site : Node) (var : VarId family) : Audit :=
  let s := s.expect (!(s.ledger family).bound.contains var) (.boundTwice var)
  let s := s.modifyLedger family fun l => { l with bound := var :: l.bound }
  match p.varEntry? var with
  | none => s.report [.danglingVariable var site]
  | some entry =>
    let found := entry.binding.map (·.site)
    let s := s.expect (found = some site) (.wrongBindingSite var site found)
    s.modifyLedger family (·.introduce var (p.groupOf site))

/-- Looks the variable of an occurrence up in the environment. -/
def auditScope (s : Audit) (occurrence : OccId family) (entry : OccurrenceEntry family) : Audit :=
  match (s.ledger family).scope.lookup entry.var with
  | some group =>
    let expected :=
      match group with
      | some e => if s.openGroups.contains e then Recursivity.recursive else .nonRecursive
      | none => .nonRecursive
    s.expect (entry.recursivity = expected)
      (.wrongRecursivity occurrence expected entry.recursivity)
  | none =>
    if (s.ledger family).hides entry.var then s.report [.escapingContinuation occurrence entry.var]
    else s.report [.outOfScope occurrence entry.var]

/-- Meets an occurrence. -/
def auditUse (p : Program) (s : Audit) (holder : ExprId) (occurrence : OccId family) : Audit :=
  if (s.ledger family).held.contains occurrence then s.report [.sharedOccurrence occurrence]
  else
    let s := s.modifyLedger family fun l => { l with held := occurrence :: l.held }
    match p.occEntry? occurrence with
    | none => s.report [.danglingOccurrence occurrence holder]
    | some entry =>
      match p.varEntry? entry.var with
      | none => s.report [.danglingOccurrence occurrence holder]
      | some var =>
        let s := s.expect (entry.holder = holder) (.wrongHolder occurrence holder entry.holder)
        let s :=
          s.expect (var.occurrences.contains occurrence)
            (.unregisteredOccurrence occurrence entry.var)
        auditScope s occurrence entry

/-- One event of the walk. -/
def auditEvent (p : Program) (s : Audit) : Event → Except Fault Audit
  | .enter node => .ok (p.auditEnter s node)
  | .leave node => .ok (p.auditLeave s node)
  | .mark site (.bind var) => .ok (p.auditBind s site var)
  | .mark (.expr e) (.use occurrence) => .ok (p.auditUse s e occurrence)
  | .mark (.defn _) (.use _) | .mark _ .value | .mark _ (.branch _) => .ok s
  | .again node => .ok (s.report [.sharedNode node])
  | .missing node =>
    match s.path.head? with
    | some parent => .ok (s.report [.danglingNode node parent])
    | none => .ok s
  | .broken fault => .error fault

/-! ## Leftovers -/

/-- The live nodes that the walk did not enter. -/
def strayNodes (p : Program) (entered : List Node) : List Violation :=
  let nodes := p.expressions.handles.map Node.expr ++ p.definitions.handles.map Node.defn
  (nodes.filter fun node => !entered.contains node).map .unreachableNode

/-- What is wrong with a live variable after the walk: it is bound or used somewhere else, or its
set lists something that is not one of its uses. -/
def variableLeftovers (p : Program) (bound : List (VarId family)) (var : VarId family)
    (entry : VariableEntry family) : List Violation :=
  let stray := !bound.contains var && (!entry.occurrences.isEmpty || entry.binding.isSome)
  let foreign := entry.occurrences.toList.filter fun occurrence =>
    (p.occEntry? occurrence).map (·.var) ≠ some var
  (if stray then [.unreachableVariable var] else []) ++
    foreign.map (.staleOccurrenceEntry var ·)

/-- What is wrong with the variables of a family after the walk. -/
def strayVariables (p : Program) (l : Ledger family) : List Violation :=
  (p.table family).vars.entries.flatMap fun (var, entry) =>
    p.variableLeftovers l.bound var entry

/-- The live occurrences of a family that the walk did not meet. -/
def strayOccurrences (p : Program) (l : Ledger family) : List Violation :=
  ((p.table family).occurrences.handles.filter fun occurrence => !l.held.contains occurrence).map
    .unreachableOccurrence

/-- What the walk left over, in the order of the report. -/
def leftovers (p : Program) (s : Audit) : List Violation :=
  p.strayNodes s.entered ++ p.strayVariables s.values ++ p.strayVariables s.continuations ++
    p.strayOccurrences s.values ++ p.strayOccurrences s.continuations

/-! ## The whole check -/

/-- The events that the checker follows. -/
def auditTrail (p : Program) : List Event :=
  match p.root with
  | some root => p.span (.defn root)
  | none => []

/-- The state of the checker at the end. -/
def audit (p : Program) : Except Fault Audit := do
  let s ← p.auditTrail.foldlM p.auditEvent .start
  return s.report (p.leftovers s)

/-- The violations of a program. -/
def check (p : Program) : Except Fault (List Violation) :=
  return (← p.audit).violations

/-- The violations of a program and the line that checking writes to the log. -/
def checkLogged (p : Program) : Except Fault (List Violation × LogEntry) := do
  let s ← p.audit
  let expressions := s.entered.countP fun node => !node.isDefinition
  let definitions := s.entered.countP Node.isDefinition
  return (s.violations, .checked expressions definitions s.violations.length)

end Program

end ContinuationIR

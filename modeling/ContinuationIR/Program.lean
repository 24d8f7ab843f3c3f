import ContinuationIR.Shape
import ContinuationIR.VariableTable

/-!
# Programs

A program keeps its nodes, variables and occurrences in six slot tables, with the node that encloses
each node, and at most one installed root. Whatever is not attached to the root is pending: built,
but not part of the program yet.

The nodes above a node are found by following enclosing links. On inconsistent tables the links may
lead to a dead node or run in a circle, so a climb returns the nodes it met together with what
stopped it.
-/

namespace ContinuationIR
set_option autoImplicit false

/-- The entry of an expression. -/
structure ExpressionEntry where
  shape : Shape
  enclosing : Option Node
deriving DecidableEq

/-- The entry of a definition. Only expressions enclose definitions. -/
structure DefinitionEntry where
  definition : Definition
  enclosing : Option ExprId
deriving DecidableEq

/-- The state of a program. -/
structure Program where
  expressions : Slots .expression ExpressionEntry
  definitions : Slots .definition DefinitionEntry
  values : VariableTable .value
  continuations : VariableTable .continuation
  root : Option DefId
  /-- Whether every change is followed by a check. -/
  verifying : Bool

namespace Program

variable {family : Family}

/-- The program without nodes and variables. -/
def empty (verifying : Bool) : Program where
  expressions := .empty
  definitions := .empty
  values := .empty
  continuations := .empty
  root := none
  verifying := verifying

/-! ## Tables of one family -/

/-- The variables and occurrences of a family. -/
def table (p : Program) : (family : Family) → VariableTable family
  | .value => p.values
  | .continuation => p.continuations

/-- Changes the variables and occurrences of a family. -/
def modifyTable (p : Program) :
    (family : Family) → (VariableTable family → VariableTable family) → Program
  | .value, f => { p with values := f p.values }
  | .continuation, f => { p with continuations := f p.continuations }

@[simp] theorem table_modifyTable (p : Program) (f : VariableTable family → VariableTable family) :
    (p.modifyTable family f).table family = f (p.table family) := by
  cases family <;> rfl

theorem table_modifyTable_of_ne {other : Family} (p : Program)
    (f : VariableTable family → VariableTable family) (ne : other ≠ family) :
    (p.modifyTable family f).table other = p.table other := by
  cases family <;> cases other <;> simp_all [modifyTable, table]

@[simp] theorem expressions_modifyTable (p : Program)
    (f : VariableTable family → VariableTable family) :
    (p.modifyTable family f).expressions = p.expressions := by
  cases family <;> rfl

@[simp] theorem definitions_modifyTable (p : Program)
    (f : VariableTable family → VariableTable family) :
    (p.modifyTable family f).definitions = p.definitions := by
  cases family <;> rfl

@[simp] theorem root_modifyTable (p : Program) (f : VariableTable family → VariableTable family) :
    (p.modifyTable family f).root = p.root := by
  cases family <;> rfl

@[simp] theorem verifying_modifyTable (p : Program)
    (f : VariableTable family → VariableTable family) :
    (p.modifyTable family f).verifying = p.verifying := by
  cases family <;> rfl

/-! ## Entries -/

/-- The entry of a live variable. -/
def varEntry? (p : Program) (var : VarId family) : Option (VariableEntry family) :=
  (p.table family).vars.get? var

/-- The entry of a live occurrence. -/
def occEntry? (p : Program) (occurrence : OccId family) : Option (OccurrenceEntry family) :=
  (p.table family).occurrences.get? occurrence

/-- The entry of a variable, a fault if it is dead. -/
def fetchVariable (p : Program) (var : VarId family) : Except Fault (VariableEntry family) :=
  (p.table family).vars.fetch var

/-- The entry of an occurrence, a fault if it is dead. -/
def fetchOccurrence (p : Program) (occurrence : OccId family) :
    Except Fault (OccurrenceEntry family) :=
  (p.table family).occurrences.fetch occurrence

/-- The shape of an expression, a fault if it is dead. -/
def fetchShape (p : Program) (e : ExprId) : Except Fault Shape :=
  return (← p.expressions.fetch e).shape

/-- A definition, a fault if it is dead. -/
def fetchDefinition (p : Program) (d : DefId) : Except Fault Definition :=
  return (← p.definitions.fetch d).definition

/-- Whether a variable is live. -/
def hasVariable (p : Program) (var : VarId family) : Bool :=
  (p.table family).vars.contains var

/-- Whether an occurrence is live. -/
def hasOccurrence (p : Program) (occurrence : OccId family) : Bool :=
  (p.table family).occurrences.contains occurrence

/-- Whether a node is live. -/
def hasNode (p : Program) : Node → Bool
  | .expr e => p.expressions.contains e
  | .defn d => p.definitions.contains d

/-- Whether a node is the installed root. -/
def isRoot (p : Program) (node : Node) : Bool :=
  p.root.map Node.defn = some node

/-- Whether a variable has no use, one or several, a fault if it is dead. -/
def useCount (p : Program) (var : VarId family) : Except Fault (UseCount family) :=
  return .ofSet (← p.fetchVariable var).occurrences

/-- Folds over the uses of a variable, ascending, a fault if it is dead. -/
def foldUses {α : Type} (p : Program) (var : VarId family) (init : α)
    (f : α → OccId family → α) : Except Fault α :=
  return (← p.fetchVariable var).occurrences.toList.foldl f init

/-! ## Enclosing nodes -/

/-- The node that encloses a node, a fault if the node is dead. -/
def enclosing (p : Program) : Node → Except Fault (Option Node)
  | .expr e => return (← p.expressions.fetch e).enclosing
  | .defn d => return (← p.definitions.fetch d).enclosing.map .expr

/-- The number of node slots, which bounds the length of a climb that does not run in a circle. -/
def nodeSlots (p : Program) : Nat := p.expressions.size + p.definitions.size

/-- The nodes met on the way up, innermost first, and what stopped the climb before its end. -/
structure Climb where
  nodes : List Node
  stop : Option Fault

/-- Follows links upwards, for at most the given number of steps. -/
def climbBy (link : Node → Except Fault (Option Node)) : Nat → Node → Climb
  | 0, node => ⟨[], some (.endless node)⟩
  | steps + 1, node =>
    match link node with
    | .error fault => ⟨[], some fault⟩
    | .ok none => ⟨[], none⟩
    | .ok (some parent) =>
      let above := climbBy link steps parent
      ⟨parent :: above.nodes, above.stop⟩

/-- The climb from a node along its enclosing links. -/
def climb (p : Program) (node : Node) : Climb :=
  climbBy p.enclosing (p.nodeSlots + 1) node

/-- The nodes around a node, innermost first, a fault if the climb does not end. -/
def ancestors (p : Program) (node : Node) : Except Fault (List Node) :=
  let climb := p.climb node
  match climb.stop with
  | some fault => .error fault
  | none => .ok climb.nodes

/-- Whether the outermost node around a node, or the node itself, is the installed root. -/
def isAttached (p : Program) (node : Node) : Except Fault Bool :=
  return p.isRoot ((← p.ancestors node).getLastD node)

/-- Whether one node lies above another. The climb is not followed beyond it. -/
def liesBelow (p : Program) (node above : Node) : Except Fault Bool :=
  let climb := p.climb node
  if climb.nodes.contains above then .ok true
  else
    match climb.stop with
    | some fault => .error fault
    | none => .ok false

/-! ## Writes -/

/-- Records the node that encloses a node. Definitions are enclosed by expressions only. -/
def setEnclosing (p : Program) (child : Node) (parent : Option Node) : Program :=
  match child, parent with
  | .expr e, parent =>
    { p with expressions := p.expressions.modify e fun entry => { entry with enclosing := parent } }
  | .defn d, some (.expr parent) =>
    { p with
      definitions := p.definitions.modify d fun entry => { entry with enclosing := some parent } }
  | .defn d, _ =>
    { p with
      definitions := p.definitions.modify d fun entry => { entry with enclosing := none } }

/-- Overwrites the shape of an expression. -/
def setShape (p : Program) (e : ExprId) (shape : Shape) : Program :=
  { p with expressions := p.expressions.modify e fun entry => { entry with shape } }

/-- Overwrites a definition. -/
def setDefinition (p : Program) (d : DefId) (definition : Definition) : Program :=
  { p with definitions := p.definitions.modify d fun entry => { entry with definition } }

/-- Removes an expression. -/
def removeExpression (p : Program) (e : ExprId) : Program :=
  { p with expressions := p.expressions.remove e }

/-- Removes a definition. -/
def removeDefinition (p : Program) (d : DefId) : Program :=
  { p with definitions := p.definitions.remove d }

/-- Records where a variable is bound. -/
def recordBinding (p : Program) (var : VarId family) (site : Node) (role : BinderRole) : Program :=
  p.modifyTable family (·.setBinding var (some ⟨site, role⟩))

end Program

end ContinuationIR

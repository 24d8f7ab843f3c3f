import ContinuationIR.Dump
import ContinuationIR.Edit

/-!
# Outcomes and the log

Every call on a program yields a result, the program after it and the entries it wrote to the log.
The log is data: its wording is fixed here and nothing else depends on it.
-/

namespace ContinuationIR
set_option autoImplicit false

/-- What a call writes to the log. -/
inductive LogEntry where
  | builtExpression (e : ExprId) (shape : Shape)
  | builtDefinition (d : DefId) (header : Header)
  | installedRoot (root : DefId)
  | checked (expressions definitions violations : Nat)
  | substituting {family : Family} (new old : VarId family) (occurrence : OccId family)
  | substitutingAll {family : Family} (new old : VarId family) (count : Nat)
  | replacing (target replacement : ExprId) (parent : Node)
  | removingDefinition {family : Family} (d : DefId) (name : VarId family) (group : ExprId)
  | discarding (node : Node)

namespace LogEntry

/-- Installing a root and checking are worth a debug line, all else is traced. -/
def level : LogEntry → String
  | .installedRoot _ | .checked .. => "DEBUG"
  | _ => "TRACE"

/-- The wording of a log entry. -/
def message : LogEntry → String
  | .builtExpression e shape => s!"built {e.text}: {shape.dump}"
  | .builtDefinition d header => s!"built {d.text}: {header.dump}"
  | .installedRoot root => s!"installed {root.text} as program root"
  | .checked expressions definitions violations =>
    s!"checked {expressions} expression(s), {definitions} definition(s): {violations} violation(s)"
  | .substituting new old occurrence =>
    s!"substituting {new.text} for {old.text} at {occurrence.text}"
  | .substitutingAll new old count =>
    s!"substituting {new.text} for {old.text} at {count} occurrence(s)"
  | .replacing target replacement parent =>
    s!"replacing {target.text} with {replacement.text} under {parent.text}"
  | .removingDefinition d name group =>
    s!"removing dead {d.text} ({name.text}) from {group.text}"
  | .discarding node => s!"discarding pending {node.text}"

/-- A line of the log. -/
def line (entry : LogEntry) : String := entry.level ++ " " ++ entry.message

end LogEntry

/-- What a call yields: its result, the program after it and what it logged. -/
structure Outcome (ε α : Type) where
  result : Except (Failure ε) α
  program : Program
  log : List LogEntry

namespace Outcome

variable {ε α β : Type}

/-- The outcome of a call that ends before it writes anything. -/
def failed (p : Program) (failure : Failure ε) : Outcome ε α := ⟨.error failure, p, []⟩

/-- Validates first and writes only if the validation succeeds. -/
def commit (p : Program) (validation : Except (Failure ε) β) (write : β → Outcome ε α) :
    Outcome ε α :=
  match validation with
  | .error failure => failed p failure
  | .ok b => write b

/-- Makes an edit and goes on with its answer and the program it leaves. A call whose edit breaks
down ends there. -/
def after (p : Program) (log : List LogEntry) (edit : Edit β) (next : β → Program → Outcome ε α) :
    Outcome ε α :=
  match edit p with
  | (.ok b, p) => next b p
  | (.error fault, p) => ⟨.error (.faulted fault), p, log⟩

/-- The same outcome with the reason and the answer put into other words. -/
def map {δ : Type} (reason : ε → δ) (answer : α → β) (outcome : Outcome ε α) : Outcome δ β :=
  { outcome with result := withReason reason (outcome.result.map answer) }

/-- The same outcome with another answer on success. -/
def answer (outcome : Outcome ε α) (b : β) : Outcome ε β :=
  { outcome with result := outcome.result.map fun _ => b }

end Outcome

end ContinuationIR

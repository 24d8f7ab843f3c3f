import ContinuationIR.Slots
import ContinuationIR.Violation

/-!
# Refusals and faults

A call on a program can end in three ways: it succeeds, it is refused for a reason of the domain, or
it breaks down because the tables it reads are inconsistent. A refusal changes nothing; after a
breakdown the program is whatever it was at that moment.
-/

namespace ContinuationIR
set_option autoImplicit false

/-- The changes that can be verified after they were made. -/
inductive Operation where
  | substitute
  | substituteAll
  | replace
  | removeDeadDefinition
  | discard
deriving DecidableEq

/-- The name of a change in messages. -/
def Operation.name : Operation → String
  | .substitute => "substitute"
  | .substituteAll => "substitute_all"
  | .replace => "replace"
  | .removeDeadDefinition => "remove_dead_definition"
  | .discard => "discard"

/-- Why a call broke down. -/
inductive Fault where
  /-- A handle was followed whose entry is gone. -/
  | stale {space : Space} (handle : Handle space)
  /-- Following links or children from the node does not end. -/
  | endless (node : Node)
  /-- A variable that is bound was to be bound again. -/
  | boundAgain {family : Family} (var : VarId family)
  /-- A variable was removed that still has occurrences. -/
  | freedInUse {family : Family} (var : VarId family)
  /-- An expression was to be exchanged below another that does not have it as a child. -/
  | notAChild (child parent : ExprId)
  /-- An expression was added under another handle than its writes were told. -/
  | misplaced (added told : ExprId)
  /-- A change was made and the check after it failed. -/
  | malformed (operation : Operation) (violations : List Violation)
deriving DecidableEq

/-- The wording of a fault. -/
def Fault.message : Fault → String
  | .stale handle => s!"stale handle {handle.dump} used after its slot was removed"
  | .endless node => s!"{node.text} is its own ancestor"
  | .boundAgain var => s!"{var.dump} bound twice"
  | .freedInUse var => s!"freed {var.dump} while it still has occurrences"
  | .notAChild child parent => s!"{child.text} is not a child of {parent.text}"
  | .misplaced added told =>
    s!"assertion `left == right` failed\n  left: {added.dump}\n right: {told.dump}"
  | .malformed operation violations =>
    s!"{operation.name} left the program malformed: {Violation.report violations}"

/-- The fault of following a dead node. -/
def Fault.staleNode : Node → Fault
  | .expr e => .stale e
  | .defn d => .stale d

/-- How a call fails: it is refused for a reason, or it breaks down. -/
inductive Failure (ε : Type) where
  | refused (reason : ε)
  | faulted (fault : Fault)
deriving DecidableEq

/-- The same failure with the reason put into other words. -/
def Failure.mapReason {ε δ : Type} (f : ε → δ) : Failure ε → Failure δ
  | .refused reason => .refused (f reason)
  | .faulted fault => .faulted fault

/-- A read that can only break down, as part of a call that can also be refused. -/
def orFault {ε α : Type} : Except Fault α → Except (Failure ε) α
  | .ok a => .ok a
  | .error fault => .error (.faulted fault)

/-- A check that can only be refused, as part of a call that can also break down. -/
def orRefuse {ε δ α : Type} (f : ε → δ) : Except ε α → Except (Failure δ) α
  | .ok a => .ok a
  | .error reason => .error (.refused (f reason))

/-- A call whose reasons are put into other words. -/
def withReason {ε δ α : Type} (f : ε → δ) : Except (Failure ε) α → Except (Failure δ) α
  | .ok a => .ok a
  | .error failure => .error (failure.mapReason f)

/-- Refuses unless the condition holds. -/
def require {ε : Type} (condition : Bool) (reason : ε) : Except (Failure ε) Unit :=
  if condition then .ok () else .error (.refused reason)

namespace Slots

variable {space : Space} {α : Type}

/-- The entry of a handle, a fault if the handle is dead. -/
def fetch (t : Slots space α) (h : Handle space) : Except Fault α :=
  match t.get? h with
  | some a => .ok a
  | none => .error (.stale h)

theorem fetch_eq_ok_iff {t : Slots space α} {h : Handle space} {a : α} :
    t.fetch h = .ok a ↔ t.get? h = some a := by
  unfold fetch
  cases t.get? h <;> simp

theorem fetch_of_get? {t : Slots space α} {h : Handle space} {a : α} (live : t.get? h = some a) :
    t.fetch h = .ok a :=
  fetch_eq_ok_iff.2 live

end Slots

end ContinuationIR

import ContinuationIR.Proofs.Building
import ContinuationIR.Proofs.Replacement

/-!
# The invariant of all calls

Every call, made on a consistent program with whatever arguments, succeeds and leaves a consistent
program or is refused and leaves the program as it was. So every reachable program is consistent, and
no call on it breaks down.
-/

namespace ContinuationIR
set_option autoImplicit false

/-- The call changes a program; the others build up one. -/
def Call.IsChange : Call → Prop
  | .substitute .. | .substituteAll .. | .replace .. | .removeDeadLet _ | .removeDeadDefinition _
  | .selectCaseBranch .. | .discard _ => True
  | _ => False

/-- The call adds a node. -/
def Call.AddsNode : Call → Prop
  | .letIn .. | .group .. | .primitive .. | .apply .. | .jump .. | .caseOf .. | .unreachable
  | .function .. | .continuation .. | .root .. => True
  | _ => False

/-- A call that does not change a program adds a node or a variable or installs the root. -/
theorem Call.cases_of_not_isChange {call : Call} (builds : ¬ call.IsChange) :
    call.AddsNode ∨ (∃ name kind, call = .freshValue name kind) ∨
      (∃ name, call = .freshContinuation name) ∨ ∃ root, call = .install root := by
  cases call <;> simp [IsChange, AddsNode] at builds ⊢

namespace Program

variable {p : Program}

/-- The program `q` is `p` after a change: occurrences were moved or nodes were cut off. -/
inductive Changed (p q : Program) : Prop where
  | moved (h : Moved p q)
  | trimmed (h : Trimmed p q)

/-- A change leaves a consistent program. -/
theorem Changed.consistent {q : Program} (changed : Changed p q) (c : Consistent p) :
    Consistent q ∧ q.verifying = p.verifying := by
  cases changed with
  | moved h => exact ⟨h.consistent c, h.verifying⟩
  | trimmed h =>
    obtain ⟨cut, clean, pruned⟩ := h
    exact ⟨pruned.consistent clean c, pruned.verifying⟩

/-- Every change of a coherent program, with whatever arguments, is made or refused. -/
theorem ends_perform (c : Coherent p) {call : Call} (change : call.IsChange) :
    (p.perform call).Ends p (Changed p) := by
  cases call with
  | substitute occurrence new =>
    exact ((ends_substitute c occurrence new).mono fun _ redirected =>
      .moved redirected.toMoved).map
  | substituteAll old new => exact ((ends_substituteAll c old new).mono fun _ => .moved).map
  | replace target replacement =>
    exact ((ends_replace c target replacement).mono fun _ replaced =>
      .trimmed (replaced.trimmed c)).map
  | removeDeadLet e =>
    exact ((ends_removeDeadLet c e).mono fun _ removed => .trimmed (removed.trimmed c)).map
  | removeDeadDefinition d =>
    exact ((ends_removeDeadDefinition c d).mono fun _ removed => .trimmed (removed.trimmed c)).map
  | selectCaseBranch e tag => exact ((ends_selectCaseBranch c e tag).mono fun _ => .trimmed).map
  | discard node =>
    exact ((ends_discard c node).mono fun _ discarded => .trimmed (discarded.trimmed c)).map
  | _ => exact change.elim

/-- Every call that adds a node, with whatever arguments, adds it or is refused. -/
theorem ends_adding {call : Call} (adds : call.AddsNode) :
    (p.perform call).Ends p (Enlarged p) := by
  cases call with
  | letIn var value body => exact (ends_letIn var value body).map
  | group family members body => exact (ends_group family members body).map
  | primitive operator arguments continuation =>
    exact (ends_primitive operator arguments continuation).map
  | apply function arguments continuation => exact (ends_apply function arguments continuation).map
  | jump continuation arguments => exact (ends_jump continuation arguments).map
  | caseOf scrutinee branches otherwise => exact (ends_caseOf scrutinee branches otherwise).map
  | unreachable => exact ends_unreachable.map
  | function name returnTo parameters type visibility body =>
    exact (ends_function name returnTo parameters type visibility body).map
  | continuation name parameters body => exact (ends_continuation name parameters body).map
  | root returnTo parameters type body =>
    exact (ends_rootDefinition returnTo parameters type body).map
  | _ => exact adds.elim

/-- Every call leaves a consistent program, whether it is refused or not. -/
theorem keeps_perform (c : Consistent p) (quiet : p.verifying = false) (call : Call) :
    (p.perform call).Keeps p := by
  by_cases change : call.IsChange
  · exact (ends_perform c.toCoherent change).keeps quiet fun _ changed => changed.consistent c
  · rcases Call.cases_of_not_isChange change with
      adds | ⟨name, kind, rfl⟩ | ⟨name, rfl⟩ | ⟨root, rfl⟩
    · exact (ends_adding adds).keeps quiet fun _ enlarged => enlarged.consistent c
    · have consistent : Consistent (p.freshVariable .value name kind).1 := consistent_fresh c
      exact .done consistent (verifying_modifyTable _ _)
    · have consistent : Consistent (p.freshVariable .continuation name .any).1 := consistent_fresh c
      exact .done consistent (verifying_modifyTable _ _)
    · exact (keeps_install c root).map

/-- Every reachable program is consistent. -/
theorem Reachable.consistent (reachable : Reachable p) : Consistent p ∧ p.verifying = false := by
  induction reachable with
  | empty => exact ⟨empty_consistent false, rfl⟩
  | @call p call _ ih =>
    have keeps := keeps_perform ih.1 ih.2 call
    generalize p.perform call = outcome at keeps
    cases keeps with
    | done consistent verifying => exact ⟨consistent, verifying.trans ih.2⟩
    | refused => exact ih

end Program

end ContinuationIR

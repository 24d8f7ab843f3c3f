import ContinuationIR.Change.Substitution

/-!
# Overwrites

Writes to a single field of the tables, behind the back of the calls. They validate nothing beyond
the entry being there, and their use is to put a program into a state that the checker has to find
fault with.
-/

namespace ContinuationIR
set_option autoImplicit false

/-- A handle of any space. -/
structure AnyHandle where
  {space : Space}
  handle : Handle space

/-- A write to a single field. -/
inductive Overwrite where
  | enclosing (node : Node) (parent : Option Node)
  | recursivity {family : Family} (occurrence : OccId family) (recursivity : Recursivity)
  /-- Moves an occurrence to another variable and updates both sets. -/
  | repoint {family : Family} (occurrence : OccId family) (new : VarId family)
      (recursivity : Recursivity)
  /-- Removes an occurrence and updates the set of its variable. -/
  | unregister {family : Family} (occurrence : OccId family)
  | list {family : Family} (var : VarId family) (occurrence : OccId family)
  | unlist {family : Family} (var : VarId family) (occurrence : OccId family)
  | kind (var : VarId .value) (kind : Kind)
  | binding {family : Family} (var : VarId family) (binding : Option Binding)
  | holder {family : Family} (occurrence : OccId family) (holder : ExprId)
  /-- Changes the variable of an occurrence and no set. -/
  | referent {family : Family} (occurrence : OccId family) (new : VarId family)
  | shape (expression : ExprId) (shape : Shape)
  | definition (definition : DefId) (content : Definition)
  | root (root : Option DefId)
  | replaceChild (expression : ExprId) (old new : ExprId)
  | drop (handle : AnyHandle)

namespace Program

variable {family : Family}

/-- Whether a handle of any space is live. -/
def isLive (p : Program) : AnyHandle → Bool
  | @AnyHandle.mk .expression e => p.expressions.contains e
  | @AnyHandle.mk .definition d => p.definitions.contains d
  | @AnyHandle.mk (.var _) var => p.hasVariable var
  | @AnyHandle.mk (.occ _) occurrence => p.hasOccurrence occurrence

/-- Empties the slot of a handle. -/
def dropSlot (p : Program) : AnyHandle → Program
  | @AnyHandle.mk .expression e => p.removeExpression e
  | @AnyHandle.mk .definition d => p.removeDefinition d
  | @AnyHandle.mk (.var family) var => p.modifyTable family (·.free var)
  | @AnyHandle.mk (.occ family) occurrence =>
    p.modifyTable family fun t => { t with occurrences := t.occurrences.remove occurrence }

/-- What an overwrite yields: whether it changed anything, where it says so, or a fault, and the
program after it. -/
structure Overwritten where
  result : Except Fault (Option Bool)
  program : Program

/-- Writes if the entry is there. -/
def whenLive {α : Type} (p : Program) (entry : Except Fault α)
    (write : α → Program × Option Bool) : Overwritten :=
  match entry with
  | .error fault => ⟨.error fault, p⟩
  | .ok a =>
    let (p, changed) := write a
    ⟨.ok changed, p⟩

/-- Changes the entry of a variable. -/
def modifyVariable (p : Program) (var : VarId family)
    (f : VariableEntry family → VariableEntry family) : Program :=
  p.modifyTable family fun t => { t with vars := t.vars.modify var f }

/-- Changes the entry of an occurrence and no set. -/
def modifyOccurrence (p : Program) (occurrence : OccId family)
    (f : OccurrenceEntry family → OccurrenceEntry family) : Program :=
  p.modifyTable family (·.modifyOccurrence occurrence f)

/-- Makes an overwrite. -/
def overwrite (p : Program) : Overwrite → Overwritten
  | .enclosing node parent =>
    p.whenLive (p.enclosing node) fun _ => (p.setEnclosing node parent, none)
  | .recursivity occurrence recursivity =>
    p.whenLive (p.fetchOccurrence occurrence) fun _ =>
      (p.modifyOccurrence occurrence fun entry => { entry with recursivity }, none)
  | .repoint occurrence new recursivity =>
    let (result, p) := Edit.repoint occurrence new recursivity p
    ⟨result.map fun _ => none, p⟩
  | @Overwrite.unregister family occurrence =>
    ⟨.ok none, p.modifyTable family (·.unregister occurrence)⟩
  | @Overwrite.list family var occurrence =>
    p.whenLive (p.fetchVariable var) fun entry =>
      (p.modifyTable family (·.list var occurrence),
        some (!entry.occurrences.contains occurrence))
  | @Overwrite.unlist family var occurrence =>
    p.whenLive (p.fetchVariable var) fun entry =>
      (p.modifyTable family (·.unlist var occurrence), some (entry.occurrences.contains occurrence))
  | .kind var kind =>
    p.whenLive (p.fetchVariable var) fun _ =>
      (p.modifyVariable var fun entry => { entry with kind }, none)
  | .binding var binding =>
    p.whenLive (p.fetchVariable var) fun _ =>
      (p.modifyVariable var fun entry => { entry with binding }, none)
  | .holder occurrence holder =>
    p.whenLive (p.fetchOccurrence occurrence) fun _ =>
      (p.modifyOccurrence occurrence fun entry => { entry with holder }, none)
  | .referent occurrence new =>
    p.whenLive (p.fetchOccurrence occurrence) fun _ =>
      (p.modifyOccurrence occurrence fun entry => { entry with var := new }, none)
  | .shape e shape =>
    p.whenLive (p.fetchShape e) fun _ => (p.setShape e shape, none)
  | .definition d content =>
    p.whenLive (p.fetchDefinition d) fun _ => (p.setDefinition d content, none)
  | .root root => ⟨.ok none, { p with root }⟩
  | .replaceChild e old new =>
    p.whenLive (p.fetchShape e) fun shape =>
      match shape.replaceChild? old new with
      | some replaced => (p.setShape e replaced, some true)
      | none => (p, some false)
  | .drop handle => ⟨.ok (some (p.isLive handle)), p.dropSlot handle⟩

end Program

end ContinuationIR

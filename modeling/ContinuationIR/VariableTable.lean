import ContinuationIR.Fault
import ContinuationIR.HandleSet
import ContinuationIR.Kind

/-!
# Variables and their occurrences

Both families share one table: variables with the node that binds them and the set of their
occurrences, and occurrences with the variable they refer to and the expression that holds them. The
two sides are linked in both directions, and every operation below updates both.
-/

namespace ContinuationIR
set_option autoImplicit false

/-- The place at which a node binds a variable. -/
inductive BinderRole where
  | letVariable
  | groupName
  | parameter
  | returnContinuation
deriving DecidableEq

/-- The name of a role. -/
def BinderRole.text : BinderRole → String
  | .letVariable => "let"
  | .groupName => "group_name"
  | .parameter => "parameter"
  | .returnContinuation => "return_continuation"

/-- The node that binds a variable and the place it has there. -/
structure Binding where
  site : Node
  role : BinderRole
deriving DecidableEq

/-- The entry of a variable. Continuation variables have the kind `any`. -/
structure VariableEntry (family : Family) where
  name : String
  kind : Kind
  binding : Option Binding
  occurrences : HandleSet (.occ family)
deriving DecidableEq

/-- The entry of an occurrence. -/
structure OccurrenceEntry (family : Family) where
  var : VarId family
  recursivity : Recursivity
  holder : ExprId
deriving DecidableEq

/-- A use to be made of a variable, with the recursivity it is expected to have. -/
structure Mention (family : Family) where
  var : VarId family
  recursivity : Recursivity
deriving DecidableEq

namespace Mention

variable {family : Family}

/-- A use from outside the definitions of the group that names the variable. -/
def plain (var : VarId family) : Mention family := ⟨var, .nonRecursive⟩

/-- A use from inside one of the definitions of the group that names the variable. -/
def recursive (var : VarId family) : Mention family := ⟨var, .recursive⟩

/-- The text of a mention in structured dumps. -/
def dump (m : Mention family) : String :=
  s!"Maker \x7b var: {m.var.dump}, recursivity: {m.recursivity.label} \x7d"

end Mention

/-- How often a variable is used. -/
inductive UseCount (family : Family) where
  | none
  | one (occurrence : OccId family)
  | several
deriving DecidableEq

/-- Whether a set of occurrences has no member, one or several. -/
def UseCount.ofSet {family : Family} (occurrences : HandleSet (.occ family)) : UseCount family :=
  match occurrences.toList with
  | [] => .none
  | [occurrence] => .one occurrence
  | _ => .several

/-- The variables and occurrences of one family. -/
structure VariableTable (family : Family) where
  vars : Slots (.var family) (VariableEntry family)
  occurrences : Slots (.occ family) (OccurrenceEntry family)

namespace VariableTable

variable {family : Family}

/-- The table without variables. -/
def empty : VariableTable family := ⟨.empty, .empty⟩

/-- Adds a variable that is neither bound nor used. -/
def fresh (t : VariableTable family) (name : String) (kind : Kind) : VariableTable family :=
  { t with vars := t.vars.push ⟨name, kind, none, .empty⟩ }

/-- Records where a variable is bound. -/
def setBinding (t : VariableTable family) (var : VarId family) (binding : Option Binding) :
    VariableTable family :=
  { t with vars := t.vars.modify var fun entry => { entry with binding } }

/-- Adds an occurrence to the set of a variable. -/
def list (t : VariableTable family) (var : VarId family) (occurrence : OccId family) :
    VariableTable family :=
  { t with
    vars := t.vars.modify var fun entry =>
      { entry with occurrences := entry.occurrences.insert occurrence } }

/-- Takes an occurrence out of the set of a variable. -/
def unlist (t : VariableTable family) (var : VarId family) (occurrence : OccId family) :
    VariableTable family :=
  { t with
    vars := t.vars.modify var fun entry =>
      { entry with occurrences := entry.occurrences.erase occurrence } }

/-- Changes the entry of an occurrence and no set. -/
def modifyOccurrence (t : VariableTable family) (occurrence : OccId family)
    (f : OccurrenceEntry family → OccurrenceEntry family) : VariableTable family :=
  { t with occurrences := t.occurrences.modify occurrence f }

/-- Adds the occurrence that a mention asks for, not yet listed with its variable. -/
def issue (t : VariableTable family) (mention : Mention family) (holder : ExprId) :
    VariableTable family :=
  { t with occurrences := t.occurrences.push ⟨mention.var, mention.recursivity, holder⟩ }

/-- Corrects the recursivity of an occurrence. -/
def retag (t : VariableTable family) (occurrence : OccId family) (recursivity : Recursivity) :
    VariableTable family :=
  t.modifyOccurrence occurrence fun entry => { entry with recursivity }

/-- Lets an occurrence refer to another variable and changes no set. -/
def redirect (t : VariableTable family) (occurrence : OccId family) (new : VarId family)
    (recursivity : Recursivity) : VariableTable family :=
  t.modifyOccurrence occurrence fun entry => { entry with var := new, recursivity }

/-- Removes an occurrence and takes it out of the set of its variable. -/
def unregister (t : VariableTable family) (occurrence : OccId family) : VariableTable family :=
  match t.occurrences.get? occurrence with
  | none => t
  | some entry =>
    { t with occurrences := t.occurrences.remove occurrence }.unlist entry.var occurrence

/-- Removes a variable. -/
def free (t : VariableTable family) (var : VarId family) : VariableTable family :=
  { t with vars := t.vars.remove var }

/-- The occurrences of a variable, ascending. -/
def uses (t : VariableTable family) (var : VarId family) : Except Fault (List (OccId family)) :=
  return (← t.vars.fetch var).occurrences.toList

end VariableTable

end ContinuationIR

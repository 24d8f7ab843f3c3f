import ContinuationIR.Walk

/-!
# Free variables

The variables that are used below a node and not bound there. The name of a definition counts as
bound in the definition itself, since the group that holds the definition binds it.
-/

namespace ContinuationIR
set_option autoImplicit false

/-- The free variables of a node, by family. -/
structure FreeVariables where
  values : HandleSet (.var .value)
  continuations : HandleSet (.var .continuation)
deriving DecidableEq

/-- Whether nothing is free. -/
def FreeVariables.isEmpty (free : FreeVariables) : Bool :=
  free.values.isEmpty && free.continuations.isEmpty

namespace Program

variable {family : Family}

/-- An event whose occurrence, if it has one, is live, else the fault. -/
def soundUse (p : Program) (event : Event) : Except Fault Event :=
  match event with
  | .mark _ (.use occurrence) =>
    if p.hasOccurrence occurrence then .ok event else .error (.stale occurrence)
  | _ => event.sound

/-- The variables of a family that are used in a walk. -/
def usedVariables (p : Program) (family : Family) (events : List Event) : List (VarId family) :=
  events.filterMap fun event => do
    let occurrence ← event.used? family
    let entry ← p.occEntry? occurrence
    return entry.var

/-- The name of a node, if it is a definition that a group of the family may hold. -/
def ownName? (p : Program) (family : Family) : Node → Option (VarId family)
  | .expr _ => none
  | .defn d => (p.definitions.get? d).bind fun entry => entry.definition.header.name? family

/-- The variables of a family that are used and not bound in the walk over a node. -/
def freeIn (p : Program) (family : Family) (node : Node) (events : List Event) :
    HandleSet (.var family) :=
  let bound := events.filterMap (Event.bound? family) ++ (p.ownName? family node).toList
  (HandleSet.ofList (p.usedVariables family events)).eraseAll bound

/-- The free variables of a node. -/
def freeVariables (p : Program) (node : Node) : Except Fault FreeVariables := do
  let events ← p.walk p.soundUse node none
  return ⟨p.freeIn .value node events, p.freeIn .continuation node events⟩

/-- Whether a definition is a function. -/
def isFunction (p : Program) (d : DefId) : Bool :=
  (p.definitions.get? d).any fun entry => entry.definition.header.kind = .function

/-- The functions of the installed tree, in the order a walk enters them. -/
def functions (p : Program) : Except Fault (List DefId) :=
  match p.root with
  | none => .ok []
  | some root => return (← p.region (.defn root) none).definitions.filter p.isFunction

/-- The free variables of each function of the installed tree, ascending by function. -/
def functionFreeVariables (p : Program) : Except Fault (List (DefId × FreeVariables)) := do
  let functions ← p.functions
  let free ← functions.mapM fun d => return (d, ← p.freeVariables (.defn d))
  return (HandleSet.ofList functions).toList.filterMap fun d => (free.lookup d).map ((d, ·))

end Program

end ContinuationIR
